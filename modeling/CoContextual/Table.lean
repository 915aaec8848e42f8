/-!
# Ordered tables

A `Table κ υ` maps keys to values and lists its entries in strictly ascending key order. The
listing is the whole content: two tables with the same lookups are equal (`Table.ext_get?`).

The operations are described by what they do to a lookup:

- `get?_upsert`: updating one key leaves every other lookup alone;
- `get?_union`: in a union the right table wins;
- `get?_map`, `get?_filterKeys`: mapping values and dropping keys act entry by entry.
-/

namespace CoContextual

/-- A finite map whose entries stand in strictly ascending key order. -/
structure Table (κ υ : Type) [Ord κ] where
  /-- The entries, smallest key first. -/
  toList : List (κ × υ)
  /-- No key occurs twice, and the keys ascend. -/
  sorted : toList.Pairwise fun a b => compare a.1 b.1 = .lt

namespace Table

/-- Listing the values of a partial function keeps the keys as they are. -/
theorem keys_of_mapM {κ υ ω : Type} {f : υ → Option ω} {l : List (κ × υ)} {m : List (κ × ω)}
    (h : l.mapM (fun e => (f e.2).map (e.1, ·)) = some m) :
    m.map Prod.fst = l.map Prod.fst := by
  induction l generalizing m with
  | nil => simp_all
  | cons e rest ih =>
    rw [List.mapM_cons] at h
    cases hf : f e.2 with
    | none => simp [hf] at h
    | some w =>
      cases hr : rest.mapM (fun e => (f e.2).map (e.1, ·)) with
      | none => simp [hf, hr] at h
      | some tail =>
        simp only [hf, hr, Option.map_some, Option.pure_def, Option.bind_eq_bind,
          Option.bind_some, Option.some.injEq] at h
        simp [← h, ih hr]

variable {κ υ ω : Type} [Ord κ]

/-- The table without entries. -/
def empty : Table κ υ := ⟨[], .nil⟩

instance : EmptyCollection (Table κ υ) := ⟨empty⟩

instance : Inhabited (Table κ υ) := ⟨empty⟩

/-- The keys, smallest first. -/
def keys (t : Table κ υ) : List κ := t.toList.map Prod.fst

/-- The values, in the order of their keys. -/
def values (t : Table κ υ) : List υ := t.toList.map Prod.snd

/-- The number of keys. -/
def size (t : Table κ υ) : Nat := t.toList.length

/-- Whether there is no entry. -/
def isEmpty (t : Table κ υ) : Bool := t.toList.isEmpty

/-- The value listed under `k`. -/
def lookup (k : κ) : List (κ × υ) → Option υ
  | [] => none
  | (k', v) :: rest => if compare k k' = .eq then some v else lookup k rest

/-- The value stored under `k`, if there is one. -/
def get? (t : Table κ υ) (k : κ) : Option υ := lookup k t.toList

@[simp]
theorem get?_empty (k : κ) : (empty : Table κ υ).get? k = none := rfl

/-- Whether `k` has a value. -/
def contains (t : Table κ υ) (k : κ) : Bool := (t.get? k).isSome

/-- Replaces the value of `k` by `f` of what is stored there, keeping the order of the keys. -/
def upsertList (k : κ) (f : Option υ → υ) : List (κ × υ) → List (κ × υ)
  | [] => [(k, f none)]
  | (k', v) :: rest =>
    match compare k k' with
    | .lt => (k, f none) :: (k', v) :: rest
    | .eq => (k, f (some v)) :: rest
    | .gt => (k', v) :: upsertList k f rest

theorem mem_upsertList {k : κ} {f : Option υ → υ} {l : List (κ × υ)} {e : κ × υ}
    (h : e ∈ upsertList k f l) : e.1 = k ∨ e ∈ l := by
  induction l with
  | nil => simp_all [upsertList]
  | cons hd tl ih =>
    obtain ⟨k', v⟩ := hd
    rw [upsertList] at h
    split at h <;> grind

theorem sorted_upsertList [Std.TransOrd κ] [Std.LawfulEqOrd κ] (k : κ) (f : Option υ → υ)
    {l : List (κ × υ)} (h : l.Pairwise fun a b => compare a.1 b.1 = .lt) :
    (upsertList k f l).Pairwise fun a b => compare a.1 b.1 = .lt := by
  induction l with
  | nil => simp [upsertList]
  | cons hd tl ih =>
    obtain ⟨k', v⟩ := hd
    have htail := List.pairwise_cons.1 h
    rw [upsertList]
    split
    · rename_i hlt
      refine .cons (fun e he => ?_) h
      rcases List.mem_cons.1 he with rfl | he
      · exact hlt
      · exact Std.TransCmp.lt_trans hlt (htail.1 e he)
    · rename_i heq
      have hk : k = k' := Std.LawfulEqOrd.eq_of_compare heq
      exact .cons (fun e he => hk ▸ htail.1 e he) htail.2
    · rename_i hgt
      refine .cons (fun e he => ?_) (ih htail.2)
      rcases mem_upsertList he with he | he
      · rw [he]
        exact Std.OrientedCmp.lt_of_gt hgt
      · exact htail.1 e he

/-- A key that lies below every listed key is not listed. -/
theorem lookup_eq_none_of_lt {k : κ} {l : List (κ × υ)} (h : ∀ e ∈ l, compare k e.1 = .lt) :
    lookup k l = none := by
  induction l with
  | nil => rfl
  | cons e rest ih =>
    rw [lookup, if_neg (by simp [h e]), ih fun x hx => h x (by simp [hx])]

/-- Lists that agree on every lookup are equal when their keys ascend. -/
theorem eq_of_lookup_eq [Std.TransOrd κ] [Std.LawfulEqOrd κ] {l₁ l₂ : List (κ × υ)}
    (h₁ : l₁.Pairwise fun a b => compare a.1 b.1 = .lt)
    (h₂ : l₂.Pairwise fun a b => compare a.1 b.1 = .lt)
    (h : ∀ k, lookup k l₁ = lookup k l₂) : l₁ = l₂ := by
  induction l₁ generalizing l₂ with
  | nil =>
    cases l₂ with
    | nil => rfl
    | cons e rest => simpa [lookup, Std.ReflCmp.compare_self] using h e.1
  | cons e₁ rest₁ ih =>
    cases l₂ with
    | nil => simpa [lookup, Std.ReflCmp.compare_self] using h e₁.1
    | cons e₂ rest₂ =>
      have t₁ := List.pairwise_cons.1 h₁
      have t₂ := List.pairwise_cons.1 h₂
      have head : compare e₁.1 e₂.1 = .eq := by
        cases hc : compare e₁.1 e₂.1 with
        | eq => rfl
        | lt =>
          -- the smaller head key is missing on the other side
          have := h e₁.1
          rw [lookup_eq_none_of_lt (l := e₂ :: rest₂) (by
            intro e he
            rcases List.mem_cons.1 he with rfl | he
            · exact hc
            · exact Std.TransCmp.lt_trans hc (t₂.1 e he))] at this
          simp [lookup, Std.ReflCmp.compare_self] at this
        | gt =>
          have hc' : compare e₂.1 e₁.1 = .lt := Std.OrientedCmp.lt_of_gt hc
          have := h e₂.1
          rw [lookup_eq_none_of_lt (l := e₁ :: rest₁) (by
            intro e he
            rcases List.mem_cons.1 he with rfl | he
            · exact hc'
            · exact Std.TransCmp.lt_trans hc' (t₁.1 e he))] at this
          simp [lookup, Std.ReflCmp.compare_self] at this
      have hkey : e₁.1 = e₂.1 := Std.LawfulEqOrd.eq_of_compare head
      have hval : e₁.2 = e₂.2 := by
        simpa [lookup, hkey, Std.ReflCmp.compare_self] using h e₁.1
      have hrest : rest₁ = rest₂ := by
        refine ih t₁.2 t₂.2 fun k => ?_
        by_cases hk : compare k e₁.1 = .eq
        · have hk' : k = e₁.1 := Std.LawfulEqOrd.eq_of_compare hk
          subst hk'
          rw [lookup_eq_none_of_lt t₁.1, lookup_eq_none_of_lt (hkey ▸ t₂.1)]
        · have := h k
          rwa [lookup, lookup, if_neg hk, if_neg (hkey ▸ hk)] at this
      rw [Prod.ext hkey hval, hrest]

/-- Tables with the same lookups are equal. -/
theorem ext_get? [Std.TransOrd κ] [Std.LawfulEqOrd κ] {s t : Table κ υ}
    (h : ∀ k, s.get? k = t.get? k) : s = t := by
  have := eq_of_lookup_eq s.sorted t.sorted h
  cases s
  cases t
  simp_all

/-- An entry is listed exactly when a lookup finds it. -/
theorem mem_toList_iff [Std.TransOrd κ] [Std.LawfulEqOrd κ] {t : Table κ υ} {k : κ} {v : υ} :
    (k, v) ∈ t.toList ↔ t.get? k = some v := by
  obtain ⟨l, hl⟩ := t
  show (k, v) ∈ l ↔ lookup k l = some v
  induction l with
  | nil => simp [lookup]
  | cons e rest ih =>
    have hcons := List.pairwise_cons.1 hl
    by_cases hk : compare k e.1 = .eq
    · have hk' : k = e.1 := Std.LawfulEqOrd.eq_of_compare hk
      have : (k, v) ∉ rest := fun hmem => by
        have := hcons.1 _ hmem
        simp [← hk', Std.ReflCmp.compare_self] at this
      simp only [List.mem_cons, this, or_false, lookup, if_pos hk, Option.some.injEq]
      exact ⟨fun h => by rw [← h], fun h => by rw [← h, hk']⟩
    · have : (k, v) ≠ e := fun h => hk (by rw [← h]; exact Std.ReflCmp.compare_self)
      simp [lookup, hk, this, ih hcons.2]

section Update

variable [Std.TransOrd κ] [Std.LawfulEqOrd κ]

/-- The table in which `k` has the value `f` of what it had before. -/
def upsert (t : Table κ υ) (k : κ) (f : Option υ → υ) : Table κ υ :=
  ⟨upsertList k f t.toList, sorted_upsertList k f t.sorted⟩

/-- The table in which `k` has the value `v`. -/
def insert (t : Table κ υ) (k : κ) (v : υ) : Table κ υ := t.upsert k fun _ => v

/-- The table with the single entry `k`, `v`. -/
def singleton (k : κ) (v : υ) : Table κ υ := empty.insert k v

/-- Inserts the entries of a list one after another, so that a later one wins. -/
def insertAll (t : Table κ υ) (l : List (κ × υ)) : Table κ υ :=
  l.foldl (fun acc e => acc.insert e.1 e.2) t

/-- The table that holds the entries of a list, the last one for a key that occurs twice. -/
def ofList (l : List (κ × υ)) : Table κ υ := empty.insertAll l

/-- All entries of both tables; on a common key the right table wins. -/
def union (s t : Table κ υ) : Table κ υ := s.insertAll t.toList

instance : Append (Table κ υ) := ⟨union⟩

theorem get?_upsert_self (t : Table κ υ) (k : κ) (f : Option υ → υ) :
    (t.upsert k f).get? k = some (f (t.get? k)) := by
  obtain ⟨l, hl⟩ := t
  show lookup k (upsertList k f l) = some (f (lookup k l))
  induction l with
  | nil => simp [upsertList, lookup, Std.ReflCmp.compare_self]
  | cons e rest ih =>
    have hcons := List.pairwise_cons.1 hl
    obtain ⟨k', v⟩ := e
    rw [upsertList]
    split
    · rename_i hlt
      -- `k` lies below every key of the list, so nothing was stored under it
      have : lookup k ((k', v) :: rest) = none := by
        refine lookup_eq_none_of_lt fun e he => ?_
        rcases List.mem_cons.1 he with rfl | he
        · exact hlt
        · exact Std.TransCmp.lt_trans hlt (hcons.1 e he)
      rw [this]
      simp [lookup, Std.ReflCmp.compare_self]
    · rename_i heq
      simp [lookup, heq, Std.ReflCmp.compare_self]
    · rename_i hgt
      simp [lookup, hgt, ih hcons.2]

theorem get?_upsert_of_ne (t : Table κ υ) {k j : κ} (f : Option υ → υ) (h : j ≠ k) :
    (t.upsert k f).get? j = t.get? j := by
  obtain ⟨l, hl⟩ := t
  show lookup j (upsertList k f l) = lookup j l
  have hne : compare j k ≠ .eq := fun hc => h (Std.LawfulEqOrd.eq_of_compare hc)
  clear hl
  induction l with
  | nil => simp [upsertList, lookup, hne]
  | cons e rest ih =>
    obtain ⟨k', v⟩ := e
    rw [upsertList]
    split
    · simp [lookup, hne]
    · rename_i heq
      have hk : k = k' := Std.LawfulEqOrd.eq_of_compare heq
      simp [lookup, ← hk, hne]
    · simp [lookup, ih]

/-- Updating `k` changes the lookup of `k` and no other. -/
theorem get?_upsert [DecidableEq κ] (t : Table κ υ) (k j : κ) (f : Option υ → υ) :
    (t.upsert k f).get? j = if j = k then some (f (t.get? k)) else t.get? j := by
  split
  · rename_i h
    subst h
    exact get?_upsert_self t j f
  · rename_i h
    exact get?_upsert_of_ne t f h

/-- Inserting under `k` changes the lookup of `k` and no other. -/
theorem get?_insert [DecidableEq κ] (t : Table κ υ) (k j : κ) (v : υ) :
    (t.insert k v).get? j = if j = k then some v else t.get? j :=
  get?_upsert t k j fun _ => v

/-- Inserting entries with ascending keys: what the list says of a key wins. -/
theorem get?_insertAll [DecidableEq κ] (t : Table κ υ) {l : List (κ × υ)}
    (h : l.Pairwise fun a b => compare a.1 b.1 = .lt) (j : κ) :
    (t.insertAll l).get? j = (lookup j l).or (t.get? j) := by
  induction l generalizing t with
  | nil => rfl
  | cons e rest ih =>
    have hcons := List.pairwise_cons.1 h
    have step : t.insertAll (e :: rest) = (t.insert e.1 e.2).insertAll rest := rfl
    rw [step, ih _ hcons.2, get?_insert, lookup]
    by_cases hj : j = e.1
    · have : lookup j rest = none := lookup_eq_none_of_lt (hj ▸ hcons.1)
      rw [this, if_pos hj, hj, if_pos Std.ReflCmp.compare_self]
      rfl
    · have : compare j e.1 ≠ .eq := fun hc => hj (Std.LawfulEqOrd.eq_of_compare hc)
      simp [hj, this]

/-- In a union the right table wins. -/
theorem get?_union [DecidableEq κ] (s t : Table κ υ) (j : κ) :
    (s ++ t).get? j = (t.get? j).or (s.get? j) :=
  get?_insertAll s t.sorted j

end Update

/-! ## Mapping and dropping entries -/

/-- Applies `f` to every value. -/
def map (t : Table κ υ) (f : υ → ω) : Table κ ω :=
  ⟨t.toList.map fun e => (e.1, f e.2), t.sorted.map _ fun _ _ h => h⟩

theorem get?_map (t : Table κ υ) (f : υ → ω) (k : κ) : (t.map f).get? k = (t.get? k).map f := by
  obtain ⟨l, hl⟩ := t
  show lookup k (l.map fun e => (e.1, f e.2)) = (lookup k l).map f
  clear hl
  induction l with
  | nil => rfl
  | cons e rest ih =>
    rw [List.map_cons, lookup, lookup, ih]
    split <;> rfl

/-- Keeps the entries whose key satisfies `p`. -/
def filterKeys (t : Table κ υ) (p : κ → Bool) : Table κ υ :=
  ⟨t.toList.filter fun e => p e.1, t.sorted.filter _⟩

theorem get?_filterKeys [Std.LawfulEqOrd κ] (t : Table κ υ) (p : κ → Bool) (k : κ) :
    (t.filterKeys p).get? k = if p k then t.get? k else none := by
  obtain ⟨l, hl⟩ := t
  show lookup k (l.filter fun e => p e.1) = if p k then lookup k l else none
  clear hl
  induction l with
  | nil => simp [lookup]
  | cons e rest ih =>
    by_cases hk : compare k e.1 = .eq
    · have hk' : k = e.1 := Std.LawfulEqOrd.eq_of_compare hk
      subst hk'
      by_cases hp : p e.1
      · simp [hp, lookup]
      · simp [hp, ih]
    · by_cases hp : p e.1
      · simp [hp, lookup, hk, ih]
      · simp [hp, lookup, hk, ih]

/-- Applies a partial function to every value; there is no result if one value has none. -/
def traverse (t : Table κ υ) (f : υ → Option ω) : Option (Table κ ω) :=
  match h : t.toList.mapM (fun e => (f e.2).map (e.1, ·)) with
  | none => none
  | some m => some ⟨m, by
      have keys : (t.toList.map Prod.fst).Pairwise fun a b => compare a b = .lt :=
        List.pairwise_map.2 t.sorted
      rw [← keys_of_mapM h] at keys
      exact List.pairwise_map.1 keys⟩

/-- A table is the result of `traverse` exactly when its listing is that of the partial map. -/
theorem traverse_eq_some_iff {t : Table κ υ} {f : υ → Option ω} {u : Table κ ω} :
    t.traverse f = some u ↔
      t.toList.mapM (fun e => (f e.2).map (e.1, ·)) = some u.toList := by
  obtain ⟨l, hl⟩ := u
  rw [traverse]
  split
  · rename_i h
    simp [h]
  · rename_i m h
    simp [h]

end Table

end CoContextual
