import CoContextual.Proofs.Ty.Rename
import CoContextual.Proofs.Supply
import CoContextual.TypeExpr

/-!
# Renumbering types

`Ty.renumber k` adds `k` to every identity in a type. Identities are compared for equality and for
order and are not looked at in any other way, and both stay as they are when the same number is
added to all of them. So each function on types commutes with renumbering; a lemma `f_renumber` says
so of the function `f`.

A table lists its entries in the order of their keys. Changing the keys in a way that keeps their
order (`Table.image`) therefore keeps the places of the entries too.
-/

namespace CoContextual

/-- Optional values that are the same after changes are both absent or both present. -/
theorem map_eq_map_cases {α α' β : Type} {f : α → β} {f' : α' → β} {o : Option α}
    {o' : Option α'} (h : o.map f = o'.map f') :
    o = none ∧ o' = none ∨ ∃ a a', o = some a ∧ o' = some a' ∧ f a = f' a' := by
  cases o with
  | none =>
    cases o' with
    | none => exact .inl ⟨rfl, rfl⟩
    | some a' => cases h
  | some a =>
    cases o' with
    | none => cases h
    | some a' => exact .inr ⟨a, a', rfl, rfl, Option.some.inj h⟩

/-- Changing what a partial function yields, member by member. -/
theorem map_mapM {α β β' : Type} (g : α → Option β) (h : β → β') (l : List α) :
    (l.mapM g).map (List.map h) = l.mapM fun a => (g a).map h := by
  induction l with
  | nil => rfl
  | cons a l ih =>
    rw [List.mapM_cons, List.mapM_cons, ← ih]
    cases g a with
    | none => rfl
    | some b => cases l.mapM g <;> rfl

/-- A partial function on a list whose members are changed. -/
theorem mapM_map_eq {α α' β β' : Type} {f : α → α'} {g : α → Option β} {g' : α' → Option β'}
    {h : β → β'} (hg : ∀ a, g' (f a) = (g a).map h) (l : List α) :
    (l.map f).mapM g' = (l.mapM g).map (List.map h) := by
  rw [map_mapM, List.mapM_map]
  exact congrArg (List.mapM · l) (funext hg)

/-! ## Tables -/

namespace Table

variable {κ υ ω : Type} [Ord κ] {φ : κ → κ} (hφ : ∀ a b, compare (φ a) (φ b) = compare a b)
  (f : υ → ω)

/-- The table with the keys changed by `φ`, which keeps their order, and the values by `f`. -/
def image (t : Table κ υ) : Table κ ω :=
  ⟨t.toList.map fun e => (φ e.1, f e.2), t.sorted.map _ fun a b h => (hφ a.1 b.1).trans h⟩

theorem size_image (t : Table κ υ) : (t.image hφ f).size = t.size := List.length_map _

theorem keys_image (t : Table κ υ) : (t.image hφ f).keys = t.keys.map φ := by
  simp [keys, image]

theorem values_image (t : Table κ υ) : (t.image hφ f).values = t.values.map f := by
  simp [values, image]

theorem get?_image (t : Table κ υ) (k : κ) : (t.image hφ f).get? (φ k) = (t.get? k).map f := by
  obtain ⟨l, hl⟩ := t
  show lookup (φ k) (l.map fun e => (φ e.1, f e.2)) = (lookup k l).map f
  clear hl
  induction l with
  | nil => rfl
  | cons e rest ih =>
    rw [List.map_cons, lookup, lookup, ih, hφ]
    split <;> rfl

section

variable [Std.TransOrd κ] [Std.LawfulEqOrd κ]

theorem upsert_image (t : Table κ υ) (k : κ) {g : Option υ → υ} {g' : Option ω → ω}
    (hg : ∀ known, f (g known) = g' (known.map f)) :
    (t.upsert k g).image hφ f = (t.image hφ f).upsert (φ k) g' := by
  obtain ⟨l, hl⟩ := t
  simp only [upsert, image, mk.injEq]
  clear hl
  induction l with
  | nil => simp [upsertList, hg]
  | cons e rest ih =>
    obtain ⟨k', v⟩ := e
    rw [List.map_cons, upsertList, upsertList, hφ]
    cases compare k k' <;> simp [hg, ih]

theorem insert_image (t : Table κ υ) (k : κ) (v : υ) :
    (t.insert k v).image hφ f = (t.image hφ f).insert (φ k) (f v) :=
  upsert_image hφ f t k fun _ => rfl

theorem insertAll_image (t : Table κ υ) (l : List (κ × υ)) :
    (t.insertAll l).image hφ f = (t.image hφ f).insertAll (l.map fun e => (φ e.1, f e.2)) := by
  induction l generalizing t with
  | nil => rfl
  | cons e rest ih =>
    have hstep : t.insertAll (e :: rest) = (t.insert e.1 e.2).insertAll rest := rfl
    rw [hstep, ih, insert_image]
    rfl

theorem ofList_image (l : List (κ × υ)) :
    (ofList l).image hφ f = ofList (l.map fun e => (φ e.1, f e.2)) :=
  insertAll_image hφ f empty l

include hφ in
/-- The members of a list in order, each once, when all members are changed. -/
theorem keys_ofList_map (l : List κ) :
    (ofList ((l.map φ).map (·, ()))).keys = (ofList (l.map (·, ()))).keys.map φ := by
  rw [← keys_image hφ (fun u : Unit => u), ofList_image, List.map_map, List.map_map]
  rfl

/-- Changing the values alone. -/
theorem map_upsert (t : Table κ υ) (k : κ) {g : Option υ → υ} {g' : Option ω → ω}
    (hg : ∀ known, f (g known) = g' (known.map f)) :
    (t.upsert k g).map f = (t.map f).upsert k g' :=
  upsert_image (φ := id) (fun _ _ => rfl) f t k hg

theorem map_insert (t : Table κ υ) (k : κ) (v : υ) :
    (t.insert k v).map f = (t.map f).insert k (f v) :=
  map_upsert f t k fun _ => rfl

end

theorem map_toList_traverse (t : Table κ υ) (g : υ → Option ω) :
    (t.traverse g).map toList = t.toList.mapM fun e => (g e.2).map (e.1, ·) := by
  rw [traverse]
  split
  · rename_i h
    rw [h, Option.map_none]
  · rename_i m h
    exact h.symm

theorem traverse_map {υ' ω' : Type} (t : Table κ υ) {f : υ → υ'} {g : υ → Option ω}
    {g' : υ' → Option ω'} {h : ω → ω'} (hg : ∀ v, g' (f v) = (g v).map h) :
    (t.map f).traverse g' = (t.traverse g).map fun u => u.map h := by
  have hinj : Function.Injective (toList : Table κ ω' → List (κ × ω')) := by
    rintro ⟨l, hl⟩ ⟨l', hl'⟩ rfl
    rfl
  -- it is enough to compare the listings
  refine Option.map_injective hinj ?_
  show ((t.map f).traverse g').map toList = ((t.traverse g).map fun u => u.map h).map toList
  have hlist : ((t.traverse g).map fun u => u.map h).map toList
      = ((t.traverse g).map toList).map (List.map fun e => (e.1, h e.2)) := by
    rw [Option.map_map, Option.map_map]
    rfl
  rw [hlist, map_toList_traverse, map_toList_traverse]
  refine mapM_map_eq (fun e => ?_) t.toList
  rw [hg, Option.map_map, Option.map_map]
  rfl

end Table

/-! ## Variables -/

theorem NodeId.compare_add (k : ℕ) (a b : NodeId) : compare (a + k) (b + k) = compare a b := by
  simp only [compare, compareOfLessAndEq, Nat.add_lt_add_iff_right, Nat.add_right_cancel_iff]

namespace TyVar

/-- The variable with `k` added to its identity. -/
def renumber (k : ℕ) : TyVar → TyVar
  | flexible id => flexible (id + k)
  | rigid id => rigid (id + k)

@[simp]
theorem id_renumber (k : ℕ) (v : TyVar) : (v.renumber k).id = v.id + k := by cases v <;> rfl

@[simp]
theorem isRigid_renumber (k : ℕ) (v : TyVar) : (v.renumber k).isRigid = v.isRigid := by
  cases v <;> rfl

theorem flexibleId?_renumber (k : ℕ) (v : TyVar) :
    (v.renumber k).flexibleId? = v.flexibleId?.map (· + k) := by cases v <;> rfl

theorem renumber_injective (k : ℕ) : Function.Injective (renumber k) := by
  intro v w h
  cases v <;> cases w <;> simp_all [renumber]

@[simp]
theorem renumber_inj {k : ℕ} {v w : TyVar} : v.renumber k = w.renumber k ↔ v = w :=
  (renumber_injective k).eq_iff

theorem compare_renumber (k : ℕ) (v w : TyVar) :
    compare (v.renumber k) (w.renumber k) = compare v w := by
  show compareLex (compareOn isRigid) (compareOn id) _ _ = compareLex _ _ v w
  simp only [compareLex, compareOn, isRigid_renumber, id_renumber, NodeId.compare_add]

theorem mem_map_renumber {k : ℕ} {v : TyVar} {vs : List TyVar} :
    v.renumber k ∈ vs.map (renumber k) ↔ v ∈ vs := by simp

end TyVar

/-! ## Types -/

namespace Ty

mutual

/-- The type with `k` added to every identity. -/
def renumber (k : ℕ) : Ty → Ty
  | primitive id kind => primitive (id + k) kind
  | arrow id d c => arrow (id + k) (renumber k d) (renumber k c)
  | product id cs => product (id + k) (renumberAll k cs)
  | var v => var (v.renumber k)
  | scheme id bound body => scheme (id + k) (bound.map (TyVar.renumber k)) (renumber k body)
  | invalid id => invalid (id + k)

/-- Adds `k` to every identity in several types. -/
def renumberAll (k : ℕ) : List Ty → List Ty
  | [] => []
  | t :: ts => renumber k t :: renumberAll k ts

end

theorem renumberAll_eq_map (k : ℕ) (ts : List Ty) : renumberAll k ts = ts.map (renumber k) := by
  induction ts with
  | nil => rfl
  | cons t ts ih => rw [renumberAll, ih, List.map_cons]

variable (k : ℕ)

@[simp]
theorem renumber_primitive (id : NodeId) (kind : Primitive) :
    (primitive id kind).renumber k = .primitive (id + k) kind := rfl

@[simp]
theorem renumber_arrow (id : NodeId) (d c : Ty) :
    (arrow id d c).renumber k = .arrow (id + k) (d.renumber k) (c.renumber k) := rfl

@[simp]
theorem renumber_product (id : NodeId) (cs : List Ty) :
    (product id cs).renumber k = .product (id + k) (cs.map (renumber k)) := by
  rw [renumber, renumberAll_eq_map]

@[simp]
theorem renumber_var (v : TyVar) : (var v).renumber k = .var (v.renumber k) := rfl

@[simp]
theorem renumber_scheme (id : NodeId) (bound : List TyVar) (body : Ty) :
    (scheme id bound body).renumber k
      = .scheme (id + k) (bound.map (TyVar.renumber k)) (body.renumber k) := rfl

@[simp]
theorem renumber_invalid (id : NodeId) : (invalid id).renumber k = .invalid (id + k) := rfl

theorem renumber_flexible (v : NodeId) : (Ty.flexible v).renumber k = .flexible (v + k) := by
  rw [renumber_var, TyVar.renumber]

theorem renumber_ne_flexible {t : Ty} (ht : ∀ v, t ≠ .flexible v) (v : NodeId) :
    t.renumber k ≠ .flexible v := by
  rcases t with _ | _ | _ | ⟨w | w⟩ | _ | _
  case var.flexible => exact absurd rfl (ht w)
  all_goals simp [TyVar.renumber]

@[simp]
theorem id_renumber (t : Ty) : (t.renumber k).id = t.id + k := by
  cases t <;> simp [Ty.id]

theorem asVar?_renumber (t : Ty) : (t.renumber k).asVar? = t.asVar?.map (TyVar.renumber k) := by
  cases t <;> simp [asVar?]

theorem sizeAll_renumber {ts : List Ty} (ih : ∀ t ∈ ts, (t.renumber k).size = t.size) :
    sizeAll (ts.map (renumber k)) = sizeAll ts := by
  induction ts with
  | nil => rfl
  | cons t ts ihs =>
    rw [List.map_cons, sizeAll, sizeAll, ih t (.head _), ihs fun u hu => ih u (.tail _ hu)]

@[simp]
theorem size_renumber (t : Ty) : (t.renumber k).size = t.size := by
  induction t using ind with
  | primitive id kind => simp [size]
  | arrow id d c ihd ihc => simp [size, ihd, ihc]
  | product id cs ih => simp [size, sizeAll_renumber k ih]
  | var v => simp [size]
  | scheme id bound body ih => simp [size, ih]
  | invalid id => simp [size]

theorem alikeAll_renumber {ts us : List Ty}
    (ih : ∀ t ∈ ts, ∀ u, (t.renumber k).alike (u.renumber k) = t.alike u) :
    alikeAll (ts.map (renumber k)) (us.map (renumber k)) = alikeAll ts us := by
  induction ts generalizing us with
  | nil => cases us <;> rfl
  | cons t ts ihs =>
    cases us with
    | nil => rfl
    | cons u us =>
      rw [List.map_cons, List.map_cons, alikeAll, alikeAll, ih t (.head _),
        ihs fun t ht => ih t (.tail _ ht)]

/-- Whether two types are alike depends on which variables are equal, not on what they are. -/
@[simp]
theorem alike_renumber (t u : Ty) : (t.renumber k).alike (u.renumber k) = t.alike u := by
  induction t using ind generalizing u with
  | primitive id kind => cases u <;> simp [alike]
  | arrow id d c ihd ihc => cases u <;> simp [alike, ihd, ihc]
  | product id cs ih => cases u <;> simp [alike, alikeAll_renumber k ih]
  | var v => cases u <;> simp [alike]
  | scheme id bound body ih =>
    cases u <;> simp [alike, ih, (TyVar.renumber_injective k).list_map.eq_iff]
  | invalid id => cases u <;> simp [alike]

/-! ## Free variables -/

theorem freeVarsAll_renumber {ts : List Ty}
    (ih : ∀ t ∈ ts, (t.renumber k).freeVars = t.freeVars.map (TyVar.renumber k)) :
    freeVarsAll (ts.map (renumber k)) = (freeVarsAll ts).map (TyVar.renumber k) := by
  induction ts with
  | nil => rfl
  | cons t ts ihs =>
    rw [List.map_cons, freeVarsAll, freeVarsAll, ih t (.head _), ihs fun u hu => ih u (.tail _ hu),
      List.map_append]

theorem freeVars_renumber (t : Ty) :
    (t.renumber k).freeVars = t.freeVars.map (TyVar.renumber k) := by
  induction t using ind with
  | primitive id kind => simp
  | arrow id d c ihd ihc => simp [ihd, ihc]
  | product id cs ih => rw [renumber_product, freeVars, freeVars, freeVarsAll_renumber k ih]
  | var v => simp
  | scheme id bound body ih =>
    -- a quantifier list holds the renumbered variable exactly if it held the variable
    rw [renumber_scheme, freeVars, freeVars, ih, List.filter_map]
    simp only [Function.comp_def, TyVar.mem_map_renumber]
  | invalid id => simp

theorem freeVarSet_renumber (t : Ty) :
    (t.renumber k).freeVarSet = t.freeVarSet.map (TyVar.renumber k) := by
  rw [freeVarSet, freeVarSet, freeVars_renumber, Table.keys_ofList_map (TyVar.compare_renumber k)]

theorem freeFlexible_renumber (t : Ty) :
    (t.renumber k).freeFlexible = t.freeFlexible.map (· + k) := by
  rw [freeFlexible, freeFlexible, freeVarSet_renumber, List.filterMap_map, List.map_filterMap]
  simp only [Function.comp_def, TyVar.flexibleId?_renumber]

/-- Replacing renumbered variables by renumbered types. -/
theorem rename_renumber {f f' : TyVar → Ty} (hf : ∀ v, f' (v.renumber k) = (f v).renumber k)
    (t : Ty) :
    (t.renumber k).rename f' = (t.rename f).renumber k := by
  induction t using ind generalizing f f' with
  | primitive id kind => simp
  | arrow id d c ihd ihc => simp [ihd hf, ihc hf]
  | product id cs ih =>
    simp only [renumber_product, rename_product, List.map_map, product.injEq, true_and]
    exact List.map_congr_left fun c hc => ih c hc hf
  | var v => simp [hf]
  | scheme id bound body ih =>
    rw [renumber_scheme, rename, rename, renumber_scheme]
    congr 1
    refine ih fun v => ?_
    simp only [TyVar.mem_map_renumber, hf]
    split <;> simp
  | invalid id => simp

end Ty

end CoContextual
