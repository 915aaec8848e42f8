import CoContextual.Proofs.Substitution.Origins

/-!
# The records of a replacement are exact

Applying a substitution visits the variables of a type, those in quantifier lists included, and from
a bound variable those of the type that it is bound to (`Substitution.Visits`). An alias is followed
without a visit to the variables on the way.

- `Substitution.Acyclic.mem_origins_expand_iff`: expanding a variable leaves one kind of record, for
  every visited variable that does not resolve to itself, under the identity of what it resolves to;
- `Substitution.Acyclic.mem_origins_iff`: so does applying the substitution to a type.

Several variables may resolve to types of one identity. The table of the records keeps the last of
them, so that every entry is right and no identity is missing
(`Substitution.Acyclic.origins_exact`).
-/

namespace CoContextual

namespace Ty

/-- Differing from a variable is the same with and without identities. -/
theorem alike_flexible_eq_false_iff {t : Ty} {v : NodeId} :
    t.alike (.flexible v) = false ↔ t ≠ .flexible v := by
  cases t <;> simp [alike]

/-- Replacing records for a type what it records for the variables that are mentioned. -/
theorem mem_origins_iff {replace : NodeId → Option Resolved} {t : Ty} {r : Resolved}
    (hr : t.applyWith replace = some r) {p : NodeId × Ty} :
    p ∈ r.origins ↔ ∃ v ∈ t.mentions, ∃ r', replace v = some r' ∧ p ∈ r'.origins := by
  constructor
  · exact exists_of_mem_origins hr
  · rintro ⟨v, hv, r', hr', hp⟩
    obtain ⟨r'', hr'', hsub⟩ := exists_of_applyWith hr v hv
    obtain rfl : r' = r'' := Option.some.inj (hr'.symm.trans hr'')
    exact hsub hp

end Ty

namespace Substitution

variable {s : Substitution} {v w : NodeId}

/-- The variable `v` is bound to a type that mentions `w`. -/
def Uncovers (s : Substitution) (v w : NodeId) : Prop :=
  ∃ u, s.find? v = some (.bound u) ∧ w ∈ u.mentions

/-- Resolving `t` comes to `w`: it occurs in `t`, in a quantifier list of `t`, or in a type to which
a variable that resolving comes to is bound. -/
def Visits (s : Substitution) (t : Ty) (w : NodeId) : Prop :=
  ∃ v ∈ t.mentions, Relation.ReflTransGen s.Uncovers v w

/-- The record `p` is for `v`, which does not resolve to itself: what it resolves to stands in its
place. -/
def Records (s : Substitution) (v : NodeId) (p : NodeId × Ty) : Prop :=
  s.image v ≠ .flexible v ∧ p = ((s.image v).id, .flexible v)

/-- From an unbound variable resolving goes nowhere. -/
theorem eq_of_unbound {u : NodeId} (hv : s.find? v = some (.unbound u))
    (h : Relation.ReflTransGen s.Uncovers v w) : w = v := by
  rcases h.cases_head with rfl | ⟨x, ⟨t, ht, -⟩, -⟩
  · rfl
  · cases hv.symm.trans ht

/-- From a bound variable it goes to the variables of its type. -/
theorem reaches_iff_of_bound {u : Ty} (hv : s.find? v = some (.bound u)) :
    Relation.ReflTransGen s.Uncovers v w ↔ w = v ∨ s.Visits u w := by
  constructor
  · intro h
    rcases h.cases_head with rfl | ⟨x, ⟨u', hu', hx⟩, hxw⟩
    · exact .inl rfl
    · cases hv.symm.trans hu'
      exact .inr ⟨x, hx, hxw⟩
  · rintro (rfl | ⟨x, hx, hxw⟩)
    · exact .refl
    · exact .head ⟨u, hv, hx⟩ hxw

/-- A bound variable does not resolve to itself. -/
theorem Acyclic.image_ne_of_bound (h : s.Acyclic) {u : Ty} (hv : s.find? v = some (.bound u)) :
    s.image v ≠ .flexible v := by
  intro himage
  have hnone : s.get? v = none := h.get?_eq_none_of_mem_image (v := v) (by simp [himage])
  cases hv.symm.trans (find?_of_none hnone)

/-- Only the variable itself is visited from an unbound one, and only an alias is changed. -/
theorem Acyclic.mem_records_of_unbound (h : s.Acyclic) {u : NodeId}
    (hv : s.find? v = some (.unbound u)) {p : NodeId × Ty} :
    p ∈ (if u = v then [] else [(u, Ty.flexible v)]) ↔
      ∃ w, Relation.ReflTransGen s.Uncovers v w ∧ s.Records w p := by
  have himage : s.image v = .flexible u := h.image_of_unbound hv
  constructor
  · intro hp
    split at hp
    · cases hp
    · rename_i huv
      refine ⟨v, .refl, ?_, ?_⟩
      · rw [himage]
        exact fun heq => huv (by cases heq; rfl)
      · rw [List.mem_singleton.1 hp, himage]
        rfl
  · rintro ⟨w, hvw, hne, rfl⟩
    cases eq_of_unbound hv hvw
    have huv : u ≠ v := fun huv => hne (by rw [himage, huv])
    rw [if_neg huv, himage]
    exact .head _

/-- If the records of the variables in a type are right, so are those of the type. -/
theorem mem_origins_applyWith_iff {n : ℕ} {t : Ty} {r : Resolved} {p : NodeId × Ty}
    (hexpand : ∀ v ∈ t.mentions, ∀ r, s.expand n v = some r →
      (p ∈ r.origins ↔ ∃ w, Relation.ReflTransGen s.Uncovers v w ∧ s.Records w p))
    (hr : t.applyWith (s.expand n) = some r) :
    p ∈ r.origins ↔ ∃ w, s.Visits t w ∧ s.Records w p := by
  rw [Ty.mem_origins_iff hr]
  constructor
  · rintro ⟨v, hv, r', hr', hp⟩
    obtain ⟨w, hvw, hw⟩ := (hexpand v hv r' hr').1 hp
    exact ⟨w, ⟨v, hv, hvw⟩, hw⟩
  · rintro ⟨w, ⟨v, hv, hvw⟩, hw⟩
    obtain ⟨r', hr', -⟩ := Ty.exists_of_applyWith hr v hv
    exact ⟨v, hv, r', hr', (hexpand v hv r' hr').2 ⟨w, hvw, hw⟩⟩

/-- Expanding a variable leaves the records of the variables that it visits and changes. -/
theorem Acyclic.mem_origins_expand_iff (h : s.Acyclic) {n : ℕ} (hn : s.rank v < n) {r : Resolved}
    (hr : s.expand n v = some r) {p : NodeId × Ty} :
    p ∈ r.origins ↔ ∃ w, Relation.ReflTransGen s.Uncovers v w ∧ s.Records w p := by
  induction n generalizing v r with
  | zero => cases hr
  | succ n ih =>
    -- what is left in `v`'s place is what `v` resolves to
    have htype : r.type = s.image v := by
      have himage := h.expand_eq hn
      rw [hr] at himage
      exact Option.some.inj himage
    obtain ⟨l, hv⟩ := h.exists_find? v
    rw [expand, hv] at hr
    cases l with
    | unbound u =>
      cases hr
      exact h.mem_records_of_unbound hv
    | bound u =>
      obtain ⟨inner, hinner, hr⟩ := Option.bind_eq_some_iff.1 hr
      cases hr
      -- the variables of `u` have smaller rank, so the hypothesis holds of each of them
      have hparts : p ∈ inner.origins ↔ ∃ w, s.Visits u w ∧ s.Records w p := by
        refine mem_origins_applyWith_iff (fun x hx r' hr' => ?_) hinner
        have hlt := h.rank_lt_of_find? hv hx
        exact ih (by omega) hr'
      have hlast : p = (inner.type.id, Ty.flexible v) ↔ s.Records v p := by
        rw [Records, ← htype]
        exact ⟨fun hp => ⟨htype ▸ h.image_ne_of_bound hv, hp⟩, And.right⟩
      rw [List.mem_append, List.mem_singleton, hparts, hlast]
      constructor
      · rintro (⟨w, hw, hp⟩ | hp)
        · exact ⟨w, (reaches_iff_of_bound hv).2 (.inr hw), hp⟩
        · exact ⟨v, .refl, hp⟩
      · rintro ⟨w, hvw, hp⟩
        rcases (reaches_iff_of_bound hv).1 hvw with rfl | hw
        · exact .inr hp
        · exact .inl ⟨w, hw, hp⟩

/-- Applying an acyclic substitution leaves the records of the variables that it visits and
changes. -/
theorem Acyclic.mem_origins_iff (h : s.Acyclic) {t : Ty} {r : Resolved}
    (hr : s.applyTo? t = some r) {p : NodeId × Ty} :
    p ∈ r.origins ↔ ∃ w, s.Visits t w ∧ s.Records w p := by
  refine mem_origins_applyWith_iff (fun v _ r' hr' => ?_) hr
  exact h.mem_origins_expand_iff (Nat.lt_succ_of_le (s.rank_le_size v)) hr'

/-- The table of records is exact. Every entry is for a variable that resolving visits and that does
not resolve to itself, under the identity of what it resolves to; and there is an entry for the
identity of whatever such a variable resolves to, also where the records of several variables fall
together. -/
theorem Acyclic.origins_exact (h : s.Acyclic) (t : Ty) :
    ∃ r, s.applyTo? t = some r ∧
      (∀ k w, (Origins.ofResolved [r]).get? k = some w →
        ∃ v u, w = .flexible v ∧ s.Visits t v ∧ s.resolve? w = some u ∧ u.alike w = false ∧
          u.id = k) ∧
      ∀ v, s.Visits t v → ∃ u, s.resolve? (.flexible v) = some u ∧
        (u.alike (.flexible v) = false → ∃ w, (Origins.ofResolved [r]).get? u.id = some w) := by
  obtain ⟨r, hr, -⟩ := h.applyTo?_eq t
  have hrecords : [r].flatMap Resolved.origins = r.origins := List.flatMap_singleton ..
  refine ⟨r, hr, fun k w hw => ?_, fun v hv => ?_⟩
  · rw [Origins.ofResolved, hrecords] at hw
    obtain ⟨v, hv, hne, hp⟩ := (h.mem_origins_iff hr).1 (Table.mem_of_get?_ofList hw)
    cases hp
    have hchanged := Ty.alike_flexible_eq_false_iff.2 hne
    exact ⟨v, s.image v, rfl, hv, h.resolve?_eq (.flexible v), hchanged, rfl⟩
  · refine ⟨s.image v, h.resolve?_eq (.flexible v), fun hne => ?_⟩
    -- a later record may take over the identity, but the entry stays
    have hmem : ((s.image v).id, Ty.flexible v) ∈ r.origins :=
      (h.mem_origins_iff hr).2 ⟨v, hv, Ty.alike_flexible_eq_false_iff.1 hne, rfl⟩
    have hkey : (s.image v).id ∈ ([r].flatMap Resolved.origins).map Prod.fst := by
      rw [hrecords]
      exact List.mem_map_of_mem hmem
    exact Option.isSome_iff_exists.1 (Table.get?_ofList_isSome hkey)

/-- With an alias, a binding inside a binding, a quantifier list, and two variables that are bound
to types of one identity. -/
theorem Acyclic.origins_exact_nested : ∃ (s : Substitution) (t : Ty) (r : Resolved), s.Acyclic ∧
    s.applyTo? t = some r ∧ r.origins.map Prod.fst = [2, 5, 11, 5] ∧
    (∀ k w, (Origins.ofResolved [r]).get? k = some w →
      ∃ v u, w = .flexible v ∧ s.Visits t v ∧ s.resolve? w = some u ∧ u.alike w = false ∧
        u.id = k) ∧
    ∀ v, s.Visits t v → ∃ u, s.resolve? (.flexible v) = some u ∧
      (u.alike (.flexible v) = false → ∃ w, (Origins.ofResolved [r]).get? u.id = some w) := by
  let s := (((Substitution.empty.assign 1 (.flexible 2)).assign 3
    (.arrow 11 (.flexible 1) (.flexible 4))).assign 4 (.primitive 5 .i32)).assign 6
    (.primitive 5 .i32)
  let t : Ty := .scheme 20 [.flexible 3, .flexible 6] (.var (.rigid 7))
  -- the arrow mentions the alias and a variable with a primitive type
  let measure : NodeId → ℕ := fun v => if v = 3 then 2 else if v = 2 then 0 else 1
  have hs : s.Acyclic := acyclic_of_measure measure (by decide)
  obtain ⟨r, hr, hexact⟩ := hs.origins_exact t
  have hkeys : (s.applyTo? t).map (fun r => r.origins.map Prod.fst) = some [2, 5, 11, 5] := rfl
  rw [hr] at hkeys
  exact ⟨s, t, r, hs, hr, Option.some.inj hkeys, hexact⟩

end Substitution

end CoContextual
