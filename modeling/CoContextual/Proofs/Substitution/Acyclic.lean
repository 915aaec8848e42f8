import CoContextual.Proofs.Substitution.Lookup
import Mathlib.Logic.Relation

/-!
# Acyclic substitutions

A variable refers to the variables in its entry. In an acyclic store no chain of references leads
back to its start. The number of variables with an entry that can be reached (`Substitution.rank`)
falls along every reference and is at most the size of the store, so that on an acyclic store
every type can be resolved.

Resolving is then replacing: `Substitution.image s v` is what `v` resolves to, and
`Substitution.Acyclic.resolve?_eq` says that a type resolves to itself with the images in the place
of its variables. An acyclic store is a solution of its own entries
(`Substitution.Acyclic.image_eq`), so that what holds of images is proved from the entries
(`Substitution.Acyclic.image_induction`). In what was resolved no variable with an entry is left
(`Substitution.Acyclic.get?_eq_none_of_mem_substitute`).
-/

namespace CoContextual

namespace Substitution

variable {s t : Substitution} {v w : NodeId}

/-- The entry of `v` mentions `w`. -/
def Refers (s : Substitution) (v w : NodeId) : Prop :=
  ∃ e, s.get? v = some e ∧ w ∈ e.toTy.mentions

/-- No chain of references leads from a variable back to it. -/
def Acyclic (s : Substitution) : Prop := ∀ v, ¬ Relation.TransGen s.Refers v v

theorem Refers.mono (h : t.Extends s) (hvw : s.Refers v w) : t.Refers v w := by
  obtain ⟨e, he, hw⟩ := hvw
  exact ⟨e, h v e he, hw⟩

/-- A part of an acyclic store is acyclic. -/
theorem Acyclic.of_extends (ht : t.Acyclic) (h : t.Extends s) : s.Acyclic := by
  have hmono : s.Refers ≤ t.Refers := fun _ _ => Refers.mono h
  exact fun v hv => ht v (Relation.TransGen.mono hmono v v hv)

theorem acyclic_empty : Substitution.empty.Acyclic := by
  intro v hv
  obtain ⟨w, ⟨e, he, _⟩, _⟩ := Relation.TransGen.head'_iff.1 hv
  cases he

/-- A store is acyclic if some measure falls from every variable to those in its entry. -/
theorem acyclic_of_measure (f : NodeId → ℕ)
    (h : ∀ p ∈ s.entries.toList, ∀ w ∈ p.2.toTy.mentions, f w < f p.1) : s.Acyclic := by
  have hstep : ∀ v w, s.Refers v w → f w < f v := by
    rintro v w ⟨e, he, hw⟩
    exact h (v, e) (Table.mem_toList_iff.2 he) w hw
  have hlt : ∀ v w, Relation.TransGen s.Refers v w → f w < f v := by
    intro v w hvw
    induction hvw with
    | single hvw => exact hstep _ _ hvw
    | tail _ hvw ih => exact (hstep _ _ hvw).trans ih
  exact fun v hv => lt_irrefl _ (hlt v v hv)

open scoped Classical in
/-- How many variables with an entry can be reached from a variable. -/
noncomputable def rank (s : Substitution) (v : NodeId) : ℕ :=
  (s.domain.filter fun w => Relation.ReflTransGen s.Refers v w).card

theorem rank_le_size (s : Substitution) (v : NodeId) : s.rank v ≤ s.size := by
  classical
  exact (Finset.card_filter_le _ _).trans s.card_domain_le

/-- Following a reference leaves the variable behind. -/
theorem Acyclic.rank_lt (h : s.Acyclic) (hvw : s.Refers v w) : s.rank w < s.rank v := by
  classical
  obtain ⟨e, he, -⟩ := id hvw
  -- whatever `w` reaches `v` reaches too, and `v` itself is not among it
  apply Finset.card_lt_card
  rw [Finset.ssubset_iff_of_subset]
  · refine ⟨v, Finset.mem_filter.2 ⟨mem_domain he, .refl⟩, fun hmem => ?_⟩
    exact h v (.head' hvw (Finset.mem_filter.1 hmem).2)
  · intro u hu
    rw [Finset.mem_filter] at hu ⊢
    exact ⟨hu.1, .head hvw hu.2⟩

/-! ## Lookups -/

theorem Acyclic.findWithin_isSome (h : s.Acyclic) {n : ℕ} (hn : s.rank v < n) :
    ∃ l, s.findWithin n v = some l := by
  induction n generalizing v with
  | zero => omega
  | succ n ih =>
    rw [findWithin]
    cases hv : s.get? v with
    | none => exact ⟨_, rfl⟩
    | some e =>
      cases e with
      | bound u => exact ⟨_, rfl⟩
      | redirect w =>
        have hlt := h.rank_lt ⟨_, hv, List.mem_singleton.2 rfl⟩
        exact ih (v := w) (by omega)

/-- On an acyclic store every lookup has an answer. -/
theorem Acyclic.exists_find? (h : s.Acyclic) (v : NodeId) : ∃ l, s.find? v = some l :=
  h.findWithin_isSome (Nat.lt_succ_of_le (s.rank_le_size v))

/-- What a variable is bound to mentions variables of smaller rank only. -/
theorem Acyclic.rank_lt_of_find? (h : s.Acyclic) {u : Ty} (hv : s.find? v = some (.bound u))
    (hw : w ∈ u.mentions) : s.rank w < s.rank v := by
  have := find?_induction (s := s)
    (P := fun v l => ∀ u, l = .bound u → w ∈ u.mentions → s.rank w < s.rank v)
    (fun v hv u hu => by cases hu)
    (fun v u hv u' hu hw => by cases hu; exact h.rank_lt ⟨_, hv, hw⟩)
    (fun v v' l hv hv' ih u hu hw =>
      (ih u hu hw).trans (h.rank_lt ⟨_, hv, List.mem_singleton.2 rfl⟩)) hv
  exact this u rfl hw

/-! ## Resolving -/

/-- A variable that leads to no type is replaced by its representative. -/
theorem map_type_expand_of_unbound (hv : s.find? v = some (.unbound w)) (n : ℕ) :
    (s.expand (n + 1) v).map Resolved.type = some (.flexible w) := by
  rw [expand, hv]
  rfl

/-- A bound variable is replaced by its type with the variables in it replaced, one level down. -/
theorem map_type_expand_of_bound {u : Ty} (hv : s.find? v = some (.bound u)) (n : ℕ) :
    (s.expand (n + 1) v).map Resolved.type = (u.applyWith (s.expand n)).map Resolved.type := by
  rw [expand, hv]
  dsimp only
  cases u.applyWith (s.expand n) <;> rfl

/-- What a variable resolves to, or the variable itself if it cannot be resolved. -/
def image (s : Substitution) (v : NodeId) : Ty := (s.resolve? (.flexible v)).getD (.flexible v)

/-- Above the rank of a variable all depths of expansion give the same type. -/
theorem Acyclic.exists_expand (h : s.Acyclic) (v : NodeId) :
    ∃ u, ∀ n, s.rank v < n → (s.expand n v).map Resolved.type = some u := by
  induction hr : s.rank v using Nat.strong_induction_on generalizing v with
  | _ r ih =>
    obtain ⟨l, hl⟩ := h.exists_find? v
    cases l with
    | unbound w =>
      refine ⟨.flexible w, fun n hn => ?_⟩
      obtain ⟨n, rfl⟩ : ∃ k, n = k + 1 := ⟨n - 1, by omega⟩
      exact map_type_expand_of_unbound hl n
    | bound u =>
      -- the variables of `u` have smaller rank, so one depth serves all of them
      have hparts : ∀ w ∈ u.mentions, ∀ n, r ≤ n →
          (s.expand n w).map Resolved.type = (s.expand r w).map Resolved.type := by
        intro w hw n hn
        have hlt := h.rank_lt_of_find? hl hw
        obtain ⟨u', hu'⟩ := ih (s.rank w) (by omega) w rfl
        rw [hu' n (by omega), hu' r (by omega)]
      have hsome : ∀ w ∈ u.mentions, ∃ u', (s.expand r w).map Resolved.type = some u' := by
        intro w hw
        have hlt := h.rank_lt_of_find? hl hw
        obtain ⟨u', hu'⟩ := ih (s.rank w) (by omega) w rfl
        exact ⟨u', hu' r (by omega)⟩
      -- the type at depth `r` is the one for all greater depths
      let f : NodeId → Ty := fun w => ((s.expand r w).map Resolved.type).getD (.flexible w)
      refine ⟨u.substitute f, fun n hn => ?_⟩
      obtain ⟨n, rfl⟩ : ∃ k, n = k + 1 := ⟨n - 1, by omega⟩
      rw [map_type_expand_of_bound hl]
      apply Ty.map_type_applyWith
      intro w hw
      obtain ⟨u', hu'⟩ := hsome w hw
      rw [hparts w hw n (by omega), hu']
      simp only [f, hu', Option.getD_some]

theorem Acyclic.expand_eq (h : s.Acyclic) {n : ℕ} (hn : s.rank v < n) :
    (s.expand n v).map Resolved.type = some (s.image v) := by
  obtain ⟨u, hu⟩ := h.exists_expand v
  have hfull := hu (s.size + 1) (Nat.lt_succ_of_le (s.rank_le_size v))
  rw [hu n hn, image, resolve?, applyTo?, Ty.applyWith, Ty.applyVar, hfull, Option.getD_some]

/-- On an acyclic store every type resolves, to itself with the images in the place of its
variables. -/
theorem Acyclic.resolve?_eq (h : s.Acyclic) (t : Ty) :
    s.resolve? t = some (t.substitute s.image) :=
  Ty.map_type_applyWith fun v _ => h.expand_eq (Nat.lt_succ_of_le (s.rank_le_size v))

theorem Acyclic.image_of_unbound (h : s.Acyclic) (hv : s.find? v = some (.unbound w)) :
    s.image v = .flexible w := by
  have himage := h.expand_eq (Nat.lt_succ_of_le (s.rank_le_size v))
  rw [map_type_expand_of_unbound hv] at himage
  exact (Option.some.inj himage).symm

theorem Acyclic.image_of_bound (h : s.Acyclic) {u : Ty} (hv : s.find? v = some (.bound u)) :
    s.image v = u.substitute s.image := by
  -- expanding `v` uses up one level, and the parts of `u` need one less
  have hparts : (u.applyWith (s.expand s.size)).map Resolved.type
      = some (u.substitute s.image) := by
    apply Ty.map_type_applyWith
    intro w hw
    exact h.expand_eq (lt_of_lt_of_le (h.rank_lt_of_find? hv hw) (s.rank_le_size v))
  have himage := h.expand_eq (Nat.lt_succ_of_le (s.rank_le_size v))
  rw [map_type_expand_of_bound hv, hparts] at himage
  exact (Option.some.inj himage).symm

/-- Variables that lead to the same place have the same image. -/
theorem Acyclic.image_congr (h : s.Acyclic) (hvw : s.find? v = s.find? w) :
    s.image v = s.image w := by
  obtain ⟨l, hl⟩ := h.exists_find? w
  cases l with
  | unbound u => rw [h.image_of_unbound (hvw.trans hl), h.image_of_unbound hl]
  | bound u => rw [h.image_of_bound (hvw.trans hl), h.image_of_bound hl]

/-- An acyclic store solves its own entries. -/
theorem Acyclic.image_eq (h : s.Acyclic) {e : Entry} (hv : s.get? v = some e) :
    s.image v = e.toTy.substitute s.image := by
  cases e with
  | bound u => exact h.image_of_bound (find?_of_bound hv)
  | redirect w =>
    rw [Entry.toTy, Ty.substitute_flexible]
    exact h.image_congr (find?_of_redirect hv)

theorem Acyclic.image_of_none (h : s.Acyclic) (hv : s.get? v = none) :
    s.image v = .flexible v := h.image_of_unbound (find?_of_none hv)

/-- Induction along an acyclic store: what holds of a variable without an entry, and of a variable
with one if it holds of those in the entry, holds of every variable and what it resolves to. -/
theorem Acyclic.image_induction (h : s.Acyclic) {P : NodeId → Ty → Prop}
    (unbound : ∀ v, s.get? v = none → P v (.flexible v))
    (entry : ∀ v e, s.get? v = some e → (∀ w ∈ e.toTy.mentions, P w (s.image w)) →
      P v (e.toTy.substitute s.image)) (v : NodeId) : P v (s.image v) := by
  induction hn : s.rank v using Nat.strong_induction_on generalizing v with
  | _ n ih =>
  cases hv : s.get? v with
  | none =>
    rw [h.image_of_none hv]
    exact unbound v hv
  | some e =>
    rw [h.image_eq hv]
    exact entry v e hv fun w hw => ih _ (hn ▸ h.rank_lt ⟨e, hv, hw⟩) w rfl

/-- What a variable resolves to mentions no variable with an entry. -/
theorem Acyclic.get?_eq_none_of_mem_image (h : s.Acyclic) (hw : w ∈ (s.image v).mentions) :
    s.get? w = none := by
  refine h.image_induction (P := fun _ t => ∀ w ∈ t.mentions, s.get? w = none) ?_ ?_ v w hw
  · intro v hv w hw
    exact List.mem_singleton.1 hw ▸ hv
  · intro v e _ ih w hw
    obtain ⟨x, hx, hwx⟩ := Ty.exists_of_mem_mentions_substitute hw
    exact ih x hx w hwx

/-- A type that was resolved mentions no variable with an entry. -/
theorem Acyclic.get?_eq_none_of_mem_substitute (h : s.Acyclic) {t : Ty}
    (hw : w ∈ (t.substitute s.image).mentions) : s.get? w = none := by
  obtain ⟨v, -, hwv⟩ := Ty.exists_of_mem_mentions_substitute hw
  exact h.get?_eq_none_of_mem_image hwv

theorem Acyclic.mapM_resolve? (h : s.Acyclic) (ts : List Ty) :
    ts.mapM s.resolve? = some (ts.map (Ty.substitute s.image)) := by
  rw [show s.resolve? = fun t => pure (t.substitute s.image) from funext h.resolve?_eq]
  exact List.mapM_pure

end Substitution

end CoContextual
