import CoContextual.Proofs.Unify.Soundness

/-!
# Stores that operations build

Stores come about by assigning variables, by joining stores and by unifying. In all of them a
variable that stands for another is an alias and never bound to a variable
(`Substitution.Built.tidy`). Unification also keeps chains of aliases from running in a circle
(`Substitution.Course.wellFormed`): it points one representative to another.

A well-formed store is acyclic if its variables have sizes that no alias raises and that fall from a
bound variable to those in its type (`Substitution.WellFormed.acyclic_of_size`). Solutions give such
sizes.
-/

namespace CoContextual

namespace Substitution

variable {s t : Substitution}

/-- The stores that assigning, joining and unifying can make. -/
inductive Built : Substitution → Prop
  | empty : Built .empty
  | assign {s : Substitution} (hs : Built s) (v : NodeId) (target : Ty) : Built (s.assign v target)
  | append {s t : Substitution} (hs : Built s) (ht : Built t) : Built (s ++ t)
  | unify {s t : Substitution} (hs : Built s) (h : s.Unifies t) : Built t

/-- No variable is bound to a variable; such an entry is an alias. -/
def Tidy (s : Substitution) : Prop := ∀ v u, s.get? v = some (.bound u) → ∀ w, u ≠ .flexible w

theorem Tidy.assign (hs : s.Tidy) (v : NodeId) (target : Ty) : (s.assign v target).Tidy := by
  intro w u hw
  rw [Substitution.assign.eq_def] at hw
  split at hw
  · split at hw
    · exact hs w u hw
    · rw [get?, Table.get?_insert] at hw
      split at hw
      · cases hw
      · exact hs w u hw
  · rename_i hflex
    rw [get?, Table.get?_insert] at hw
    split at hw
    · cases hw
      exact hflex
    · exact hs w u hw

theorem Tidy.append (hs : s.Tidy) (ht : t.Tidy) : (s ++ t).Tidy := by
  intro w u hw
  rw [get?_append, Option.or_eq_some_iff] at hw
  rcases hw with hw | ⟨-, hw⟩
  · exact ht w u hw
  · exact hs w u hw

theorem Built.tidy (h : Built s) : s.Tidy := by
  induction h with
  | empty =>
    intro v u hv
    cases hv
  | assign _ v target ih => exact ih.assign v target
  | append _ _ ihs iht => exact ihs.append iht
  | unify _ h ih =>
    obtain ⟨l, r, steps, h⟩ := h
    exact (unify?_eq_some_iff.1 h).preserves (P := Tidy)
      (fun _ _ w _ target hs _ _ => hs.assign w target) ih rfl

/-- Aliases are never bindings, and every chain of them ends. -/
structure WellFormed (s : Substitution) : Prop where
  /-- No variable is bound to a variable. -/
  tidy : s.Tidy
  /-- Every lookup has an answer. -/
  rooted : ∀ v, ∃ look, s.find? v = some look

theorem Built.wellFormed (h : Built s) (hacyclic : s.Acyclic) : s.WellFormed :=
  ⟨h.tidy, hacyclic.exists_find?⟩

theorem WellFormed.exists_target? (h : s.WellFormed) (other : Ty) :
    ∃ target, s.target? other = some target := by
  rw [target?.eq_def]
  split
  · rename_i w
    obtain ⟨look, hlook⟩ := h.rooted w
    exact ⟨_, by rw [hlook, Option.map_some]⟩
  · exact ⟨other, rfl⟩

/-- A variable that another is pointed to has no entry. -/
theorem Tidy.get?_target (hs : s.Tidy) {other : Ty} {w : NodeId}
    (ht : s.target? other = some (.flexible w)) : s.get? w = none := by
  rcases target?_eq_some ht with ⟨v, look, rfl, hlook, htarget⟩ | ⟨hother, htarget⟩
  · cases look with
    | unbound x =>
      cases htarget
      exact get?_eq_none_of_find? hlook
    | bound u =>
      obtain ⟨x, hx⟩ := exists_get?_of_find? hlook
      exact absurd htarget.symm (hs x u hx w)
  · exact absurd htarget.symm (hother w)

/-- After a representative is bound, its lookup ends at once or at the next representative. -/
theorem WellFormed.find?_assign (hs : s.WellFormed) {other target : Ty} {w : NodeId}
    (ht : s.target? other = some target) :
    ∃ look, (s.assign w target).find? w = some look := by
  by_cases hself : target = .flexible w
  · rw [hself, assign_self]
    exact hs.rooted w
  obtain ⟨e, he, rfl⟩ := get?_assign_self (s := s) hself
  cases e with
  | bound u => exact ⟨_, find?_of_bound he⟩
  | redirect x =>
    -- the alias leads to a representative, which is unbound also after the assignment
    have hne : x ≠ w := fun h => hself (by rw [Entry.toTy, h])
    refine ⟨.unbound x, ?_⟩
    rw [find?_of_redirect he]
    refine find?_of_none ?_
    rw [get?_assign_of_ne s _ hne]
    exact hs.tidy.get?_target ht

theorem WellFormed.assign (hs : s.WellFormed) {v w : NodeId} {other target : Ty}
    (hv : s.find? v = some (.unbound w)) (ht : s.target? other = some target) :
    (s.assign w target).WellFormed := by
  have hw := get?_eq_none_of_find? hv
  have hext := extends_assign hw target
  refine ⟨hs.tidy.assign w target, fun x => ?_⟩
  obtain ⟨look, hlook⟩ := hs.rooted x
  cases look with
  | bound u => exact ⟨_, hext.find?_bound hlook⟩
  | unbound y =>
    -- the lookup goes on from `y`, which has an entry now only if it is `w`
    rw [hext.find?_unbound hlook]
    by_cases hy : y = w
    · rw [hy]
      exact hs.find?_assign ht
    · refine ⟨_, find?_of_none ?_⟩
      rw [get?_assign_of_ne s _ hy]
      exact get?_eq_none_of_find? hlook

/-- Unification keeps stores well-formed. -/
theorem Course.wellFormed {goals : List (Ty × Ty)} {a : Attempt} (h : Course s goals a)
    (hs : s.WellFormed) (hres : a.result = .ok t) : t.WellFormed :=
  h.preserves (P := WellFormed) (fun _ _ _ _ _ hs hv ht => hs.assign hv ht) hs hres

theorem wellFormed_empty : Substitution.empty.WellFormed :=
  ⟨fun _ _ hv => (nomatch hv), fun _ => ⟨_, find?_of_none rfl⟩⟩

/-- Every store that unifications lead to is well-formed. -/
theorem wellFormed_of_reflTransGen (h : Relation.ReflTransGen Unifies .empty s) :
    s.WellFormed := by
  induction h with
  | refl => exact wellFormed_empty
  | tail _ hstep ih =>
    obtain ⟨l, r, steps, hunify⟩ := hstep
    exact (unify?_eq_some_iff.1 hunify).wellFormed ih rfl

/-! ## Stores without a cycle -/

/-- Every lookup takes some least number of steps. -/
theorem WellFormed.exists_chain (hs : s.WellFormed) (v : NodeId) :
    ∃ n ≤ s.size + 1, s.findWithin n v ≠ none ∧ ∀ m < n, s.findWithin m v = none := by
  classical
  obtain ⟨look, hlook⟩ := hs.rooted v
  have hex : ∃ n, s.findWithin n v ≠ none := ⟨s.size + 1, by rw [find?] at hlook; simp [hlook]⟩
  refine ⟨Nat.find hex, Nat.find_min' hex ?_, Nat.find_spec hex, fun m hm => ?_⟩
  · rw [find?] at hlook
    simp [hlook]
  · simpa using Nat.find_min hex hm

/-- A well-formed store has no cycle if some size falls from every bound variable to those in its
type and grows along no alias. -/
theorem WellFormed.acyclic_of_size (hs : s.WellFormed) (size : NodeId → ℕ)
    (hbound : ∀ v u, s.get? v = some (.bound u) → ∀ w ∈ u.mentions, size w < size v)
    (hredirect : ∀ v w, s.get? v = some (.redirect w) → size w ≤ size v) : s.Acyclic := by
  choose chain hle hsome hleast using hs.exists_chain
  refine acyclic_of_measure (fun v => size v * (s.size + 2) + chain v) ?_
  rintro ⟨v, e⟩ hmem w hw
  have hget : s.get? v = some e := Table.mem_toList_iff.1 hmem
  show size w * (s.size + 2) + chain w < size v * (s.size + 2) + chain v
  cases e with
  | bound u =>
    -- the size falls, which outweighs any length of chain
    have hmul : (size w + 1) * (s.size + 2) ≤ size v * (s.size + 2) :=
      Nat.mul_le_mul_right _ (hbound v u hget w hw)
    have := hle w
    rw [Nat.add_mul, Nat.one_mul] at hmul
    omega
  | redirect x =>
    obtain rfl : w = x := by simpa [Entry.toTy] using hw
    have hmul : size w * (s.size + 2) ≤ size v * (s.size + 2) :=
      Nat.mul_le_mul_right _ (hredirect v w hget)
    have hchain : chain w < chain v := by
      by_contra hge
      cases hn : chain v with
      | zero => exact hsome v (by rw [hn, findWithin])
      | succ n =>
        refine hsome v ?_
        rw [hn, findWithin, hget]
        exact hleast w n (by omega)
    omega

end Substitution

end CoContextual
