import CoContextual.Proofs.Discharge.Link
import CoContextual.Unify.Unifier

/-!
# Stores along a run

A store starts out empty and is extended by unifying and by discharging (`Substitution.Progresses`).
A unification that fails leaves it alone. Nothing keeps a variable from being bound to a type that
contains it, but aliases stay in order all the same: unification points an unbound representative to
another one, so that a chain of aliases never runs in a circle.

- `Linking.wellFormed`: discharging keeps a store well-formed, whatever becomes of the uses;
- `Substitution.Progresses.wellFormed`: so does every step of a run;
- `Substitution.Progresses.aliases_end`: what this says of the entries after any run.
-/

namespace CoContextual

/-- Linking keeps a store well-formed. A use that fails adds nothing to it. -/
theorem Linking.wellFormed {links : List Link} {s s' : Substitution} {ids ids' : IdSource}
    (h : Linking links s ids s' ids') (hs : s.WellFormed) : s'.WellFormed := by
  induction h with
  | done s ids => exact hs
  | fits hunify _ ih => exact ih ((Substitution.unify?_eq_some_iff.1 hunify).wellFormed hs rfl)
  | fails _ _ ih => exact ih hs

namespace Substitution

variable {s t : Substitution} {v w : NodeId}

/-- The store `s` becomes `t` by one call that returns: a unification, successful or not, or a
discharge of requirements. -/
inductive Progresses : Substitution → Substitution → Prop
  | unify {u u' : Unifier} {lhs rhs : Ty} {outcome : Except UnifyError Unit}
      (h : u.unify? lhs rhs = some (outcome, u')) : Progresses u.substitution u'.substitution
  | discharge {s : Substitution} {r : Requirements} {b : Bindings} {ids ids' : IdSource}
      {d : Discharge} (h : r.discharge? b s ids = some (d, ids')) : Progresses s d.substitution

/-- The entry of `v` makes it stand for `w`. -/
def Aliases (s : Substitution) (v w : NodeId) : Prop := s.get? v = some (.redirect w)

/-! ## Chains of aliases -/

/-- A lookup tells where the chain of aliases ends. -/
theorem exists_end_of_find? {look : Lookup} (h : s.find? v = some look) :
    ∃ w, Relation.ReflTransGen s.Aliases v w ∧
      (s.get? w = none ∧ look = .unbound w ∨
        ∃ u, s.get? w = some (.bound u) ∧ look = .bound u) := by
  refine find?_induction (s := s)
    (P := fun v look => ∃ w, Relation.ReflTransGen s.Aliases v w ∧
      (s.get? w = none ∧ look = .unbound w ∨
        ∃ u, s.get? w = some (.bound u) ∧ look = .bound u)) ?_ ?_ ?_ h
  · intro v hv
    exact ⟨v, .refl, .inl ⟨hv, rfl⟩⟩
  · intro v u hv
    exact ⟨v, .refl, .inr ⟨u, hv, rfl⟩⟩
  · rintro v w look hv - ⟨x, hchain, hend⟩
    exact ⟨x, .head hv hchain, hend⟩

/-- From a variable that stands for itself no lookup comes back. -/
theorem find?_of_self_alias (h : s.Aliases v v) : s.find? v = none := by
  have hnever : ∀ n, s.findWithin n v = none := by
    intro n
    induction n with
    | zero => rfl
    | succ n ih =>
      rw [findWithin, show s.get? v = _ from h]
      exact ih
  exact hnever _

theorem WellFormed.not_self_alias (hs : s.WellFormed) (v : NodeId) : ¬ s.Aliases v v := by
  intro hself
  obtain ⟨look, hlook⟩ := hs.rooted v
  rw [find?_of_self_alias hself] at hlook
  cases hlook

/-! ## Runs -/

/-- Every call keeps the store well-formed. -/
theorem Progresses.wellFormed (h : Progresses s t) (hs : s.WellFormed) : t.WellFormed := by
  cases h with
  | @unify u u' lhs rhs outcome h =>
    obtain ⟨attempt, hattempt, hcommit⟩ := Option.map_eq_some_iff.1 h
    have hobserve : (u.observe attempt.steps).substitution = u.substitution := by
      rw [Unifier.observe]
      split <;> rfl
    cases hresult : attempt.result with
    | ok s' =>
      rw [hresult] at hcommit
      cases hcommit
      exact (unify?_eq_some_iff.1 hattempt).wellFormed hs hresult
    | error e =>
      -- the attempt may have bound variables before it failed, but none of that is kept
      rw [hresult] at hcommit
      cases hcommit
      rwa [hobserve]
  | @discharge _ r b ids ids' d h =>
    obtain ⟨⟨s', failures, ids''⟩, hlink, hd⟩ := Option.bind_eq_some_iff.1 h
    cases hd
    obtain ⟨links, hlinks, -, -⟩ := exists_linking hlink
    exact hlinks.wellFormed hs

/-- After any sequence of unifications and discharges, following the aliases of a variable leads to
a variable without an entry or to a bound one, which is what a lookup answers; no variable stands
for itself, and none is bound to a variable. -/
theorem Progresses.aliases_end (h : Relation.ReflTransGen Progresses .empty s) :
    (∀ v, ∃ w, Relation.ReflTransGen s.Aliases v w ∧
      (s.get? w = none ∧ s.find? v = some (.unbound w) ∨
        ∃ u, s.get? w = some (.bound u) ∧ s.find? v = some (.bound u))) ∧
    (∀ v, ¬ s.Aliases v v) ∧ ∀ v w, s.get? v ≠ some (.bound (.flexible w)) := by
  have hs : s.WellFormed := by
    induction h with
    | refl => exact wellFormed_empty
    | tail _ hstep ih => exact hstep.wellFormed ih
  refine ⟨fun v => ?_, hs.not_self_alias, fun v w hv => hs.tidy v _ hv w rfl⟩
  obtain ⟨look, hlook⟩ := hs.rooted v
  obtain ⟨w, hchain, hend⟩ := exists_end_of_find? hlook
  refine ⟨w, hchain, ?_⟩
  rcases hend with ⟨hw, rfl⟩ | ⟨u, hw, rfl⟩
  · exact .inl ⟨hw, hlook⟩
  · exact .inr ⟨u, hw, hlook⟩

/-- A variable is bound to a type that contains it, a unification fails halfway, and discharging a
use of the identity adds an alias: the lookups of both variables end. -/
theorem Progresses.aliases_end_cyclic_store : ∃ s : Substitution,
    Relation.ReflTransGen Progresses .empty s ∧
    s.get? 0 = some (.bound (.arrow 10 (.flexible 1) (.flexible 0))) ∧ s.Aliases 4 20 ∧
    ∃ w, Relation.ReflTransGen s.Aliases 4 w ∧
      (s.get? w = none ∧ s.find? 4 = some (.unbound w) ∨
        ∃ u, s.get? w = some (.bound u) ∧ s.find? 4 = some (.bound u)) := by
  let start := Unifier.ofSubstitution .empty true
  obtain ⟨u, hcycle, hget⟩ : ∃ u,
      start.unify? (.flexible 0) (.arrow 10 (.flexible 1) (.flexible 0)) = some (.ok (), u) ∧
      u.substitution
        = Substitution.empty.assign 0 (.arrow 10 (.flexible 1) (.flexible 0)) := ⟨_, rfl, rfl⟩
  obtain ⟨u', e, hfail, hsame⟩ : ∃ u' e,
      u.unify? (.product 11 [.flexible 2, .primitive 12 .i32])
        (.product 13 [.flexible 3, .primitive 14 .string]) = some (.error e, u') ∧
      u'.substitution = u.substitution := by
    cases hcycle
    exact ⟨_, _, rfl, rfl⟩
  obtain ⟨d, ids, hdischarge, hbound, halias⟩ : ∃ d ids,
      (Requirements.empty.add (.name "f") (.flexible 4)).discharge?
        (.single (.name "f") (.scheme 15 [.flexible 16] (.flexible 16))) u'.substitution
        (.pinnedAt 20) = some (d, ids) ∧
      d.substitution.get? 0 = some (.bound (.arrow 10 (.flexible 1) (.flexible 0))) ∧
      d.substitution.Aliases 4 20 := by
    rw [hsame, hget]
    exact ⟨_, _, rfl, rfl, rfl⟩
  have hrun : Relation.ReflTransGen Progresses .empty d.substitution :=
    .tail (.tail (.single (.unify hcycle)) (.unify hfail)) (.discharge hdischarge)
  exact ⟨d.substitution, hrun, hbound, halias, (Progresses.aliases_end hrun).1 4⟩

end Substitution

end CoContextual
