import CoContextual.Proofs.Unify.Outlined

/-!
# Unification finds every solution

If some assignment satisfies a store and makes two types equal, unification ends with a store that
all such assignments satisfy, and that store is acyclic again. Types without schemes and invalid
parts that an assignment makes equal outline one type, so that the work ends by
`Substitution.Outlined.exists_course`.

- `Substitution.Course.satisfiedBy`: no solution is lost on the way;
- `Substitution.Solvable`: what is known of a store and goals with a solution;
- `Substitution.Solvable.exists_course`: with a solution at hand, the work ends in success.
-/

namespace CoContextual

namespace Ty

variable {A : NodeId → Ty} {l r : Ty}

/-! ## Types that a solution makes equal -/

/-- The parts of nodes that are made equal are made equal. -/
theorem Matches.erase_eq {action : Action} {ls rs : List Ty} (h : Matches l r action ls rs)
    (heq : (l.substitute A).erase = (r.substitute A).erase) :
    ∀ g ∈ ls.zip rs, (g.1.substitute A).erase = (g.2.substitute A).erase := by
  cases h with
  | arrow i j d c d' c' =>
    simp only [substitute_arrow, erase_arrow, arrow.injEq, true_and] at heq
    simpa using heq
  | product i j hlen =>
    simp only [substitute_product, erase_product, product.injEq, true_and, List.map_map] at heq
    -- the lengths no longer matter, and would get in the way of the induction
    clear hlen
    induction ls generalizing rs with
    | nil => simp
    | cons l ls ih =>
      cases rs with
      | nil => simp
      | cons r rs =>
        simp only [List.map_cons, List.cons.injEq] at heq
        exact List.forall_mem_cons.2 ⟨heq.1, ih heq.2⟩

/-- The two sides that a variable decides are made equal exactly if the variable and what it faces
are. -/
theorem Faces.erase_eq_iff {other : Ty} {v : NodeId} (h : Faces l r v other) :
    (l.substitute A).erase = (r.substitute A).erase ↔
      (other.substitute A).erase = (A v).erase := by
  cases h with
  | left =>
    rw [substitute_flexible]
    exact eq_comm
  | right => rw [substitute_flexible]

/-- What holds of every node of a type holds of every node of its parts. -/
theorem partClosed_everyNode (p : Ty → Bool) : PartClosed fun t => t.everyNode p = true := by
  intro t ht c hc
  cases t with
  | arrow id d e =>
    rw [everyNode, Bool.and_eq_true, Bool.and_eq_true] at ht
    rcases List.mem_pair.1 hc with rfl | rfl
    · exact ht.2.1
    · exact ht.2.2
  | product id cs =>
    rw [everyNode, Bool.and_eq_true] at ht
    exact everyNodeAll_iff.1 ht.2 c hc
  | _ => cases hc

theorem partClosed_plain : PartClosed fun t => t.plain = true := by
  intro t ht c hc
  rw [plain_iff] at ht ⊢
  exact ⟨partClosed_everyNode _ t ht.1 c hc, partClosed_everyNode _ t ht.2 c hc⟩

end Ty

namespace Substitution

variable {s s' : Substitution} {A : NodeId → Ty} {goals : List (Ty × Ty)} {a : Attempt}

/-- A solution of the store that makes a variable equal to what it faces satisfies the binding. -/
theorem SatisfiedBy.bind {l r other target : Ty} {v w : NodeId} (hs : s.SatisfiedBy A)
    (hface : Ty.Faces l r v other) (hpair : (l.substitute A).erase = (r.substitute A).erase)
    (hv : s.find? v = some (.unbound w)) (ht : s.target? other = some target) :
    (s.assign w target).SatisfiedBy A := by
  refine (satisfiedBy_assign (get?_eq_none_of_find? hv)).2 ⟨hs, ?_⟩
  have hw := hs.find? hv
  rw [Lookup.toTy, Ty.substitute_flexible] at hw
  rw [← hw, ← hface.erase_eq_iff.1 hpair, hs.target? ht]

/-- No solution is lost: what satisfies the store and makes the goals equal satisfies the store
that a course ends with. -/
theorem Course.satisfiedBy (h : Course s goals a) (hres : a.result = .ok s')
    (hs : s.SatisfiedBy A)
    (hgoals : ∀ g ∈ goals, (g.1.substitute A).erase = (g.2.substitute A).erase) :
    s'.SatisfiedBy A := by
  induction h with
  | done s =>
    cases hres
    exact hs
  | identity _ _ ih => exact ih hres hs (List.forall_mem_cons.1 hgoals).2
  | expand hne hface hv _ ih =>
    obtain ⟨hpair, hgoals⟩ := List.forall_mem_cons.1 hgoals
    refine ih hres hs (List.forall_mem_cons.2 ⟨?_, hgoals⟩)
    exact (hface.erase_eq_iff.1 hpair).trans (hs.find? hv)
  | bind hne hface hv ht _ ih =>
    obtain ⟨hpair, hgoals⟩ := List.forall_mem_cons.1 hgoals
    exact ih hres (hs.bind hface hpair hv ht) hgoals
  | absorb _ _ _ ih => exact ih hres hs (List.forall_mem_cons.1 hgoals).2
  | decompose hne hparts _ ih =>
    obtain ⟨hpair, hgoals⟩ := List.forall_mem_cons.1 hgoals
    exact ih hres hs (List.forall_mem_append.2 ⟨hparts.erase_eq hpair, hgoals⟩)
  | arity => cases hres
  | clash => cases hres

/-! ## Success -/

/-- The assignment `A` solves the store and the goals, and neither holds a scheme or an invalid
type. -/
structure Solvable (A : NodeId → Ty) (s : Substitution) (goals : List (Ty × Ty)) : Prop where
  /-- Lookups end. -/
  wellFormed : s.WellFormed
  /-- The entries are plain. -/
  plain : AllEntries (fun u => u.plain = true) s
  /-- The assignment satisfies the store. -/
  satisfied : s.SatisfiedBy A
  /-- The goals are plain. -/
  goalsPlain : ∀ g ∈ goals, g.1.plain = true ∧ g.2.plain = true
  /-- The assignment makes the two types of each goal equal. -/
  goalsEqual : ∀ g ∈ goals, (g.1.substitute A).erase = (g.2.substitute A).erase

theorem Solvable.empty (A : NodeId → Ty) : Solvable A .empty [] where
  wellFormed := wellFormed_empty
  plain := allEntries_empty _
  satisfied := satisfiedBy_empty A
  goalsPlain := by simp
  goalsEqual := by simp

/-- Plain sides that a solution makes equal outline one type. -/
theorem Solvable.outlined (h : Solvable A s goals) :
    Outlined A s goals (goals.map fun g => g.1.substitute A) where
  wellFormed := h.wellFormed
  entries := by
    intro v e he
    rw [Ty.outlines_iff_of_plain (h.plain v e he)]
    exact ((Ty.alike_iff_erase_eq _ _).1 (h.satisfied v e he)).symm
  goals := by
    rw [List.forall₂_map_right_iff, List.forall₂_same]
    intro g hg
    obtain ⟨hl, hr⟩ := h.goalsPlain g hg
    exact ⟨(Ty.outlines_iff_of_plain hl).2 rfl,
      (Ty.outlines_iff_of_plain hr).2 (h.goalsEqual g hg).symm⟩

/-- With a solution at hand, the work ends in success. -/
theorem Solvable.exists_course (h : Solvable A s goals) :
    ∃ steps s', Course s goals ⟨steps, .ok s'⟩ := by
  obtain ⟨steps, s', hcourse, -⟩ := h.outlined.exists_course
  exact ⟨steps, s', hcourse⟩

/-! ## What a successful course leaves -/

/-- A course with a solution leaves a store with that solution. -/
theorem Solvable.of_course (h : Solvable A s goals) (hcourse : Course s goals a)
    (hres : a.result = .ok s') : Solvable A s' [] where
  wellFormed := hcourse.wellFormed h.wellFormed hres
  plain := hcourse.allEntries Ty.partClosed_plain h.plain h.goalsPlain hres
  satisfied := hcourse.satisfiedBy hres h.satisfied h.goalsEqual
  goalsPlain := by simp
  goalsEqual := by simp

theorem Solvable.acyclic (h : Solvable A s goals) : s.Acyclic := h.outlined.acyclic

/-- Two types with a common solution are unified. -/
theorem Solvable.exists_unify? {l r : Ty} (h : Solvable A s [(l, r)]) :
    ∃ steps s', s.unify? l r = some ⟨steps, .ok s'⟩ ∧ Solvable A s' [] := by
  obtain ⟨steps, s', hcourse⟩ := h.exists_course
  exact ⟨steps, s', unify?_eq_some_iff.2 hcourse, h.of_course hcourse rfl⟩

/-- Unification is complete and most general: whenever some assignment satisfies the store and makes
the two types equal, it ends with an acyclic store that every such assignment satisfies. It fails
only where there is none. -/
theorem unify?_complete {l r : Ty} (hbuilt : Built s) (hacyclic : s.Acyclic)
    (hplain : ∀ v u, s.get? v = some (.bound u) → u.plain = true)
    (hl : l.plain = true) (hr : r.plain = true) :
    (∀ A, s.SatisfiedBy A → (l.substitute A).alike (r.substitute A) = true →
      ∃ steps s', s.unify? l r = some ⟨steps, .ok s'⟩ ∧ s'.Acyclic ∧
        ∀ B, s.SatisfiedBy B → (l.substitute B).alike (r.substitute B) = true →
          s'.SatisfiedBy B) ∧
      ∀ steps e, s.unify? l r = some ⟨steps, .error e⟩ →
        ∀ A, s.SatisfiedBy A → (l.substitute A).alike (r.substitute A) = false := by
  have hentries : AllEntries (fun u => u.plain = true) s := by
    intro v e he
    cases e with
    | bound u => exact hplain v u he
    | redirect w => rfl
  have hsolvable : ∀ A, s.SatisfiedBy A → (l.substitute A).alike (r.substitute A) = true →
      Solvable A s [(l, r)] := by
    intro A hA heq
    rw [Ty.alike_iff_erase_eq] at heq
    exact ⟨hbuilt.wellFormed hacyclic, hentries, hA, by simpa using ⟨hl, hr⟩, by simpa using heq⟩
  constructor
  · intro A hA heq
    obtain ⟨steps, s', hunify, hs'⟩ := (hsolvable A hA heq).exists_unify?
    refine ⟨steps, s', hunify, hs'.acyclic, fun B hB heqB => ?_⟩
    exact ((hsolvable B hB heqB).of_course (unify?_eq_some_iff.1 hunify) rfl).satisfied
  · intro steps e herror A hA
    by_contra hne
    obtain ⟨steps', s', hunify, -⟩ := (hsolvable A hA (by simpa using hne)).exists_unify?
    rw [herror] at hunify
    cases hunify

/-- A variable that is bound to an arrow meets another arrow, whose codomain is the first one's
domain. -/
theorem unify?_complete_shared_domain :
    (Substitution.empty.assign 1 (.arrow 5 (.flexible 2) (.flexible 3))).Acyclic ∧
      ∃ steps s',
        (Substitution.empty.assign 1 (.arrow 5 (.flexible 2) (.flexible 3))).unify? (.flexible 1)
          (.arrow 6 (.flexible 4) (.flexible 2)) = some ⟨steps, .ok s'⟩ ∧ s'.Acyclic := by
  have hacyclic : (Substitution.empty.assign 1 (.arrow 5 (.flexible 2) (.flexible 3))).Acyclic :=
    acyclic_of_measure (fun v => if v = 1 then 1 else 0) (by decide)
  have hplain : AllEntries (fun u => u.plain = true)
      (Substitution.empty.assign 1 (.arrow 5 (.flexible 2) (.flexible 3))) :=
    (allEntries_empty _).assign rfl
  let A : NodeId → Ty := fun v =>
    if v = 1 then .arrow 0 (.primitive 0 .i32) (.primitive 0 .i32) else .primitive 0 .i32
  have hA : (Substitution.empty.assign 1 (.arrow 5 (.flexible 2) (.flexible 3))).SatisfiedBy A :=
    (satisfiedBy_assign rfl).2 ⟨satisfiedBy_empty A, rfl⟩
  have hcomplete := unify?_complete (l := .flexible 1) (r := .arrow 6 (.flexible 4) (.flexible 2))
    (Built.empty.assign 1 _) hacyclic (fun v u he => hplain v _ he) rfl rfl
  obtain ⟨steps, s', hunify, hs', -⟩ := hcomplete.1 A hA rfl
  exact ⟨hacyclic, steps, s', hunify, hs'⟩

end Substitution

end CoContextual
