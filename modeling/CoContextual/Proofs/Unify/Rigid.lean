import CoContextual.Proofs.Unify.Outlined

/-!
# Unifying with a rigid type

A type is rigid if it has no flexible variables. When such a type is unified with any other, only
variables of the other one are bound, each to a part of the rigid type. What a variable is bound to
then has no variable that could be bound itself, so that the search always ends
(`Substitution.exists_unify?_rigid`) and leaves an acyclic store
(`Substitution.acyclic_of_allEntries_rigid`).

If it succeeds, the other type resolves to the rigid type as it was, save for invalid parts
(`Substitution.unify?_rigid`). No rigid variable becomes another type, nor do two of them become
one.
-/

namespace CoContextual

namespace Ty

variable {t l r other : Ty} {v : NodeId}

/-- The type has no flexible variables. -/
def Rigid (t : Ty) : Prop := ∀ v, v ∉ t.mentions

theorem partClosed_rigid : PartClosed Rigid := partClosed_among fun _ => False

theorem Rigid.ne_flexible (h : t.Rigid) (v : NodeId) : t ≠ .flexible v := by
  rintro rfl
  exact h v (.head _)

/-- A variable that decides a pair with a rigid left side stands on the right. -/
theorem Rigid.of_faces (h : l.Rigid) (hface : Faces l r v other) : other = l := by
  cases hface with
  | left => exact absurd rfl (h.ne_flexible v)
  | right => rfl

/-- Replacing flexible variables leaves a rigid type as it is. -/
theorem Rigid.substitute (h : t.Rigid) (ht : t.schemeFree = true) (f : NodeId → Ty) :
    t.substitute f = t := substitute_self ht fun v hv => absurd hv (h v)

/-- The parts of a node are smaller than the node. -/
theorem Matches.sizeAll_lt {action : Action} {ls rs : List Ty} (h : Matches l r action ls rs) :
    sizeAll ls < l.size := by
  cases h with
  | arrow => simp [sizeAll]
  | product => simp

end Ty

namespace Substitution

variable {s s' : Substitution} {goals : List (Ty × Ty)} {l r : Ty} {steps : List Step}

theorem acyclic_of_allEntries_rigid (h : AllEntries Ty.Rigid s) : s.Acyclic := by
  intro v hv
  obtain ⟨w, ⟨e, he, hw⟩, -⟩ := Relation.TransGen.head'_iff.1 hv
  exact h v e he w hw

theorem wellFormed_of_allEntries_rigid (h : AllEntries Ty.Rigid s) : s.WellFormed where
  tidy v _ hv := (h v _ hv).ne_flexible
  rooted := (acyclic_of_allEntries_rigid h).exists_find?

/-- With rigid left sides the work always ends, and what was bound on the way is rigid. -/
theorem exists_course_of_rigid (hs : AllEntries Ty.Rigid s) (hgoals : ∀ g ∈ goals, g.1.Rigid) :
    ∃ a, Course s goals a ∧ ∀ s', a.result = .ok s' → AllEntries Ty.Rigid s' := by
  -- outer induction on the size of the left sides, inner one on the number of variables
  induction hn : Ty.sizeAll (goals.map Prod.fst) using Nat.strong_induction_on
    generalizing s goals with
  | _ n ihn =>
  induction hm : variableSides goals using Nat.strong_induction_on generalizing goals with
  | _ m ihm =>
  cases goals with
  | nil =>
    refine ⟨_, .done s, fun s' hs' => ?_⟩
    cases hs'
    exact hs
  | cons g goals =>
    obtain ⟨l, r⟩ := g
    obtain ⟨hl, htail⟩ := List.forall_mem_cons.1 hgoals
    simp only [List.map_cons, Ty.sizeAll] at hn
    have hpos := l.size_pos
    have hwell := wellFormed_of_allEntries_rigid hs
    by_cases heq : l.alike r = true
    · obtain ⟨a, hcourse, ha⟩ := ihn _ (by omega) hs htail rfl
      exact ⟨_, .identity heq hcourse, ha⟩
    have hne : l.alike r = false := by simpa using heq
    cases Ty.confrontation l r with
    | @faces _ _ other v hface =>
      obtain rfl := hl.of_faces hface
      obtain ⟨look, hv⟩ := hwell.rooted v
      cases look with
      | bound u =>
        -- the left side stays, and the variable on the right is gone
        have hsides := hwell.variableSides_expand hface hv goals
        have hnext : ∀ g ∈ (other, u) :: goals, g.1.Rigid := List.forall_mem_cons.2 ⟨hl, htail⟩
        obtain ⟨a, hcourse, ha⟩ := ihm _ (by omega) hnext hn rfl
        exact ⟨a, .expand hne hface hv hcourse, ha⟩
      | unbound w =>
        have ht := target?_of_ne_flexible (s := s) hl.ne_flexible
        obtain ⟨a, hcourse, ha⟩ := ihn _ (by omega) (hs.assign hl) htail rfl
        exact ⟨_, .bind hne hface hv ht hcourse, ha⟩
    | absorb habs =>
      obtain ⟨a, hcourse, ha⟩ := ihn _ (by omega) hs htail rfl
      exact ⟨_, .absorb hne habs hcourse, ha⟩
    | @parts _ _ action ls rs hparts =>
      have hlt := hparts.sizeAll_lt
      have hnext : ∀ g ∈ ls.zip rs ++ goals, g.1.Rigid := by
        refine List.forall_mem_append.2 ⟨fun g hg => ?_, htail⟩
        obtain ⟨rfl, -⟩ := hparts.eq_children
        exact Ty.partClosed_rigid l hl _ (List.of_mem_zip hg).1
      have hsize : Ty.sizeAll ((ls.zip rs ++ goals).map Prod.fst)
          = Ty.sizeAll ls + Ty.sizeAll (goals.map Prod.fst) := by
        rw [List.map_append, List.map_fst_zip (Nat.le_of_eq hparts.length_eq), Ty.sizeAll_append]
      obtain ⟨a, hcourse, ha⟩ := ihn _ (by omega) hs hnext rfl
      exact ⟨_, .decompose hne hparts hcourse, ha⟩
    | arity i j hlen =>
      refine ⟨_, .arity i j goals hlen, fun s' hs' => ?_⟩
      cases hs'
    | clash hclash =>
      have hacyclic := acyclic_of_allEntries_rigid hs
      refine ⟨_, .clash goals hne hclash (hacyclic.resolve?_eq l) (hacyclic.resolve?_eq r), ?_⟩
      intro s' hs'
      cases hs'

/-- Unifying a rigid type with any type has an answer. -/
theorem exists_unify?_rigid (hs : AllEntries Ty.Rigid s) (hl : l.Rigid) (r : Ty) :
    ∃ a, s.unify? l r = some a ∧ ∀ s', a.result = .ok s' → AllEntries Ty.Rigid s' := by
  have hgoals : ∀ g ∈ [(l, r)], g.1.Rigid := List.forall_mem_singleton.2 hl
  obtain ⟨a, hcourse, ha⟩ := exists_course_of_rigid hs hgoals
  exact ⟨a, unify?_eq_some_iff.2 hcourse, ha⟩

/-- A type that was unified with a rigid one resolves to it, save for invalid parts. -/
theorem unify?_rigid (hs : AllEntries Ty.Rigid s) (hl : l.Rigid) (hplain : l.plain = true)
    (h : s.unify? l r = some ⟨steps, .ok s'⟩) :
    s'.Acyclic ∧ ∃ t, s'.resolve? r = some t ∧ t.agrees l = true ∧
      (t.invalidFree = true → t.alike l = true) := by
  obtain ⟨a, ha, hrigid⟩ := exists_unify?_rigid hs hl r
  rw [h, Option.some.injEq] at ha
  subst ha
  have hs' : s'.Acyclic := acyclic_of_allEntries_rigid (hrigid s' rfl)
  obtain ⟨hscheme, hinvalid⟩ := Ty.plain_iff.1 hplain
  have hagrees : ((r.substitute s'.image).agrees l) = true := by
    have hpair := (unify?_eq_some_iff.1 h).agrees rfl hs'.satisfiedBy_image (l, r) (.head _)
    rwa [hl.substitute hscheme, Ty.agrees_comm] at hpair
  exact ⟨hs', _, hs'.resolve?_eq r, hagrees, fun ht => Ty.alike_of_agrees ht hinvalid hagrees⟩

end Substitution

end CoContextual
