import CoContextual.Proofs.Unify.Completeness

/-!
# Unifying what is equal already

Two types that resolve to the same type need not look the same: one may have a variable where the
other has the type that the variable is bound to, or another variable of the same representative.
Unification expands the variables until it comes to parts that are alike or to two variables of one
representative. It points that one to itself, which changes nothing (`Substitution.assign_self`).

- `Substitution.Resolves`: what is known of a store and of goals whose sides resolve to the same
  types;
- `Substitution.Resolves.store_eq`: on the way nothing is bound;
- `Substitution.Resolves.exists_course`: the work ends in success.
-/

namespace CoContextual

namespace Ty

/-- Without schemes, only a variable can become a variable. -/
theorem erase_substitute_ne_flexible {f : NodeId → Ty} {t : Ty} (ht : t.schemeFree = true)
    (hvar : ∀ v, t ≠ .flexible v) (w : NodeId) : (t.substitute f).erase ≠ .flexible w := by
  rcases t with _ | _ | _ | ⟨v | _⟩ | _ | _
  case var.flexible => exact absurd rfl (hvar v)
  case scheme => cases ht
  all_goals simp

end Ty

namespace Substitution

variable {s s' : Substitution} {goals : List (Ty × Ty)} {a : Attempt}

/-- The store is acyclic and without schemes, and the two sides of each goal resolve to the same
type. -/
structure Resolves (s : Substitution) (goals : List (Ty × Ty)) : Prop where
  /-- Aliases are never bindings. -/
  tidy : s.Tidy
  /-- Every type resolves. -/
  acyclic : s.Acyclic
  /-- The entries hold no scheme. -/
  entries : AllEntries (fun u => u.schemeFree = true) s
  /-- The goals hold no scheme. -/
  goalsSchemeFree : ∀ g ∈ goals, g.1.schemeFree = true ∧ g.2.schemeFree = true
  /-- The two types of each goal resolve to the same type. -/
  goalsEqual : ∀ g ∈ goals, (g.1.substitute s.image).erase = (g.2.substitute s.image).erase

namespace Resolves

variable {l r other target : Ty} {v w : NodeId}

theorem tail (h : Resolves s ((l, r) :: goals)) : Resolves s goals :=
  { h with
    goalsSchemeFree := (List.forall_mem_cons.1 h.goalsSchemeFree).2
    goalsEqual := (List.forall_mem_cons.1 h.goalsEqual).2 }

/-- What is bound to a variable resolves like the variable. -/
theorem expand {u : Ty} (h : Resolves s ((l, r) :: goals)) (hface : Ty.Faces l r v other)
    (hv : s.find? v = some (.bound u)) : Resolves s ((other, u) :: goals) := by
  obtain ⟨⟨hl, hr⟩, hgoals⟩ := List.forall_mem_cons.1 h.goalsSchemeFree
  obtain ⟨hpair, hequal⟩ := List.forall_mem_cons.1 h.goalsEqual
  obtain ⟨-, hother⟩ := hface.both (P := fun t => t.schemeFree = true) hl hr
  obtain ⟨x, hx⟩ := exists_get?_of_find? hv
  rw [hface.erase_eq_iff, h.acyclic.image_of_bound hv] at hpair
  exact { h with
    goalsSchemeFree := List.forall_mem_cons.2 ⟨⟨hother, h.entries x _ hx⟩, hgoals⟩
    goalsEqual := List.forall_mem_cons.2 ⟨hpair, hequal⟩ }

theorem decompose {action : Action} {ls rs : List Ty} (h : Resolves s ((l, r) :: goals))
    (hparts : Ty.Matches l r action ls rs) : Resolves s (ls.zip rs ++ goals) := by
  obtain ⟨⟨hl, hr⟩, hgoals⟩ := List.forall_mem_cons.1 h.goalsSchemeFree
  obtain ⟨hpair, hequal⟩ := List.forall_mem_cons.1 h.goalsEqual
  exact { h with
    goalsSchemeFree := List.forall_mem_append.2
      ⟨hparts.of_partClosed (Ty.partClosed_everyNode _) hl hr, hgoals⟩
    goalsEqual := List.forall_mem_append.2 ⟨hparts.erase_eq hpair, hequal⟩ }

/-- A variable without a type meets a variable of the same representative only. -/
theorem target_eq (h : Resolves s ((l, r) :: goals)) (hface : Ty.Faces l r v other)
    (hv : s.find? v = some (.unbound w)) (ht : s.target? other = some target) :
    target = .flexible w := by
  obtain ⟨hl, hr⟩ := h.goalsSchemeFree (l, r) (.head _)
  obtain ⟨-, hother⟩ := hface.both (P := fun t => t.schemeFree = true) hl hr
  have hpair := hface.erase_eq_iff.1 (h.goalsEqual (l, r) (.head _))
  rw [h.acyclic.image_of_unbound hv, Ty.erase_var] at hpair
  rcases target?_eq_some ht with ⟨x, look, rfl, hlook, rfl⟩ | ⟨hne, rfl⟩
  · rw [Ty.substitute_flexible] at hpair
    cases look with
    | unbound y => rwa [h.acyclic.image_of_unbound hlook] at hpair
    | bound u =>
      -- a type that is bound is no variable, and does not become one
      obtain ⟨z, hz⟩ := exists_get?_of_find? hlook
      rw [h.acyclic.image_of_bound hlook] at hpair
      exact absurd hpair (Ty.erase_substitute_ne_flexible (h.entries z _ hz) (h.tidy z u hz) w)
  · exact absurd hpair (Ty.erase_substitute_ne_flexible hother hne w)

/-- On the way nothing is bound. -/
theorem store_eq (h : Resolves s goals) (hcourse : Course s goals a) (hres : a.result = .ok s') :
    s' = s := by
  induction hcourse with
  | done s =>
    cases hres
    rfl
  | identity _ _ ih => exact ih h.tail hres
  | expand _ hface hv _ ih => exact ih (h.expand hface hv) hres
  | bind _ hface hv ht _ ih =>
    obtain rfl := h.target_eq hface hv ht
    rw [assign_self] at ih
    exact ih h.tail hres
  | absorb _ _ _ ih => exact ih h.tail hres
  | decompose _ hparts _ ih => exact ih (h.decompose hparts) hres
  | arity => cases hres
  | clash => cases hres

/-- Both sides of a goal outline the type that they resolve to. -/
theorem outlined (h : Resolves s goals) :
    Outlined s.image s goals (goals.map fun g => g.1.substitute s.image) where
  wellFormed := ⟨h.tidy, h.acyclic.exists_find?⟩
  entries := by
    intro v e he
    rw [h.acyclic.image_eq he]
    exact Ty.outlines_of_masks (h.entries v e he) (Ty.masks_refl (h.entries v e he))
  goals := by
    rw [List.forall₂_map_right_iff, List.forall₂_same]
    intro g hg
    obtain ⟨hl, hr⟩ := h.goalsSchemeFree g hg
    exact ⟨Ty.outlines_of_masks hl (Ty.masks_refl hl),
      Ty.outlines_congr (h.goalsEqual g hg).symm (Ty.outlines_of_masks hr (Ty.masks_refl hr))⟩

/-- The work ends with the store it started from. -/
theorem exists_course (h : Resolves s goals) : ∃ steps, Course s goals ⟨steps, .ok s⟩ := by
  obtain ⟨steps, s', hcourse, -⟩ := h.outlined.exists_course
  obtain rfl := h.store_eq hcourse rfl
  exact ⟨steps, hcourse⟩

end Resolves

/-- Unifying what is equal already changes nothing: where two types without schemes resolve to types
that are alike, unification ends in success with the store it started from. -/
theorem unify?_equal {t u t' u' : Ty} (hbuilt : Built s) (hacyclic : s.Acyclic)
    (hscheme : ∀ v w, s.get? v = some (.bound w) → w.schemeFree = true)
    (ht : t.schemeFree = true) (hu : u.schemeFree = true)
    (htr : s.resolve? t = some t') (hur : s.resolve? u = some u') (h : t'.alike u' = true) :
    ∃ steps, s.unify? t u = some ⟨steps, .ok s⟩ := by
  rw [hacyclic.resolve?_eq, Option.some.injEq] at htr hur
  rw [← htr, ← hur, Ty.alike_iff_erase_eq] at h
  have hentries : AllEntries (fun u => u.schemeFree = true) s := by
    intro v e he
    cases e with
    | bound w => exact hscheme v w he
    | redirect w => rfl
  have hresolves : Resolves s [(t, u)] :=
    ⟨hbuilt.tidy, hacyclic, hentries, by simpa using ⟨ht, hu⟩, by simpa using h⟩
  obtain ⟨steps, hcourse⟩ := hresolves.exists_course
  exact ⟨steps, unify?_eq_some_iff.2 hcourse⟩

/-- On one side stands a variable that is bound to an arrow with an invalid part, on the other such
an arrow; the one's variable is an alias of the other's. -/
theorem unify?_equal_through_alias : ∃ (s : Substitution) (t u : Ty) (steps : List Step),
    t = .arrow 7 (.flexible 3) (.flexible 1) ∧
    u = .arrow 8 (.arrow 9 (.flexible 2) (.invalid 10)) (.flexible 2) ∧
    t.alike u = false ∧ s.size = 2 ∧ s.unify? t u = some ⟨steps, .ok s⟩ := by
  let s := (Substitution.empty.assign 1 (.flexible 2)).assign 3
    (.arrow 5 (.flexible 1) (.invalid 6))
  have hacyclic : s.Acyclic := acyclic_of_measure (fun v => if v = 2 then 0 else v) (by decide)
  have hempty := allEntries_empty fun u => u.schemeFree = true
  have hentries : AllEntries (fun u => u.schemeFree = true) s := (hempty.assign rfl).assign rfl
  obtain ⟨steps, hunify⟩ := unify?_equal ((Built.empty.assign 1 _).assign 3 _) hacyclic
    (fun v w hw => hentries v _ hw) (t := .arrow 7 (.flexible 3) (.flexible 1))
    (u := .arrow 8 (.arrow 9 (.flexible 2) (.invalid 10)) (.flexible 2)) rfl rfl rfl rfl rfl
  exact ⟨s, _, _, steps, rfl, rfl, rfl, rfl, hunify⟩

end Substitution

end CoContextual
