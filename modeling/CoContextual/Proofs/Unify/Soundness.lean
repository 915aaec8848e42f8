import CoContextual.Proofs.Unify.Depth
import CoContextual.Proofs.Unify.Solution

/-!
# Unification makes types equal

A successful unification keeps every entry of the store it starts from. In every solution of the
new store the two types are equal, except where one of them is invalid. Later unifications only
add entries, so that their solutions are solutions of the earlier store, and what was made equal
stays equal.
-/

namespace CoContextual

namespace Substitution

variable {s s' : Substitution} {A : NodeId → Ty} {goals : List (Ty × Ty)} {a : Attempt}

/-- A course that succeeds keeps every entry. -/
theorem Course.extends (h : Course s goals a) (hres : a.result = .ok s') : s'.Extends s :=
  h.preserves (P := fun t => t.Extends s)
    (fun _ _ _ _ target ht hv _ => (extends_assign (get?_eq_none_of_find? hv) target).trans ht)
    (.refl s) hres

end Substitution

namespace Ty

/-- Nodes agree when their parts do. -/
theorem Matches.agrees {l r : Ty} {action : Action} {ls rs : List Ty} {A : NodeId → Ty}
    (h : Matches l r action ls rs)
    (hparts : ∀ g ∈ ls.zip rs, (g.1.substitute A).agrees (g.2.substitute A) = true) :
    (l.substitute A).agrees (r.substitute A) = true := by
  cases h with
  | arrow i j d c d' c' =>
    rw [substitute_arrow, substitute_arrow, agrees_arrow, Bool.and_eq_true]
    exact ⟨hparts (d, d') (by simp), hparts (c, c') (by simp)⟩
  | product i j hlen =>
    rw [substitute_product, substitute_product, agrees_product]
    refine agreesAll_of_zip (by simpa using hlen) fun p hp => ?_
    rw [List.zip_map, List.mem_map] at hp
    obtain ⟨g, hg, rfl⟩ := hp
    exact hparts g hg

/-- An invalid side agrees with anything. -/
theorem agrees_of_absorbs {l r : Ty} {A : NodeId → Ty} (h : l.absorbs r = true) :
    (l.substitute A).agrees (r.substitute A) = true := by
  rcases l with _ | _ | _ | ⟨_ | _⟩ | _ | _ <;> rcases r with _ | _ | _ | ⟨_ | _⟩ | _ | _ <;>
    simp [absorbs] at h ⊢

/-- Two sides agree when the variable that decides them agrees with what it faces. -/
theorem Faces.agrees {l r other : Ty} {v : NodeId} {A : NodeId → Ty} (h : Faces l r v other)
    (hv : (other.substitute A).agrees (A v) = true) :
    (l.substitute A).agrees (r.substitute A) = true := by
  cases h with
  | left =>
    rw [substitute_flexible, agrees_comm]
    exact hv
  | right =>
    rw [substitute_flexible]
    exact hv

end Ty

namespace Substitution

variable {s s' : Substitution} {A : NodeId → Ty} {goals : List (Ty × Ty)} {a : Attempt}

/-- In every solution of the store that a course ends with, the two types of each goal agree. -/
theorem Course.agrees (h : Course s goals a) (hres : a.result = .ok s') (hA : s'.SatisfiedBy A) :
    ∀ g ∈ goals, (g.1.substitute A).agrees (g.2.substitute A) = true := by
  induction h with
  | done s => simp
  | identity heq _ ih =>
    refine List.forall_mem_cons.2 ⟨?_, ih hres⟩
    exact Ty.agrees_of_alike (Ty.alike_substitute heq)
  | @expand s l r other u v goals a hne hface hv rest ih =>
    -- the variable has the type it is bound to, in this store and in every later one
    obtain ⟨hpair, hgoals⟩ := List.forall_mem_cons.1 (ih hres)
    have hs : s.SatisfiedBy A := hA.of_extends (rest.extends hres)
    refine List.forall_mem_cons.2 ⟨hface.agrees ?_, hgoals⟩
    rw [← hpair]
    exact Ty.agrees_congr rfl (hs.find? hv)
  | @bind s l r other target v w goals a hne hface hv ht rest ih =>
    have hrest : a.result = .ok s' := hres
    have hassign := hA.of_extends (rest.extends hrest)
    obtain ⟨hs, hw⟩ := (satisfiedBy_assign (get?_eq_none_of_find? hv)).1 hassign
    refine List.forall_mem_cons.2 ⟨hface.agrees ?_, ih hrest⟩
    have heq : (other.substitute A).erase = (A v).erase := by
      rw [hs.find? hv, Lookup.toTy, Ty.substitute_flexible, hw]
      exact hs.target? ht
    exact Ty.agrees_of_alike ((Ty.alike_iff_erase_eq _ _).2 heq)
  | absorb hne habs _ ih => exact List.forall_mem_cons.2 ⟨Ty.agrees_of_absorbs habs, ih hres⟩
  | decompose hne hparts _ ih =>
    have hall := List.forall_mem_append.1 (ih hres)
    exact List.forall_mem_cons.2 ⟨hparts.agrees hall.1, hall.2⟩
  | arity => cases hres
  | clash => cases hres

/-! ## Runs of unifications -/

/-- Some unification leads from one store to the other. -/
def Unifies (s s' : Substitution) : Prop := ∃ l r steps, s.unify? l r = some ⟨steps, .ok s'⟩

theorem Unifies.extends (h : s.Unifies s') : s'.Extends s := by
  obtain ⟨l, r, steps, h⟩ := h
  exact (unify?_eq_some_iff.1 h).extends rfl

/-- Unifications in a row keep every entry. -/
theorem extends_of_reflTransGen (h : Relation.ReflTransGen Unifies s s') : s'.Extends s := by
  induction h with
  | refl => exact .refl s
  | tail _ hstep ih => exact hstep.extends.trans ih

/-- Unification is sound and stays sound: the entries are kept, and on every acyclic store that
further unifications lead to, the two types resolve to types that agree; they are alike if neither
has an invalid part. -/
theorem unify?_sound {l r : Ty} {steps : List Step} (h : s.unify? l r = some ⟨steps, .ok s'⟩) :
    (∀ v e, s.get? v = some e → s'.get? v = some e) ∧
      ∀ s'', Relation.ReflTransGen Unifies s' s'' → s''.Acyclic →
        ∃ l' r', s''.resolve? l = some l' ∧ s''.resolve? r = some r' ∧
          l'.agrees r' = true ∧
          (l'.invalidFree = true → r'.invalidFree = true → l'.alike r' = true) := by
  have hcourse := unify?_eq_some_iff.1 h
  refine ⟨hcourse.extends rfl, fun s'' hlater hacyclic => ?_⟩
  -- resolving through the later store solves that store, and so all earlier ones
  have hA : s'.SatisfiedBy s''.image :=
    hacyclic.satisfiedBy_image.of_extends (extends_of_reflTransGen hlater)
  have hagrees := hcourse.agrees rfl hA (l, r) (by simp)
  refine ⟨_, _, hacyclic.resolve?_eq l, hacyclic.resolve?_eq r, hagrees, fun hl hr => ?_⟩
  exact Ty.alike_of_agrees hl hr hagrees

/-- An alias made below an invalid codomain still holds when the variable it points to is bound by a
later unification. -/
theorem unify?_sound_alias_bound_later :
    Relation.ReflTransGen Unifies (Substitution.empty.assign 1 (.flexible 2))
        ((Substitution.empty.assign 1 (.flexible 2)).assign 2 (.primitive 7 .i32)) ∧
      ∃ l' r',
        ((Substitution.empty.assign 1 (.flexible 2)).assign 2 (.primitive 7 .i32)).resolve?
            (.arrow 3 (.flexible 1) (.invalid 4)) = some l' ∧
          ((Substitution.empty.assign 1 (.flexible 2)).assign 2 (.primitive 7 .i32)).resolve?
            (.arrow 5 (.flexible 2) (.primitive 6 .string)) = some r' ∧
          l'.agrees r' = true ∧
          (l'.invalidFree = true → r'.invalidFree = true → l'.alike r' = true) := by
  have hlater : Relation.ReflTransGen Unifies (Substitution.empty.assign 1 (.flexible 2))
      ((Substitution.empty.assign 1 (.flexible 2)).assign 2 (.primitive 7 .i32)) :=
    .single ⟨.flexible 1, .primitive 7 .i32, _, rfl⟩
  obtain ⟨steps, hfirst⟩ : ∃ steps, Substitution.empty.unify? (.arrow 3 (.flexible 1) (.invalid 4))
      (.arrow 5 (.flexible 2) (.primitive 6 .string))
      = some ⟨steps, .ok (Substitution.empty.assign 1 (.flexible 2))⟩ := ⟨_, rfl⟩
  refine ⟨hlater, (unify?_sound hfirst).2 _ hlater ?_⟩
  exact acyclic_of_measure (fun v => 3 - v) (by decide)

end Substitution

end CoContextual
