import CoContextual.Unify.Unifier
import CoContextual.Proofs.Unify.Soundness

/-!
# What a trace tells

The steps of a unification are written down before it is known how it ends. Still they tell how it
ended, and how many variables were bound: an attempt that fails has one step about the failure,
which is its last, and in one that succeeds every binding adds an entry unless it points a variable
to itself. As the text of a variable is that of no other type (`Ty.render_eq_flexible_iff`), such a
binding shows the same text on both sides.

- `Substitution.Tells`: what the steps of an attempt tell of the store that it starts from and of
  its result;
- `Substitution.Course.tells`: the steps of every course tell so;
- `Unifier.unify?_trace`: what a call adds to the trace.
-/

namespace CoContextual

/-! ## Texts of variables -/

namespace Ty

theorem toList_render_flexible (v : NodeId) :
    (flexible v).render.toList = 't' :: Nat.toDigits 10 v := by
  simp [render, TyVar.render]

/-- The text of a flexible variable is that of no other type. -/
theorem render_eq_flexible_iff {t : Ty} {v : NodeId} :
    t.render = (flexible v).render ↔ t = .flexible v := by
  refine ⟨fun h => ?_, fun h => by rw [h]⟩
  have hchars := congrArg String.toList h
  rw [toList_render_flexible] at hchars
  cases t with
  | var w =>
    cases w with
    | flexible w =>
      -- the digits of a number tell which one it is
      rw [toList_render_flexible, List.cons.injEq] at hchars
      have hid : w = v := calc
        w = Nat.ofDigitChars 10 (Nat.toDigits 10 w) 0 := Nat.ofDigitChars_ten_toDigits.symm
        _ = Nat.ofDigitChars 10 (Nat.toDigits 10 v) 0 := by rw [hchars.2]
        _ = v := Nat.ofDigitChars_ten_toDigits
      rw [hid]
    | rigid w => simp [render, TyVar.render] at hchars
  -- every other text has another first letter
  | primitive id kind => cases kind <;> simp [render, Primitive.name] at hchars
  | arrow id d c => simp [render] at hchars
  | product id cs => simp [render] at hchars
  | scheme id bound body => simp [render] at hchars
  | invalid id => simp [render] at hchars

end Ty

/-! ## Steps -/

namespace Action

/-- Whether the action is about a variable of which nothing is known. -/
def isAssignment : Action → Bool
  | bind => true
  | redirect => true
  | _ => false

end Action

namespace Step

/-- Whether the step assigns a variable something that shows another text. -/
def assigns (step : Step) : Bool :=
  step.action.isAssignment && decide (step.left.render ≠ step.right.render)

end Step

theorem Ty.Matches.action_cases {l r : Ty} {action : Action} {ls rs : List Ty}
    (h : Ty.Matches l r action ls rs) :
    action.isError = false ∧ action.isAssignment = false := by
  cases h <;> exact ⟨rfl, rfl⟩

namespace Substitution

variable {s s' : Substitution} {goals : List (Ty × Ty)} {a : Attempt} {steps : List Step}
  {result : Except UnifyError Substitution}

/-- Assigning to a variable without an entry adds one entry, unless the variable is pointed to
itself. -/
theorem size_assign {w : NodeId} (hw : s.get? w = none) {target : Ty}
    (hne : target ≠ .flexible w) : (s.assign w target).size = s.size + 1 := by
  have hnew : w ∉ s.domain := by
    intro hmem
    obtain ⟨e, he⟩ := exists_get?_of_mem_domain hmem
    rw [hw] at he
    cases he
  rw [← card_domain, domain_assign hw hne, Finset.card_insert_of_notMem hnew, card_domain]

/-- Binding a variable is one step, which tells whether an entry was added. -/
theorem bindTo_eq (s : Substitution) {w : NodeId} (hw : s.get? w = none) (target : Ty) :
    ∃ action, s.bindTo w target = .single action (.flexible w) target (.ok (s.assign w target)) ∧
      action.isError = false ∧ (s.assign w target).size
        = s.size + (Step.assigns ⟨action, .flexible w, target⟩).toNat := by
  obtain ⟨action, hbind, herror, hassignment⟩ : ∃ action,
      s.bindTo w target = .single action (.flexible w) target (.ok (s.assign w target)) ∧
        action.isError = false ∧ action.isAssignment = true := by
    unfold bindTo
    split <;> exact ⟨_, rfl, rfl, rfl⟩
  refine ⟨action, hbind, herror, ?_⟩
  rw [Step.assigns, hassignment, Bool.true_and]
  by_cases hself : target = .flexible w
  · rw [hself, assign_self]
    simp
  · have htexts : (Ty.flexible w).render ≠ target.render :=
      fun h => hself (Ty.render_eq_flexible_iff.1 h.symm)
    rw [size_assign hw hself, decide_eq_true htexts, Bool.toNat_true]

/-- What the steps of an attempt tell of its result. -/
def Tells (s : Substitution) (steps : List Step) : Except UnifyError Substitution → Prop
  | .ok s' => (∀ step ∈ steps, step.action.isError = false) ∧
      s'.size = s.size + steps.countP Step.assigns
  | .error _ => ∃ front last, steps = front ++ [last] ∧ last.action.isError = true ∧
      ∀ step ∈ front, step.action.isError = false

/-- One more step in front that is no error and, if it assigns, adds one entry. -/
theorem Tells.cons {step : Step} (h : s'.Tells steps result) (herror : step.action.isError = false)
    (hsize : s'.size = s.size + step.assigns.toNat) : s.Tells (step :: steps) result := by
  cases result with
  | ok t =>
    obtain ⟨hnone, hadded⟩ := h
    refine ⟨List.forall_mem_cons.2 ⟨herror, hnone⟩, ?_⟩
    rw [hadded, hsize, List.countP_cons]
    cases step.assigns
    · simp
    · simp only [Bool.toNat_true, if_true]
      omega
  | error e =>
    obtain ⟨front, last, rfl, hlast, hfront⟩ := h
    exact ⟨step :: front, last, rfl, hlast, List.forall_mem_cons.2 ⟨herror, hfront⟩⟩

theorem tells_single {step : Step} (h : step.action.isError = true) (e : UnifyError) :
    s.Tells [step] (.error e) := ⟨[], step, rfl, h, by simp⟩

/-- A step that leaves the store as it is. -/
theorem Tells.after {action : Action} {l r : Ty} (h : s.Tells a.steps a.result)
    (herror : action.isError = false) (hassignment : action.isAssignment = false) :
    s.Tells (a.after action l r).steps (a.after action l r).result :=
  h.cons herror (by rw [Step.assigns, hassignment]; rfl)

/-- The steps of a course tell how it ends and how many variables were bound. -/
theorem Course.tells (h : Course s goals a) : s.Tells a.steps a.result := by
  induction h with
  | done s => exact ⟨by simp, rfl⟩
  | identity _ _ ih => exact ih.after rfl rfl
  | expand _ _ _ _ ih => exact ih
  | bind _ _ hv _ _ ih =>
    obtain ⟨action, hbind, herror, hsize⟩ := bindTo_eq _ (get?_eq_none_of_find? hv) _
    rw [hbind]
    exact ih.cons herror hsize
  | absorb _ _ _ ih => exact ih.after rfl rfl
  | decompose _ hparts _ ih => exact ih.after hparts.action_cases.1 hparts.action_cases.2
  | arity => exact tells_single rfl _
  | clash => exact tells_single rfl _

/-- Work on any goal at all leaves a step. -/
theorem Course.steps_ne_nil (h : Course s goals a) (hgoals : goals ≠ []) : a.steps ≠ [] := by
  induction h with
  | done s => exact absurd rfl hgoals
  | expand _ _ _ _ ih => exact ih (List.cons_ne_nil _ _)
  | bind _ _ hv _ _ _ =>
    obtain ⟨action, hbind, -, -⟩ := bindTo_eq _ (get?_eq_none_of_find? hv) _
    rw [hbind]
    exact List.cons_ne_nil _ _
  | _ => exact List.cons_ne_nil _ _

end Substitution

/-! ## Numbered steps -/

theorem length_numberFrom (n : ℕ) (steps : List Step) :
    (numberFrom n steps).length = steps.length := by
  induction steps generalizing n with
  | nil => rfl
  | cons step steps ih => rw [numberFrom, List.length_cons, ih, List.length_cons]

/-- The numbers go on from the length of the trace. -/
theorem map_number_numberFrom (n : ℕ) (steps : List Step) :
    (numberFrom n steps).map NumberedStep.number = List.range' (n + 1) steps.length := by
  induction steps generalizing n with
  | nil => rfl
  | cons step steps ih => rw [numberFrom, List.map_cons, ih, List.length_cons, List.range'_succ]

theorem map_step_numberFrom (n : ℕ) (steps : List Step) :
    (numberFrom n steps).map NumberedStep.step = steps := by
  induction steps generalizing n with
  | nil => rfl
  | cons step steps ih => rw [numberFrom, List.map_cons, ih]

theorem forall_mem_numberFrom {P : Step → Prop} {n : ℕ} {steps : List Step}
    (h : ∀ step ∈ steps, P step) : ∀ x ∈ numberFrom n steps, P x.step := by
  rw [← map_step_numberFrom n steps] at h
  exact List.forall_mem_map.1 h

theorem countP_numberFrom (p : Step → Bool) (n : ℕ) (steps : List Step) :
    (numberFrom n steps).countP (fun x => p x.step) = steps.countP p := by
  conv_rhs => rw [← map_step_numberFrom n steps, List.countP_map]
  rfl

theorem numberFrom_append (n : ℕ) (front rest : List Step) :
    numberFrom n (front ++ rest) = numberFrom n front ++ numberFrom (n + front.length) rest := by
  induction front generalizing n with
  | nil => rfl
  | cons step front ih =>
    rw [List.cons_append, numberFrom, ih, numberFrom, List.cons_append, List.length_cons,
      Nat.add_right_comm n 1, Nat.add_assoc]

namespace Unifier

variable {u u' : Unifier} {l r : Ty} {outcome : Except UnifyError Unit}

/-- A call keeps the steps of the attempt, and its substitution if the attempt succeeds. -/
theorem exists_attempt (htracing : u.tracing = true) (h : u.unify? l r = some (outcome, u')) :
    ∃ a, u.substitution.unify? l r = some a ∧
      u'.trace = u.trace ++ numberFrom u.trace.length a.steps ∧
      ((∃ e, a.result = .error e ∧ outcome = .error e ∧ u'.substitution = u.substitution) ∨
        a.result = .ok u'.substitution ∧ outcome = .ok ()) := by
  obtain ⟨a, ha, hu'⟩ := Option.map_eq_some_iff.1 h
  refine ⟨a, ha, ?_⟩
  rw [observe, if_pos htracing] at hu'
  cases hres : a.result with
  | error e =>
    rw [hres, commit] at hu'
    cases hu'
    exact ⟨rfl, .inl ⟨e, rfl, rfl, rfl⟩⟩
  | ok s =>
    rw [hres, commit] at hu'
    cases hu'
    exact ⟨rfl, .inr ⟨rfl, rfl⟩⟩

/-- The trace of a unifier is faithful: every call that returns adds at least one step, and the
numbers go on from the length of the trace. If the call fails, the last step that is added tells of
the failure, and no other does. If it succeeds, no step tells of one; the entries of the
substitution are kept, and there are as many new ones as steps that assign a variable something
with another text. -/
theorem unify?_trace (htracing : u.tracing = true) (h : u.unify? l r = some (outcome, u')) :
    ∃ added, u'.trace = u.trace ++ added ∧ added ≠ [] ∧
      added.map NumberedStep.number = List.range' (u.trace.length + 1) added.length ∧
      (∀ e, outcome = .error e → ∃ front last, added = front ++ [last] ∧
        last.step.action.isError = true ∧ ∀ x ∈ front, x.step.action.isError = false) ∧
      (outcome = .ok () → (∀ x ∈ added, x.step.action.isError = false) ∧
        u'.substitution.Extends u.substitution ∧
        u'.substitution.size = u.substitution.size + added.countP fun x => x.step.assigns) := by
  obtain ⟨a, ha, htrace, hcases⟩ := exists_attempt htracing h
  have hcourse := Substitution.unify?_eq_some_iff.1 ha
  have htells := hcourse.tells
  refine ⟨_, htrace, fun hnil => ?_, ?_, fun e he => ?_, fun hok => ?_⟩
  · have hsteps := map_step_numberFrom u.trace.length a.steps
    rw [hnil] at hsteps
    exact hcourse.steps_ne_nil (List.cons_ne_nil _ _) hsteps.symm
  · rw [map_number_numberFrom, length_numberFrom]
  · rcases hcases with ⟨e', hres, -, -⟩ | ⟨-, hout⟩
    · rw [hres] at htells
      obtain ⟨front, last, hsteps, hlast, hfront⟩ := htells
      rw [hsteps, numberFrom_append]
      exact ⟨_, _, rfl, hlast, forall_mem_numberFrom hfront⟩
    · rw [hout] at he
      cases he
  · rcases hcases with ⟨e', -, hout, -⟩ | ⟨hres, -⟩
    · rw [hout] at hok
      cases hok
    · rw [hres] at htells
      obtain ⟨hnone, hsize⟩ := htells
      refine ⟨forall_mem_numberFrom hnone, hcourse.extends hres, ?_⟩
      rw [hsize, countP_numberFrom]

/-- An alias meets the variable that it stands for: the binding that is told of adds no entry. -/
theorem unify?_trace_alias_kept : ∃ (u u' : Unifier) (added : List NumberedStep),
    u.unify? (.product 5 [.flexible 1, .flexible 3, .primitive 6 .i32])
      (.product 7 [.flexible 2, .primitive 8 .i32, .primitive 9 .i32]) = some (.ok (), u') ∧
    u'.trace = u.trace ++ added ∧ added.map NumberedStep.number = [2, 3, 4, 5] ∧
    (added.map fun x => x.step.action) = [.decomposeProduct, .redirect, .bind, .identity] ∧
    u'.substitution.size = u.substitution.size + 1 := by
  let u : Unifier := ⟨Substitution.empty.assign 1 (.flexible 2), true,
    [⟨1, ⟨.redirect, .flexible 1, .flexible 2⟩⟩]⟩
  obtain ⟨u', hunify, hactions, hassigns⟩ : ∃ u',
      u.unify? (.product 5 [.flexible 1, .flexible 3, .primitive 6 .i32])
        (.product 7 [.flexible 2, .primitive 8 .i32, .primitive 9 .i32]) = some (.ok (), u') ∧
      (u'.trace.map fun x => x.step.action)
        = [.redirect, .decomposeProduct, .redirect, .bind, .identity] ∧
      (u'.trace.countP fun x => x.step.assigns) = 2 := ⟨_, rfl, rfl, by decide⟩
  obtain ⟨added, htrace, -, hnumbers, -, hok⟩ := unify?_trace rfl hunify
  obtain ⟨-, -, hsize⟩ := hok rfl
  rw [htrace, List.map_append] at hactions
  obtain ⟨-, hactions⟩ := List.cons.inj hactions
  have hlength : added.length = 4 := by simpa using congrArg List.length hactions
  -- the step that the trace had before is counted too
  rw [htrace, List.countP_append] at hassigns
  have hone : (added.countP fun x => x.step.assigns) = 1 := Nat.add_left_cancel (n := 1) hassigns
  rw [hlength] at hnumbers
  rw [hone] at hsize
  exact ⟨u, u', added, hunify, htrace, hnumbers, hactions, hsize⟩

end Unifier

end CoContextual
