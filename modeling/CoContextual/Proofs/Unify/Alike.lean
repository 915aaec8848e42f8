import CoContextual.Proofs.Substitution.Alike
import CoContextual.Proofs.Unify.Depth

/-!
# Unification does not look at identities

Two unifications of types that are alike, on stores that are alike, go side by side: in each step
the types that meet are alike, so that they call for the same kind of step, and what is bound is
alike too. So both end, and in the same way, or neither does.

- `UnifyError.Alike`, `Attempt.Alike`: failures and attempts that are the same but for identities;
- `Substitution.Course.exists_alike`: side by side, step by step;
- `Substitution.unify?_alike`: the attempts are alike, or there is none on either side.
-/

namespace CoContextual

/-! ## Types that meet -/

namespace Ty

variable {l l' r r' : Ty}

theorem Faces.exists_alike {other : Ty} {v : NodeId} (h : Faces l r v other)
    (hl : l.erase = l'.erase) (hr : r.erase = r'.erase) :
    ∃ other', Faces l' r' v other' ∧ other.erase = other'.erase := by
  cases h with
  | left =>
    rw [erase_var, eq_comm, erase_eq_var_iff] at hl
    subst hl
    exact ⟨r', .left v r', hr⟩
  | right _ hvar =>
    rw [erase_var, eq_comm, erase_eq_var_iff] at hr
    subst hr
    refine ⟨l', .right v fun w hw => hvar w ?_, hl⟩
    rw [← erase_eq_var_iff, hl, hw, erase_var]

theorem absorbs_erase (l r : Ty) : l.erase.absorbs r.erase = l.absorbs r := by
  rcases l with _ | _ | _ | ⟨_ | _⟩ | _ | _ <;> rcases r with _ | _ | _ | ⟨_ | _⟩ | _ | _ <;> rfl

theorem clashes_erase (l r : Ty) : l.erase.clashes r.erase = l.clashes r := by
  rcases l with _ | _ | _ | ⟨_ | _⟩ | _ | _ <;> rcases r with _ | _ | _ | ⟨_ | _⟩ | _ | _ <;> rfl

/-- What is alike to a product is a product of as many components. -/
theorem exists_product_alike {i : NodeId} {cs : List Ty} {t : Ty}
    (h : (product i cs).erase = t.erase) :
    ∃ j cs', t = .product j cs' ∧ cs.map erase = cs'.map erase ∧ cs.length = cs'.length := by
  cases t <;> simp at h
  exact ⟨_, _, rfl, h, by simpa using congrArg List.length h⟩

/-- Nodes that are alike are taken apart in the same way, into parts that are alike. -/
theorem Matches.exists_alike {action : Action} {ls rs : List Ty} (h : Matches l r action ls rs)
    (hl : l.erase = l'.erase) (hr : r.erase = r'.erase) :
    ∃ ls' rs', Matches l' r' action ls' rs' ∧ ls.map erase = ls'.map erase ∧
      rs.map erase = rs'.map erase := by
  cases h with
  | arrow i j d c d' c' =>
    cases l' <;> simp at hl
    cases r' <;> simp at hr
    exact ⟨_, _, .arrow .., by simp [hl], by simp [hr]⟩
  | product i j hlen =>
    obtain ⟨i', ls', rfl, hls, hlenl⟩ := exists_product_alike hl
    obtain ⟨j', rs', rfl, hrs, hlenr⟩ := exists_product_alike hr
    exact ⟨ls', rs', .product i' j' (by omega), hls, hrs⟩

end Ty

/-! ## Attempts -/

/-- The failures are the same but for identities. -/
inductive UnifyError.Alike : UnifyError → UnifyError → Prop
  | mismatch {expected expected' found found' : Ty} (hexpected : expected.alike expected' = true)
      (hfound : found.alike found' = true) :
      Alike (.mismatch expected found) (.mismatch expected' found')
  | arity (expected found : ℕ) : Alike (.arity expected found) (.arity expected found)

/-- The steps are the same but for identities. -/
structure Step.Alike (x y : Step) : Prop where
  /-- What is done. -/
  action : x.action = y.action
  /-- The left types. -/
  left : x.left.alike y.left = true
  /-- The right types. -/
  right : x.right.alike y.right = true

/-- Both attempts succeed, or both fail, and what comes of them is the same but for identities. -/
inductive Attempt.SameResult :
    Except UnifyError Substitution → Except UnifyError Substitution → Prop
  | ok {s s' : Substitution} (h : s.alike s' = true) : SameResult (.ok s) (.ok s')
  | error {e e' : UnifyError} (h : e.Alike e') : SameResult (.error e) (.error e')

/-- The attempts take the same steps and end with the same result, but for identities. -/
structure Attempt.Alike (a b : Attempt) : Prop where
  /-- What is done on the way. -/
  steps : List.Forall₂ Step.Alike a.steps b.steps
  /-- What comes of it. -/
  result : SameResult a.result b.result

namespace Attempt.Alike

variable {a b : Attempt} {l l' r r' : Ty}

theorem after (h : a.Alike b) (action : Action) (hl : l.erase = l'.erase)
    (hr : r.erase = r'.erase) : (a.after action l r).Alike (b.after action l' r') where
  steps := .cons ⟨rfl, (Ty.alike_iff_erase_eq _ _).2 hl, (Ty.alike_iff_erase_eq _ _).2 hr⟩ h.steps
  result := h.result

theorem single (action : Action) (hl : l.erase = l'.erase) (hr : r.erase = r'.erase)
    {e e' : UnifyError} (he : e.Alike e') :
    (Attempt.single action l r (.error e)).Alike (.single action l' r' (.error e')) where
  steps := .cons ⟨rfl, (Ty.alike_iff_erase_eq _ _).2 hl, (Ty.alike_iff_erase_eq _ _).2 hr⟩ .nil
  result := .error he

end Attempt.Alike

namespace Substitution

variable {s s' : Substitution} {goals goals' : List (Ty × Ty)} {a : Attempt}

/-! ## Side by side -/

theorem exists_target?_alike (h : s.erase = s'.erase) {other other' target : Ty}
    (hother : other.erase = other'.erase) (ht : s.target? other = some target) :
    ∃ target', s'.target? other' = some target' ∧ target.erase = target'.erase := by
  rcases target?_eq_some ht with ⟨w, look, rfl, hlook, rfl⟩ | ⟨hne, rfl⟩
  · rw [Ty.erase_var, eq_comm, Ty.erase_eq_var_iff] at hother
    subst hother
    cases look with
    | unbound x => exact ⟨_, by rw [target?, find?_unbound_alike h hlook]; rfl, rfl⟩
    | bound u =>
      obtain ⟨u', hlook', hu⟩ := exists_find?_bound_alike h hlook
      exact ⟨u', by rw [target?, hlook']; rfl, hu⟩
  · refine ⟨other', target?_of_ne_flexible fun w hw => hne w ?_, hother⟩
    rw [← Ty.erase_eq_var_iff, hother, hw, Ty.erase_var]

theorem bindTo_of_ne_flexible {target : Ty} (h : ∀ x, target ≠ .flexible x) (w : NodeId) :
    s.bindTo w target = .single .bind (.flexible w) target (.ok (s.assign w target)) := by
  unfold bindTo
  split
  · rename_i x
    exact absurd rfl (h x)
  · rfl

/-- Binding a variable to types that are alike is the same step. -/
theorem bindTo_followedBy_alike {target target' : Ty} {b : Attempt}
    (htarget : target.erase = target'.erase) (h : a.Alike b) (w : NodeId) :
    ((s.bindTo w target).followedBy a).Alike ((s'.bindTo w target').followedBy b) := by
  -- a variable is bound to the same variable on both sides, or to a variable on neither
  by_cases hvar : ∃ x, target = .flexible x
  · obtain ⟨x, rfl⟩ := hvar
    rw [Ty.erase_var, eq_comm, Ty.erase_eq_var_iff] at htarget
    subst htarget
    exact h.after .redirect rfl rfl
  · have hne : ∀ x, target ≠ .flexible x := fun x hx => hvar ⟨x, hx⟩
    have hne' : ∀ x, target' ≠ .flexible x := fun x hx => hne x <| by
      rw [← Ty.erase_eq_var_iff, htarget, hx, Ty.erase_var]
    rw [bindTo_of_ne_flexible hne, bindTo_of_ne_flexible hne']
    exact h.after .bind rfl htarget

/-- The goals with the identities of all types erased. -/
def eraseGoals (goals : List (Ty × Ty)) : List (Ty × Ty) := goals.map (Prod.map Ty.erase Ty.erase)

theorem eraseGoals_zip_append {ls ls' rs rs' : List Ty} (hls : ls.map Ty.erase = ls'.map Ty.erase)
    (hrs : rs.map Ty.erase = rs'.map Ty.erase) (h : eraseGoals goals = eraseGoals goals') :
    eraseGoals (ls.zip rs ++ goals) = eraseGoals (ls'.zip rs' ++ goals') := by
  rw [eraseGoals, eraseGoals, List.map_append, List.map_append, ← List.zip_map, ← List.zip_map, hls,
    hrs]
  exact congrArg _ h

/-- Goals that are alike begin with pairs that are alike. -/
theorem eraseGoals_cons {l r : Ty} (h : eraseGoals ((l, r) :: goals) = eraseGoals goals') :
    ∃ l' r' rest, goals' = (l', r') :: rest ∧ l.erase = l'.erase ∧ r.erase = r'.erase ∧
      eraseGoals goals = eraseGoals rest := by
  cases goals' with
  | nil => cases h
  | cons g rest =>
    obtain ⟨l', r'⟩ := g
    simp only [eraseGoals, List.map_cons, List.cons.injEq, Prod.map_apply, Prod.mk.injEq] at h
    exact ⟨l', r', rest, rfl, h.1.1, h.1.2, h.2⟩

/-- Work on goals that are alike, on a store that is alike, takes a course that is alike. -/
theorem Course.exists_alike (hcourse : Course s goals a) (h : s.erase = s'.erase)
    (hgoals : eraseGoals goals = eraseGoals goals') : ∃ b, Course s' goals' b ∧ a.Alike b := by
  -- the first pair on the other side is alike, so that the same rule applies to it
  induction hcourse generalizing s' goals' with
  | done s =>
    cases goals' with
    | nil => exact ⟨_, .done s', .nil, .ok ((alike_iff_erase_eq _ _).2 h)⟩
    | cons => cases hgoals
  | identity heq _ ih =>
    obtain ⟨l', r', rest, rfl, hl, hr, hgoals⟩ := eraseGoals_cons hgoals
    obtain ⟨b, hb, halike⟩ := ih h hgoals
    rw [Ty.alike_congr hl hr] at heq
    exact ⟨_, .identity heq hb, halike.after .identity hl hr⟩
  | expand hne hface hv _ ih =>
    obtain ⟨l', r', rest, rfl, hl, hr, hgoals⟩ := eraseGoals_cons hgoals
    obtain ⟨other', hface', hother⟩ := hface.exists_alike hl hr
    obtain ⟨u', hv', hu⟩ := exists_find?_bound_alike h hv
    have hgoals' : eraseGoals ((_, _) :: _) = eraseGoals ((other', u') :: rest) :=
      congrArg₂ List.cons (Prod.ext hother hu) hgoals
    obtain ⟨b, hb, halike⟩ := ih h hgoals'
    rw [Ty.alike_congr hl hr] at hne
    exact ⟨b, .expand hne hface' hv' hb, halike⟩
  | @bind s l r other target v w goals a hne hface hv ht _ ih =>
    obtain ⟨l', r', rest, rfl, hl, hr, hgoals⟩ := eraseGoals_cons hgoals
    obtain ⟨other', hface', hother⟩ := hface.exists_alike hl hr
    obtain ⟨target', ht', htarget⟩ := exists_target?_alike h hother ht
    have hassign : (s.assign w target).erase = (s'.assign w target').erase := by
      rw [assign_erase, assign_erase, h, htarget]
    obtain ⟨b, hb, halike⟩ := ih hassign hgoals
    rw [Ty.alike_congr hl hr] at hne
    exact ⟨_, .bind hne hface' (find?_unbound_alike h hv) ht' hb,
      bindTo_followedBy_alike htarget halike w⟩
  | absorb hne habs _ ih =>
    obtain ⟨l', r', rest, rfl, hl, hr, hgoals⟩ := eraseGoals_cons hgoals
    obtain ⟨b, hb, halike⟩ := ih h hgoals
    rw [Ty.alike_congr hl hr] at hne
    rw [← Ty.absorbs_erase, hl, hr, Ty.absorbs_erase] at habs
    exact ⟨_, .absorb hne habs hb, halike.after .absorb hl hr⟩
  | decompose hne hparts _ ih =>
    obtain ⟨l', r', rest, rfl, hl, hr, hgoals⟩ := eraseGoals_cons hgoals
    obtain ⟨ls', rs', hparts', hls, hrs⟩ := hparts.exists_alike hl hr
    obtain ⟨b, hb, halike⟩ := ih h (eraseGoals_zip_append hls hrs hgoals)
    rw [Ty.alike_congr hl hr] at hne
    exact ⟨_, .decompose hne hparts' hb, halike.after _ hl hr⟩
  | arity i j goals hlen =>
    obtain ⟨l', r', rest, rfl, hl, hr, hgoals⟩ := eraseGoals_cons hgoals
    obtain ⟨i', ls', rfl, -, hlenl⟩ := Ty.exists_product_alike hl
    obtain ⟨j', rs', rfl, -, hlenr⟩ := Ty.exists_product_alike hr
    rw [hlenl, hlenr] at hlen ⊢
    exact ⟨_, .arity i' j' rest hlen, .single _ hl hr (.arity _ _)⟩
  | clash goals hne hclash hxl hxr =>
    obtain ⟨l', r', rest, rfl, hl, hr, hgoals⟩ := eraseGoals_cons hgoals
    obtain ⟨x', hxl', hx⟩ := exists_resolve?_alike h hl hxl
    obtain ⟨y', hxr', hy⟩ := exists_resolve?_alike h hr hxr
    rw [Ty.alike_congr hl hr] at hne
    rw [← Ty.clashes_erase, hl, hr, Ty.clashes_erase] at hclash
    exact ⟨_, .clash rest hne hclash hxl' hxr', .single _ hl hr
      (.mismatch ((Ty.alike_iff_erase_eq _ _).2 hx) ((Ty.alike_iff_erase_eq _ _).2 hy))⟩

theorem exists_unify?_alike {l l' r r' : Ty} (h : s.erase = s'.erase) (hl : l.erase = l'.erase)
    (hr : r.erase = r'.erase) (ha : s.unify? l r = some a) :
    ∃ b, s'.unify? l' r' = some b ∧ a.Alike b := by
  have hgoals : eraseGoals [(l, r)] = eraseGoals [(l', r')] := by simp [eraseGoals, hl, hr]
  obtain ⟨b, hb, halike⟩ := (unify?_eq_some_iff.1 ha).exists_alike h hgoals
  exact ⟨b, unify?_eq_some_iff.2 hb, halike⟩

/-- Unifying types that are alike, on stores that are alike, makes attempts that are alike, or ends
on neither side. -/
theorem unify?_alike {l l' r r' : Ty} (h : s.erase = s'.erase) (hl : l.erase = l'.erase)
    (hr : r.erase = r'.erase) : Option.Rel Attempt.Alike (s.unify? l r) (s'.unify? l' r') := by
  refine rel_of_exists (fun a ha => exists_unify?_alike h hl hr ha) fun b hb => ?_
  obtain ⟨a, ha, -⟩ := exists_unify?_alike h.symm hl.symm hr.symm hb
  exact ⟨a, ha⟩

end Substitution

end CoContextual
