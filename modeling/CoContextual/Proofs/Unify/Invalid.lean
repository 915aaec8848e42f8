import CoContextual.Proofs.Unify.Completeness

/-!
# Unifying invalid types

An invalid type was reported where it arose, and is to cause no further report. Hence masking parts
of two types that can be unified never makes them fail (`Substitution.unify?_masked`): what the
variables stand for in the first run is outlined by all that they are bound to in the second.

An invalid type absorbs whatever it meets, with one exception. A variable is looked at first, and if
nothing is known of it, it is bound to the invalid type (`Substitution.unify?_invalid`).

- `Substitution.Ends`: the result of unifying two types, without its steps;
- `Substitution.Passes`: two types that unify in either order without binding anything.
-/

namespace CoContextual

namespace Ty

variable {t : Ty}

theorem invalid_ne_flexible (i w : NodeId) : invalid i ≠ .flexible w := nofun

theorem invalid_absorbs (ht : ∀ v, t ≠ .flexible v) (i : NodeId) :
    (invalid i).absorbs t = true := by
  rcases t with _ | _ | _ | ⟨v | _⟩ | _ | _
  case var.flexible => exact absurd rfl (ht v)
  all_goals rfl

theorem alike_flexible_of_ne (ht : ∀ w, t ≠ .flexible w) {v : NodeId} :
    (flexible v).alike t = false := by
  rcases t with _ | _ | _ | ⟨w | _⟩ | _ | _
  case var.flexible => exact absurd rfl (ht w)
  all_goals rfl

end Ty

namespace Substitution

variable {s : Substitution} {l r : Ty}

/-! ## How a unification ends -/

/-- Unifying the two types ends with the given result. -/
def Ends (s : Substitution) (l r : Ty) (result : Except UnifyError Substitution) : Prop :=
  ∃ steps, s.unify? l r = some ⟨steps, result⟩

/-- The two types can be unified in either order, and nothing is bound. -/
def Passes (s : Substitution) (l r : Ty) : Prop := s.Ends l r (.ok s) ∧ s.Ends r l (.ok s)

theorem ends_of_course {a : Attempt} (h : Course s [(l, r)] a) : s.Ends l r a.result :=
  ⟨a.steps, unify?_eq_some_iff.2 h⟩

/-- A variable that is bound passes the work on. -/
theorem Ends.expand {other u : Ty} {v : NodeId} {result : Except UnifyError Substitution}
    (h : s.Ends other u result) (hne : l.alike r = false) (hface : Ty.Faces l r v other)
    (hv : s.find? v = some (.bound u)) : s.Ends l r result := by
  obtain ⟨steps, h⟩ := h
  exact ends_of_course (.expand hne hface hv (unify?_eq_some_iff.1 h))

/-- A bound variable that meets no other variable leads to the same pair from either side. -/
theorem ends_of_bound {v : NodeId} {u : Ty} {result : Except UnifyError Substitution}
    (hr : ∀ w, r ≠ .flexible w) (hv : s.find? v = some (.bound u)) (h : s.Ends r u result) :
    s.Ends (.flexible v) r result ∧ s.Ends r (.flexible v) result := by
  have hne : (Ty.flexible v).alike r = false := Ty.alike_flexible_of_ne hr
  refine ⟨h.expand hne (.left v r) hv, h.expand ?_ (.right v hr) hv⟩
  rwa [Ty.alike_comm]

theorem passes_of_alike (h : l.alike r = true) : s.Passes l r := by
  refine ⟨ends_of_course (.identity h (.done s)), ends_of_course (.identity ?_ (.done s))⟩
  rwa [Ty.alike_comm]

theorem passes_of_absorbs (h : l.absorbs r = true) : s.Passes l r := by
  cases heq : l.alike r with
  | true => exact passes_of_alike heq
  | false =>
    refine ⟨ends_of_course (.absorb heq h (.done s)), ends_of_course (.absorb ?_ ?_ (.done s))⟩
    · rwa [Ty.alike_comm]
    · rwa [Ty.absorbs_comm]

/-! ## Masked parts -/

/-- Where two types without schemes and invalid parts are unified with an acyclic store, so are any
two types that arise from them by putting invalid types in the place of parts. -/
theorem unify?_masked {l' r' : Ty} {steps : List Step} (hl : l.plain = true)
    (hr : r.plain = true) (h : Substitution.empty.unify? l r = some ⟨steps, .ok s⟩)
    (hacyclic : s.Acyclic) (hl' : l'.masks l = true) (hr' : r'.masks r = true) :
    ∃ steps' s', Substitution.empty.unify? l' r' = some ⟨steps', .ok s'⟩ ∧ s'.Acyclic := by
  have hcourse := unify?_eq_some_iff.1 h
  have hentries : AllEntries (fun u => u.plain = true) s :=
    hcourse.allEntries Ty.partClosed_plain (allEntries_empty _) (by simpa using ⟨hl, hr⟩) rfl
  have hplain : ∀ t : Ty, t.plain = true → (t.substitute s.image).plain = true :=
    fun t ht => Ty.plain_substitute ht fun v _ => hacyclic.plain_image hentries v
  -- the first run makes the two types equal, and that type is outlined in the second
  have hequal : (l.substitute s.image).erase = (r.substitute s.image).erase := by
    rw [← Ty.alike_iff_erase_eq]
    exact Ty.alike_of_agrees (Ty.plain_iff.1 (hplain l hl)).2 (Ty.plain_iff.1 (hplain r hr)).2
      (hcourse.agrees rfl hacyclic.satisfiedBy_image (l, r) (by simp))
  have hboth : Ty.BothOutline s.image (l', r') (l.substitute s.image) :=
    ⟨Ty.outlines_of_masks (Ty.plain_iff.1 hl).1 hl',
      Ty.outlines_congr hequal.symm (Ty.outlines_of_masks (Ty.plain_iff.1 hr).1 hr')⟩
  have houtlined : Outlined s.image .empty [(l', r')] [l.substitute s.image] :=
    ⟨wellFormed_empty, outlinedBy_empty _, .cons hboth .nil⟩
  obtain ⟨steps', s', hcourse', hs'⟩ := houtlined.exists_course
  exact ⟨steps', s', unify?_eq_some_iff.2 hcourse', hs'.acyclic⟩

/-- A variable that stands for an arrow with an invalid domain meets another arrow, and one that is
bound on the way meets an invalid type. -/
theorem unify?_masked_shared_arrow :
    ∃ steps' s', Substitution.empty.unify?
        (.product 10 [.flexible 1, .flexible 1, .flexible 2])
        (.product 20 [.arrow 21 (.invalid 22) (.flexible 2),
          .arrow 23 (.flexible 3) (.primitive 24 .string), .invalid 25])
        = some ⟨steps', .ok s'⟩ ∧ s'.Acyclic := by
  obtain ⟨steps, s, hunify, hs⟩ : ∃ steps s, Substitution.empty.unify?
      (.product 10 [.flexible 1, .flexible 1, .flexible 2])
      (.product 20 [.arrow 21 (.primitive 22 .i32) (.flexible 2),
        .arrow 23 (.flexible 3) (.primitive 24 .string), .primitive 25 .string])
      = some ⟨steps, .ok s⟩ ∧ ∀ p ∈ s.entries.toList, ∀ w ∈ p.2.toTy.mentions,
        (if w = 1 then 1 else 0) < if p.1 = 1 then 1 else 0 := ⟨_, _, rfl, by decide⟩
  have hacyclic : s.Acyclic := acyclic_of_measure (fun v => if v = 1 then 1 else 0) hs
  exact unify?_masked rfl rfl hunify hacyclic rfl rfl

/-! ## Absorption -/

/-- The type is a variable that leads to `w`, and nothing is known of `w`. -/
def OpenAt (s : Substitution) (t : Ty) (w : NodeId) : Prop :=
  ∃ v, t = .flexible v ∧ s.find? v = some (.unbound w)

/-- Everything but an open variable is absorbed on either side. -/
theorem WellFormed.passes_invalid (hs : s.WellFormed) {t : Ty} (ht : ∀ w, ¬ s.OpenAt t w)
    (i : NodeId) : s.Passes (.invalid i) t := by
  by_cases hvar : ∃ v, t = .flexible v
  · obtain ⟨v, rfl⟩ := hvar
    obtain ⟨look, hv⟩ := hs.rooted v
    cases look with
    | unbound w => exact absurd ⟨v, rfl, hv⟩ (ht w)
    | bound u =>
      -- what the variable is bound to is no variable, so that it is absorbed in its place
      obtain ⟨x, hx⟩ := exists_get?_of_find? hv
      have habsorbs : s.Passes (.invalid i) u :=
        passes_of_absorbs (Ty.invalid_absorbs (hs.tidy x u hx) i)
      exact (ends_of_bound (Ty.invalid_ne_flexible i) hv habsorbs.1).symm
  · exact passes_of_absorbs (Ty.invalid_absorbs (fun v hv => hvar ⟨v, hv⟩) i)

/-- An open variable is bound to the invalid type, on whichever side it stands. -/
theorem OpenAt.ends_invalid {t : Ty} {w : NodeId} (h : s.OpenAt t w) (i : NodeId) :
    s.Ends (.invalid i) t (.ok (s.assign w (.invalid i))) ∧
      s.Ends t (.invalid i) (.ok (s.assign w (.invalid i))) := by
  obtain ⟨v, rfl, hv⟩ := h
  exact ⟨ends_of_course (.bind rfl (.right v (Ty.invalid_ne_flexible i)) hv rfl (.done _)),
    ends_of_course (.bind rfl (.left v _) hv rfl (.done _))⟩

theorem OpenAt.unique {t : Ty} {w w' : NodeId} (h : s.OpenAt t w) (h' : s.OpenAt t w') :
    w = w' := by
  obtain ⟨v, rfl, hv⟩ := h
  obtain ⟨v', heq, hv'⟩ := h'
  cases heq
  rw [hv] at hv'
  cases hv'
  rfl

theorem OpenAt.assign_ne {t target : Ty} {w : NodeId} (h : s.OpenAt t w)
    (htarget : target ≠ .flexible w) : s.assign w target ≠ s := by
  obtain ⟨v, -, hv⟩ := h
  intro heq
  obtain ⟨e, he, -⟩ := get?_assign_self (s := s) htarget
  rw [heq, get?_eq_none_of_find? hv] at he
  cases he

/-- Unifying an invalid type with any type succeeds, with the same store on either side. Nothing is
bound unless the type is an open variable: what that leads to is bound to the invalid type. -/
theorem unify?_invalid (h : Relation.ReflTransGen Unifies .empty s) (i : NodeId) (t : Ty) :
    ∃ s', (∃ steps, s.unify? (.invalid i) t = some ⟨steps, .ok s'⟩) ∧
      (∃ steps, s.unify? t (.invalid i) = some ⟨steps, .ok s'⟩) ∧
      (s' = s ↔ ∀ w, ¬ s.OpenAt t w) ∧
      ∀ w, s.OpenAt t w → s' = s.assign w (.invalid i) := by
  by_cases hopen : ∃ w, s.OpenAt t w
  · obtain ⟨w, hw⟩ := hopen
    obtain ⟨hleft, hright⟩ := hw.ends_invalid i
    have hne : s.assign w (.invalid i) ≠ s := hw.assign_ne (Ty.invalid_ne_flexible i w)
    refine ⟨_, hleft, hright, iff_of_false hne fun hnone => hnone w hw, fun w' hw' => ?_⟩
    rw [hw.unique hw']
  · have hnone : ∀ w, ¬ s.OpenAt t w := fun w hw => hopen ⟨w, hw⟩
    obtain ⟨hleft, hright⟩ := (wellFormed_of_reflTransGen h).passes_invalid hnone i
    exact ⟨s, hleft, hright, iff_of_true rfl hnone, fun w hw => absurd hw (hnone w)⟩

/-- Through an alias an invalid type meets an open variable. -/
theorem unify?_invalid_alias : ∃ s',
    (∃ steps, (Substitution.empty.assign 1 (.flexible 2)).unify? (.invalid 9) (.flexible 1)
      = some ⟨steps, .ok s'⟩) ∧
    (∃ steps, (Substitution.empty.assign 1 (.flexible 2)).unify? (.flexible 1) (.invalid 9)
      = some ⟨steps, .ok s'⟩) ∧
    s' = (Substitution.empty.assign 1 (.flexible 2)).assign 2 (.invalid 9) := by
  have hbuilt : Relation.ReflTransGen Unifies .empty (Substitution.empty.assign 1 (.flexible 2)) :=
    .single ⟨.flexible 1, .flexible 2, _, rfl⟩
  obtain ⟨s', hl, hr, -, hs'⟩ := unify?_invalid hbuilt 9 (.flexible 1)
  exact ⟨s', hl, hr, hs' 2 ⟨1, rfl, rfl⟩⟩

/-- Unifying an invalid type with a variable binds the variable. -/
theorem unify?_invalid_binds : ∃ steps s',
    Substitution.empty.unify? (.invalid 99) (.flexible 0) = some ⟨steps, .ok s'⟩ ∧
      s'.get? 0 = some (.bound (.invalid 99)) ∧ s' ≠ .empty := by
  refine ⟨_, _, rfl, rfl, fun heq => ?_⟩
  have hget : Substitution.empty.get? 0 = some (.bound (.invalid 99)) := by
    rw [← heq]
    rfl
  cases hget

end Substitution

end CoContextual
