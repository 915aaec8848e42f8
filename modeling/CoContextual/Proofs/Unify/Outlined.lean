import CoContextual.Proofs.Unify.Built
import CoContextual.Proofs.Ty.Outline

/-!
# Unifying with the outline of a solution at hand

Some assignment `A` gives every variable a type, and for each goal there is a type that both of its
sides outline; what a variable is bound to outlines the variable's own type. Then unification ends
in success, and its store is acyclic. There is no occurs check and bound variables are expanded on
the way, so the sides do not shrink; what shrinks is the size of the outlined types, and where that
stays the same, the number of sides that are variables.

- `Substitution.Outlined`: what is known of a store and of goals with such types;
- `Substitution.Outlined.exists_course`: the work ends in success with such a store;
- `Substitution.Outlined.acyclic`: such a store has no cycle.
-/

namespace CoContextual

namespace Ty

variable {A : NodeId → Ty} {l r whole : Ty}

/-- Whether the type is a flexible variable. -/
def isFlexible : Ty → Bool
  | var (.flexible _) => true
  | _ => false

@[simp]
theorem isFlexible_flexible (v : NodeId) : (flexible v).isFlexible = true := rfl

theorem isFlexible_eq_false {t : Ty} (h : ∀ w, t ≠ .flexible w) : t.isFlexible = false := by
  rcases t with _ | _ | _ | ⟨w | _⟩ | _ | _
  case var.flexible => exact absurd rfl (h w)
  all_goals rfl

theorem sizeAll_append (ts us : List Ty) : sizeAll (ts ++ us) = sizeAll ts + sizeAll us := by
  induction ts with
  | nil => simp [sizeAll]
  | cons t ts ih => simp [sizeAll, ih, Nat.add_assoc]

/-! ## Two outlines of one type -/

/-- Both sides of the pair outline `whole`. -/
def BothOutline (A : NodeId → Ty) (pair : Ty × Ty) (whole : Ty) : Prop :=
  pair.1.outlines A whole = true ∧ pair.2.outlines A whole = true

/-- A variable that decides a pair has the outlined type, and so has what it faces. -/
theorem Faces.outlines {other : Ty} {v : NodeId} (h : Faces l r v other)
    (hboth : BothOutline A (l, r) whole) :
    other.outlines A whole = true ∧ (A v).erase = whole.erase := by
  obtain ⟨hv, hother⟩ := h.both (P := fun t => t.outlines A whole = true) hboth.1 hboth.2
  rw [outlines_flexible, alike_iff_erase_eq] at hv
  exact ⟨hother, hv⟩

theorem forall₂_bothOutline_zip {ls rs wholes : List Ty}
    (hls : List.Forall₂ (fun t u => t.outlines A u = true) ls wholes)
    (hrs : List.Forall₂ (fun t u => t.outlines A u = true) rs wholes) :
    List.Forall₂ (BothOutline A) (ls.zip rs) wholes := by
  induction hls generalizing rs with
  | nil =>
    cases hrs
    exact .nil
  | cons hl _ ih =>
    cases hrs with
    | cons hr hrs => exact .cons ⟨hl, hr⟩ (ih hrs)

/-- The parts of two outlines outline the parts of the whole, which are smaller than it. -/
theorem Matches.outlines {action : Action} {ls rs : List Ty} (h : Matches l r action ls rs)
    (hboth : BothOutline A (l, r) whole) :
    ∃ wholes, List.Forall₂ (BothOutline A) (ls.zip rs) wholes ∧ sizeAll wholes < whole.size := by
  obtain ⟨hl, hr⟩ := hboth
  cases h with
  | arrow i j d c d' c' =>
    obtain ⟨k, x, y, rfl, hd, hc⟩ := outlines_arrow_iff.1 hl
    obtain ⟨k', x', y', heq, hd', hc'⟩ := outlines_arrow_iff.1 hr
    cases heq
    exact ⟨[x, y], .cons ⟨hd, hd'⟩ (.cons ⟨hc, hc'⟩ .nil), by simp [sizeAll]⟩
  | product i j hlen =>
    obtain ⟨k, us, rfl, hus⟩ := outlines_product_iff.1 hl
    obtain ⟨k', us', heq, hus'⟩ := outlines_product_iff.1 hr
    cases heq
    exact ⟨us, forall₂_bothOutline_zip hus hus', by simp⟩

/-- Two outlines of one type have the same structure unless one of them is invalid. -/
theorem alike_of_bothOutline (hboth : BothOutline A (l, r) whole) (h : l.clashes r = true) :
    l.alike r = true := by
  obtain ⟨hl, hr⟩ := hboth
  rcases l with _ | _ | _ | ⟨_ | _⟩ | _ | _ <;> rcases r with _ | _ | _ | ⟨_ | _⟩ | _ | _ <;>
    cases whole <;> simp_all [clashes, outlines, alike, TyVar.substitute]

theorem length_eq_of_bothOutline {i j : NodeId} {ls rs : List Ty}
    (hboth : BothOutline A (.product i ls, .product j rs) whole) : ls.length = rs.length := by
  obtain ⟨hl, hr⟩ := hboth
  obtain ⟨k, us, rfl, hus⟩ := outlines_product_iff.1 hl
  obtain ⟨k', us', heq, hus'⟩ := outlines_product_iff.1 hr
  cases heq
  exact hus.length_eq.trans hus'.length_eq.symm

end Ty

namespace Substitution

variable {s s' : Substitution} {A : NodeId → Ty} {goals : List (Ty × Ty)} {wholes : List Ty}

/-! ## Outlined stores -/

/-- What a variable is mapped to outlines the variable's own type. -/
def OutlinedBy (s : Substitution) (A : NodeId → Ty) : Prop :=
  ∀ v e, s.get? v = some e → e.toTy.outlines A (A v) = true

theorem outlinedBy_empty (A : NodeId → Ty) : Substitution.empty.OutlinedBy A :=
  fun _ _ he => nomatch he

/-- What a variable leads to outlines the variable's type. -/
theorem OutlinedBy.find? (h : s.OutlinedBy A) {v : NodeId} {look : Lookup}
    (hv : s.find? v = some look) : look.toTy.outlines A (A v) = true := by
  refine find?_induction (s := s) (P := fun v look => look.toTy.outlines A (A v) = true) ?_ ?_ ?_ hv
  · intro v _
    rw [Lookup.toTy, Ty.outlines_flexible]
    exact Ty.alike_refl _
  · intro v u hget
    exact h v _ hget
  · intro v w look hget _ ih
    have hvw := h v _ hget
    rw [Entry.toTy, Ty.outlines_flexible, Ty.alike_iff_erase_eq] at hvw
    exact Ty.outlines_congr hvw ih

theorem OutlinedBy.find?_unbound (h : s.OutlinedBy A) {v w : NodeId}
    (hv : s.find? v = some (.unbound w)) : (A w).erase = (A v).erase := by
  have hw := h.find? hv
  rwa [Lookup.toTy, Ty.outlines_flexible, Ty.alike_iff_erase_eq] at hw

/-- What an unbound variable is bound to outlines whatever the facing type does. -/
theorem OutlinedBy.target? (h : s.OutlinedBy A) {other target whole : Ty}
    (hother : other.outlines A whole = true) (ht : s.target? other = some target) :
    target.outlines A whole = true := by
  rcases target?_eq_some ht with ⟨w, look, rfl, hlook, rfl⟩ | ⟨-, rfl⟩
  · rw [Ty.outlines_flexible, Ty.alike_iff_erase_eq] at hother
    exact Ty.outlines_congr hother (h.find? hlook)
  · exact hother

theorem OutlinedBy.assign (h : s.OutlinedBy A) {w : NodeId} {target : Ty}
    (ht : target.outlines A (A w) = true) : (s.assign w target).OutlinedBy A := by
  intro v e he
  rcases get?_assign_cases he with he | ⟨rfl, rfl⟩
  · exact h v e he
  · exact ht

/-- Binding a variable that decides a pair keeps the store outlined. -/
theorem OutlinedBy.bind (h : s.OutlinedBy A) {l r other target whole : Ty} {v w : NodeId}
    (hboth : Ty.BothOutline A (l, r) whole) (hface : Ty.Faces l r v other)
    (hv : s.find? v = some (.unbound w)) (ht : s.target? other = some target) :
    (s.assign w target).OutlinedBy A := by
  obtain ⟨hother, hA⟩ := hface.outlines hboth
  refine h.assign (Ty.outlines_congr ?_ (h.target? hother ht))
  rw [h.find?_unbound hv, hA]

theorem WellFormed.acyclic_of_outlinedBy (hs : s.WellFormed) (h : s.OutlinedBy A) : s.Acyclic := by
  refine hs.acyclic_of_size (fun v => (A v).size) ?_ ?_
  · intro v u hget w hw
    rcases Ty.size_lt_of_outlines (h v _ hget) hw with hlt | hself
    · exact hlt
    · exact absurd hself (hs.tidy v u hget w)
  · intro v w hget
    have hvw := h v _ hget
    rw [Entry.toTy, Ty.outlines_flexible] at hvw
    exact Nat.le_of_eq (Ty.size_eq_of_alike hvw)

/-! ## Success -/

/-- The store is outlined by `A`, and both sides of each goal outline a type of the list. -/
structure Outlined (A : NodeId → Ty) (s : Substitution) (goals : List (Ty × Ty))
    (wholes : List Ty) : Prop where
  /-- Lookups end. -/
  wellFormed : s.WellFormed
  /-- What a variable is mapped to outlines the variable's type. -/
  entries : s.OutlinedBy A
  /-- The two sides of a goal outline the same type. -/
  goals : List.Forall₂ (Ty.BothOutline A) goals wholes

namespace Outlined

variable {l r other u target whole : Ty} {v w : NodeId}

theorem tail (h : Outlined A s ((l, r) :: goals) (whole :: wholes)) : Outlined A s goals wholes :=
  { h with goals := (List.forall₂_cons.1 h.goals).2 }

theorem expand (h : Outlined A s ((l, r) :: goals) (whole :: wholes))
    (hface : Ty.Faces l r v other) (hv : s.find? v = some (.bound u)) :
    Outlined A s ((other, u) :: goals) (whole :: wholes) := by
  obtain ⟨hboth, hgoals⟩ := List.forall₂_cons.1 h.goals
  obtain ⟨hother, hA⟩ := hface.outlines hboth
  exact { h with goals := .cons ⟨hother, Ty.outlines_congr hA (h.entries.find? hv)⟩ hgoals }

theorem bind (h : Outlined A s ((l, r) :: goals) (whole :: wholes))
    (hface : Ty.Faces l r v other) (hv : s.find? v = some (.unbound w))
    (ht : s.target? other = some target) : Outlined A (s.assign w target) goals wholes :=
  { wellFormed := h.wellFormed.assign hv ht
    entries := h.entries.bind (List.forall₂_cons.1 h.goals).1 hface hv ht
    goals := h.tail.goals }

theorem decompose (h : Outlined A s ((l, r) :: goals) (whole :: wholes)) {action : Action}
    {ls rs : List Ty} (hparts : Ty.Matches l r action ls rs) :
    ∃ parts, Outlined A s (ls.zip rs ++ goals) (parts ++ wholes) ∧
      Ty.sizeAll parts < whole.size := by
  obtain ⟨parts, hboth, hsize⟩ := hparts.outlines (List.forall₂_cons.1 h.goals).1
  exact ⟨parts, { h with goals := List.rel_append hboth h.tail.goals }, hsize⟩

end Outlined

/-- How many sides of goals are variables. -/
def variableSides (goals : List (Ty × Ty)) : ℕ :=
  (goals.map fun g => g.1.isFlexible.toNat + g.2.isFlexible.toNat).sum

/-- What replaces a pair that a bound variable decides has one variable less. -/
theorem WellFormed.variableSides_expand (hs : s.WellFormed) {l r other u : Ty} {v : NodeId}
    (hface : Ty.Faces l r v other) (hv : s.find? v = some (.bound u)) (goals : List (Ty × Ty)) :
    variableSides ((other, u) :: goals) < variableSides ((l, r) :: goals) := by
  obtain ⟨x, hx⟩ := exists_get?_of_find? hv
  have hu : u.isFlexible = false := Ty.isFlexible_eq_false (hs.tidy x u hx)
  cases hface with
  | left =>
    simp only [variableSides, List.map_cons, List.sum_cons, hu, Ty.isFlexible_flexible,
      Bool.toNat_true, Bool.toNat_false]
    omega
  | right _ hl => simp [variableSides, hu]

/-- With outlined types at hand, the work ends in success, and its store is outlined again. -/
theorem Outlined.exists_course (h : Outlined A s goals wholes) :
    ∃ steps s', Course s goals ⟨steps, .ok s'⟩ ∧ Outlined A s' [] [] := by
  -- outer induction on the size of the outlined types, inner one on the number of variables
  induction hn : Ty.sizeAll wholes using Nat.strong_induction_on generalizing s goals wholes with
  | _ n ihn =>
  induction hm : variableSides goals using Nat.strong_induction_on generalizing goals wholes with
  | _ m ihm =>
  cases h.goals with
  | nil => exact ⟨_, s, .done s, { h with goals := .nil }⟩
  | @cons g whole goals wholes hboth hgoals =>
    obtain ⟨l, r⟩ := g
    rw [Ty.sizeAll] at hn
    have hpos := whole.size_pos
    by_cases heq : l.alike r = true
    · obtain ⟨steps, s', hcourse, hs'⟩ := ihn _ (by omega) h.tail rfl
      exact ⟨_, s', .identity heq hcourse, hs'⟩
    have hne : l.alike r = false := by simpa using heq
    cases Ty.confrontation l r with
    | @faces _ _ other v hface =>
      obtain ⟨look, hv⟩ := h.wellFormed.rooted v
      cases look with
      | bound u =>
        -- nothing gets smaller, but a variable is gone
        have hsides := h.wellFormed.variableSides_expand hface hv goals
        obtain ⟨steps, s', hcourse, hs'⟩ := ihm _ (by omega) (h.expand hface hv) hn rfl
        exact ⟨steps, s', .expand hne hface hv hcourse, hs'⟩
      | unbound w =>
        obtain ⟨target, ht⟩ := h.wellFormed.exists_target? other
        obtain ⟨steps, s', hcourse, hs'⟩ := ihn _ (by omega) (h.bind hface hv ht) rfl
        exact ⟨_, s', .bind hne hface hv ht hcourse, hs'⟩
    | absorb habs =>
      obtain ⟨steps, s', hcourse, hs'⟩ := ihn _ (by omega) h.tail rfl
      exact ⟨_, s', .absorb hne habs hcourse, hs'⟩
    | parts hparts =>
      obtain ⟨parts, hnext, hlt⟩ := h.decompose hparts
      obtain ⟨steps, s', hcourse, hs'⟩ := ihn _ (by rw [Ty.sizeAll_append]; omega) hnext rfl
      exact ⟨_, s', .decompose hne hparts hcourse, hs'⟩
    | arity i j hlen => exact absurd (Ty.length_eq_of_bothOutline hboth) hlen
    | clash hclash => exact absurd (Ty.alike_of_bothOutline hboth hclash) heq

theorem Outlined.acyclic (h : Outlined A s goals wholes) : s.Acyclic :=
  h.wellFormed.acyclic_of_outlinedBy h.entries

end Substitution

end CoContextual
