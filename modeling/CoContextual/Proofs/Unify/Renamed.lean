import CoContextual.Proofs.Ty.Instance
import CoContextual.Proofs.Unify.Depth
import CoContextual.Proofs.Unify.Outlined
import CoContextual.Proofs.Unify.Rigid

/-!
# Unifying a type with a copy of it

A type is unified with a copy in which some of its variables have moved to new ones. Everything but
these variables is alike on both sides, and a moved variable is made to stand for the new one where
it is met first. Where it is met again, both sides lead to the new variable and nothing changes.

- `TyVar.move`: moves flexible variables, as a map for `Ty.rename`;
- `Substitution.Links`: the store that says which variables have moved so far, and nothing else;
- `Substitution.exists_unify?_move`: the store that unifying the two types ends with.
-/

namespace CoContextual

/-- Moves a flexible variable and leaves a rigid one. -/
def TyVar.move (new : NodeId → NodeId) : TyVar → Ty
  | flexible v => .flexible (new v)
  | rigid v => .var (.rigid v)

namespace Ty

/-- If renaming gives a type that is alike, it gives every free variable something alike. -/
theorem erase_eq_of_erase_rename_eq {f : TyVar → Ty} {t : Ty} (ht : t.schemeFree = true)
    (h : t.erase = (t.rename f).erase) {v : TyVar} (hv : v ∈ t.freeVars) :
    (f v).erase = .var v := by
  induction t using ind with
  | primitive id kind => simp at hv
  | arrow id d c ihd ihc =>
    simp only [schemeFree_arrow, Bool.and_eq_true] at ht
    rw [rename_arrow, erase_arrow, erase_arrow] at h
    injection h with _ hd hc
    exact (List.mem_append.1 hv).elim (ihd ht.1 hd) (ihc ht.2 hc)
  | product id cs ih =>
    rw [schemeFree_product] at ht
    rw [rename_product, erase_product, erase_product, List.map_map] at h
    injection h with _ hcs
    obtain ⟨c, hc, hv⟩ := mem_freeVars_product.1 hv
    exact ih c hc (ht c hc) (List.map_inj_left.1 hcs c hc) hv
  | var w =>
    obtain rfl := List.mem_singleton.1 hv
    exact h.symm
  | scheme id bound body ih => simp at ht
  | invalid id => simp at hv

/-- A variable that has moved keeps its type from being alike to the copy. -/
theorem new_eq_of_alike_move {new : NodeId → NodeId} {t : Ty} (ht : t.schemeFree = true)
    (h : t.alike (t.rename (TyVar.move new)) = true) {v : NodeId} (hv : .flexible v ∈ t.freeVars) :
    new v = v := by
  have hmove := erase_eq_of_erase_rename_eq ht ((alike_iff_erase_eq _ _).1 h) hv
  injection hmove with hmove
  injection hmove

end Ty

namespace Substitution

/-- The variables in `P` stand for the new ones, and nothing is known of the others. -/
structure Links (new : NodeId → NodeId) (P : NodeId → Prop) (s : Substitution) : Prop where
  /-- The variables that have been met. -/
  linked : ∀ v, P v → s.get? v = some (.redirect (new v))
  /-- All other variables. -/
  unlinked : ∀ v, ¬ P v → s.get? v = none

namespace Links

variable {new : NodeId → NodeId} {P Q : NodeId → Prop} {s : Substitution} {v : NodeId}

theorem empty (new : NodeId → NodeId) : Links new (fun _ => False) .empty where
  linked _ h := h.elim
  unlinked _ _ := rfl

theorem congr (h : Links new P s) (hPQ : ∀ v, P v ↔ Q v) : Links new Q s where
  linked v hv := h.linked v ((hPQ v).2 hv)
  unlinked v hv := h.unlinked v fun hP => hv ((hPQ v).1 hP)

variable (hnew : ∀ v, new (new v) = new v)

section

include hnew

/-- New variables stand for themselves. -/
theorem find?_new (h : Links new P s) (hP : ∀ v, P v → new v ≠ v) (v : NodeId) :
    s.find? (new v) = some (.unbound (new v)) :=
  find?_of_none (h.unlinked _ fun hmoved => hP _ hmoved (hnew v))

/-- A variable that meets the new one is linked to it, if it is not yet. -/
theorem bind (h : Links new P s) (hP : ∀ v, P v → new v ≠ v) (hv : new v ≠ v) :
    ∃ w, s.find? v = some (.unbound w) ∧
      Links new (fun x => P x ∨ x = v) (s.assign w (.flexible (new v))) := by
  by_cases hmet : P v
  · refine ⟨new v, ?_, ?_⟩
    · rw [find?_of_redirect (h.linked v hmet), h.find?_new hnew hP]
    -- assigning the new variable to itself does nothing
    · rw [assign_self]
      exact h.congr fun x => ⟨.inl, fun hx => hx.elim id fun heq => heq ▸ hmet⟩
  · refine ⟨v, find?_of_none (h.unlinked v hmet), ⟨fun x hx => ?_, fun x hx => ?_⟩⟩
    · by_cases hxv : x = v
      · rw [hxv, assign, if_neg hv, get?, Table.get?_insert, if_pos rfl]
      · rw [get?_assign_of_ne _ _ hxv, h.linked x (hx.resolve_right hxv)]
    · rw [not_or] at hx
      rw [get?_assign_of_ne _ _ hx.2, h.unlinked x hx.1]

end

end Links

/-! ## The course -/

/-- Unifying the types `ts` with their copies, where the variables in `P` have been met before, ends
in success and links those that are met on the way. -/
def Relinks (new : NodeId → NodeId) (P : NodeId → Prop) (s : Substitution) (ts : List Ty) : Prop :=
  ∃ steps s', Course s (ts.map fun t => (t, t.rename (TyVar.move new))) ⟨steps, .ok s'⟩ ∧
    Links new (fun v => P v ∨ new v ≠ v ∧ ∃ t ∈ ts, .flexible v ∈ t.freeVars) s'

namespace Relinks

variable {new : NodeId → NodeId} {P : NodeId → Prop} {s : Substitution} {t : Ty} {ts : List Ty}

theorem nil (h : Links new P s) : Relinks new P s [] :=
  ⟨[], s, .done s, h.congr fun v => by simp⟩

/-- A type that is alike to its copy has no variable that moves. -/
theorem identity (h : Relinks new P s ts) (ht : t.schemeFree = true)
    (halike : t.alike (t.rename (TyVar.move new)) = true) : Relinks new P s (t :: ts) := by
  obtain ⟨steps, s', hcourse, hlinks⟩ := h
  refine ⟨_, s', .identity halike hcourse, hlinks.congr fun v => ?_⟩
  have hstays : .flexible v ∈ t.freeVars → new v = v := Ty.new_eq_of_alike_move ht halike
  rw [List.exists_mem_cons_iff]
  tauto

theorem decompose {action : Action} {cs : List Ty} (h : Relinks new P s (cs ++ ts))
    (hne : t.alike (t.rename (TyVar.move new)) = false)
    (hparts : Ty.Matches t (t.rename (TyVar.move new)) action cs
      (cs.map (Ty.rename (TyVar.move new))))
    (hfree : ∀ v, v ∈ t.freeVars ↔ ∃ c ∈ cs, v ∈ c.freeVars) : Relinks new P s (t :: ts) := by
  obtain ⟨steps, s', hcourse, hlinks⟩ := h
  have hzip : cs.zip (cs.map (Ty.rename (TyVar.move new)))
      = cs.map fun t => (t, t.rename (TyVar.move new)) := by
    have hboth := List.zip_map' (f := id) (g := Ty.rename (TyVar.move new)) (l := cs)
    rwa [List.map_id] at hboth
  rw [List.map_append, ← hzip] at hcourse
  refine ⟨_, s', .decompose hne hparts hcourse, hlinks.congr fun v => ?_⟩
  simp only [List.mem_append, List.exists_mem_cons_iff, hfree, or_and_right, exists_or]

/-- A variable that moves is linked, and the work goes on with it among those that have been met. -/
theorem bind (hnew : ∀ v, new (new v) = new v) (hlinks : Links new P s)
    (hP : ∀ v, P v → new v ≠ v) {v : NodeId} (hv : new v ≠ v)
    (h : ∀ s', Links new (fun x => P x ∨ x = v) s' → Relinks new (fun x => P x ∨ x = v) s' ts) :
    Relinks new P s (.flexible v :: ts) := by
  obtain ⟨w, hfind, hassign⟩ := hlinks.bind hnew hP hv
  obtain ⟨steps, s', hcourse, hlinks'⟩ := h _ hassign
  have hne : (Ty.flexible v).alike (.flexible (new v)) = false := by
    rw [← Bool.not_eq_true, Ty.alike]
    simpa using hv.symm
  have htarget : s.target? (.flexible (new v)) = some (.flexible (new v)) := by
    rw [target?, hlinks.find?_new hnew hP]
    rfl
  refine ⟨_, s', .bind hne (.left v _) hfind htarget hcourse, hlinks'.congr fun x => ?_⟩
  simp only [List.exists_mem_cons_iff, Ty.freeVars_var, List.mem_singleton, TyVar.flexible.injEq]
  constructor
  · rintro ((hx | rfl) | ⟨hx, hts⟩)
    · exact .inl hx
    · exact .inr ⟨hv, .inl rfl⟩
    · exact .inr ⟨hx, .inr hts⟩
  · rintro (hx | ⟨hx, rfl | hts⟩)
    · exact .inl (.inl hx)
    · exact .inl (.inr rfl)
    · exact .inr ⟨hx, hts⟩

end Relinks

/-- The induction is on what is left of the types. -/
theorem Links.relinks {new : NodeId → NodeId} (hnew : ∀ v, new (new v) = new v)
    {P : NodeId → Prop} {s : Substitution} (h : Links new P s) (hP : ∀ v, P v → new v ≠ v)
    {ts : List Ty} (hts : ∀ t ∈ ts, t.schemeFree = true) : Relinks new P s ts := by
  induction hn : Ty.sizeAll ts using Nat.strong_induction_on generalizing ts s P with
  | _ n ih =>
  subst hn
  cases ts with
  | nil => exact .nil h
  | cons t ts =>
    obtain ⟨ht, hrest⟩ := List.forall_mem_cons.1 hts
    have hless : Ty.sizeAll ts < Ty.sizeAll (t :: ts) := Nat.lt_add_of_pos_left t.size_pos
    by_cases halike : t.alike (t.rename (TyVar.move new)) = true
    · exact .identity (ih _ hless h hP hrest rfl) ht halike
    · rw [Bool.not_eq_true] at halike
      cases t with
      | primitive id kind => cases halike.symm.trans (Ty.alike_refl _)
      | arrow id d c =>
        rw [Ty.schemeFree_arrow, Bool.and_eq_true] at ht
        have hparts : Ty.Matches (.arrow id d c) (.arrow id _ _) .decomposeArrow [d, c]
            ([d, c].map (Ty.rename (TyVar.move new))) := .arrow id id d c _ _
        refine .decompose (ih _ ?_ h hP ?_ rfl) halike hparts (by simp)
        · rw [Ty.sizeAll_append, Ty.sizeAll]
          exact Nat.add_lt_add_right hparts.sizeAll_lt _
        · exact List.forall_mem_append.2 ⟨by simpa using ht, hrest⟩
      | product id cs =>
        rw [Ty.schemeFree_product] at ht
        have hparts : Ty.Matches (.product id cs) (.product id _) .decomposeProduct cs
            (cs.map (Ty.rename (TyVar.move new))) := .product id id (List.length_map _).symm
        rw [← Ty.rename_product] at hparts
        refine .decompose (ih _ ?_ h hP (List.forall_mem_append.2 ⟨ht, hrest⟩) rfl) halike hparts
          fun v => Ty.mem_freeVars_product
        rw [Ty.sizeAll_append, Ty.sizeAll]
        exact Nat.add_lt_add_right hparts.sizeAll_lt _
      | var v =>
        cases v with
        | flexible v =>
          have hv : new v ≠ v := by
            intro heq
            rw [Ty.rename_var, TyVar.move, heq] at halike
            cases halike.symm.trans (Ty.alike_refl _)
          refine .bind hnew h hP hv fun s' hlinks => ih _ hless hlinks ?_ hrest rfl
          rintro x (hx | rfl)
          · exact hP x hx
          · exact hv
        | rigid v => cases halike.symm.trans (Ty.alike_refl _)
      | scheme id bound body => cases ht
      | invalid id => cases halike.symm.trans (Ty.alike_refl _)

/-- A type without schemes unifies with a copy in which some of its variables have moved to new
ones; the result links these variables to the new ones and says nothing else. -/
theorem exists_unify?_move {new : NodeId → NodeId} (hnew : ∀ v, new (new v) = new v) {t : Ty}
    (ht : t.schemeFree = true) :
    ∃ steps s, empty.unify? t (t.rename (TyVar.move new)) = some ⟨steps, .ok s⟩ ∧
      Links new (fun v => new v ≠ v ∧ .flexible v ∈ t.freeVars) s := by
  have hts : ∀ u ∈ [t], u.schemeFree = true := by simpa using ht
  obtain ⟨steps, s, hcourse, hlinks⟩ := (Links.empty new).relinks hnew (fun _ hP => hP.elim) hts
  exact ⟨steps, s, unify?_eq_some_iff.2 hcourse, hlinks.congr fun v => by simp⟩

end Substitution

end CoContextual
