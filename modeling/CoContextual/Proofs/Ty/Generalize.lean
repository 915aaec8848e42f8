import CoContextual.Proofs.Discharge.Generalization
import CoContextual.Proofs.Unify.Renamed

/-!
# Generalizing and instantiating

Instantiating undoes generalizing, up to the names of the variables that were quantified: an
instance is the type one started from, with a new variable in the place of each variable that is not
fixed. Fixed and rigid variables are what two instances share.

- `Ty.Loose`: the variables that generalizing quantifies;
- `Ty.Reopened`: a type with new variables in the place of its loose ones;
- `Ty.instantiate_generalize`: what generalizing leaves free, that instances are the type reopened,
  what two of them share, and how the type unifies with each.
-/

namespace CoContextual

namespace Ty

/-- The variable is flexible and free in `t`, and not among the fixed ones. -/
def Loose (t : Ty) (fixed : List NodeId) (v : NodeId) : Prop :=
  .flexible v ∈ t.freeVars ∧ v ∉ fixed

/-- The type `u` is `t` with every loose variable moved to one of its own, which is among the drawn
ones and not in `t`. -/
structure Reopened (t : Ty) (fixed drawn : List NodeId) (new : NodeId → NodeId) (u : Ty) :
    Prop where
  /-- Nothing but variables is changed. -/
  type_eq : u = t.rename (TyVar.move new)
  /-- All variables but the loose ones stay. -/
  kept : ∀ v, ¬ t.Loose fixed v → new v = v
  /-- The new variables are drawn. -/
  mem_drawn : ∀ v, t.Loose fixed v → new v ∈ drawn
  /-- The new variables are none of the old ones. -/
  absent : ∀ v, t.Loose fixed v → new v ∉ t.mentions
  /-- Different variables get different new ones. -/
  injective : ∀ v w, t.Loose fixed v → t.Loose fixed w → new v = new w → v = w

variable {t : Ty} {fixed : List NodeId} {ids : IdSource}

/-! ## Generalizing -/

theorem mem_quantified_generalize {v : NodeId} :
    v ∈ t.freeFlexible.filter (fun v => v ∉ fixed) ↔ t.Loose fixed v := by
  rw [List.mem_filter, mem_freeFlexible, decide_eq_true_eq, Loose]

/-- Generalizing draws at most one identity, for the quantifier. -/
theorem reaches_generalize (t : Ty) (fixed : List NodeId) (ids : IdSource) :
    ids.Reaches ((t.generalize fixed).run ids).2 := by
  rw [generalize, quantify]
  split
  · exact .refl ids
  · exact ids.reaches_advance 1

theorem mem_freeVars_schemeOver_rigid {id v : NodeId} {bound : List NodeId} {body : Ty} :
    .rigid v ∈ (schemeOver id bound body).freeVars ↔ .rigid v ∈ body.freeVars := by
  by_cases hbound : bound = []
  · rw [schemeOver, if_pos hbound]
  · rw [schemeOver, if_neg hbound, freeVars]
    simp

theorem matrix_schemeOver {id : NodeId} {bound : List NodeId} {body : Ty}
    (h : body.schemeFree = true) : (schemeOver id bound body).matrix = body := by
  by_cases hbound : bound = []
  · rw [schemeOver, if_pos hbound]
    cases body with
    | scheme => cases h
    | _ => rfl
  · rw [schemeOver, if_neg hbound]
    rfl

/-! ## Instances -/

/-- What the variable `v` is moved to if `bound` is renewed. -/
def renewed (bound new : List NodeId) (v : NodeId) : NodeId :=
  (renewVar (bound.map .flexible) new (.flexible v)).id

section

variable {bound new : List NodeId} {v w : NodeId}

theorem renewed_of_not_mem (hv : v ∉ bound) : renewed bound new v = v := by
  rw [renewed, renewVar_of_not_mem (by simpa using hv)]
  rfl

theorem renewVar_flexible (hlen : bound.length = new.length) (hv : v ∈ bound) :
    (.flexible v, renewed bound new v) ∈ (bound.map TyVar.flexible).zip new ∧
      renewVar (bound.map .flexible) new (.flexible v) = .flexible (renewed bound new v) := by
  have hlen' : (bound.map TyVar.flexible).length = new.length := by simpa using hlen
  obtain ⟨w, hmem, hw⟩ := renewVar_of_mem (List.mem_map_of_mem hv) hlen'
  rw [renewed, hw]
  exact ⟨hmem, rfl⟩

/-- Renewing flexible variables moves them and leaves all others. -/
theorem renewVar_eq_move (hlen : bound.length = new.length) :
    renewVar (bound.map .flexible) new = TyVar.move (renewed bound new) := by
  funext x
  cases x with
  | flexible v =>
    rw [TyVar.move]
    by_cases hv : v ∈ bound
    · exact (renewVar_flexible hlen hv).2
    · rw [renewVar_of_not_mem (by simpa using hv), renewed_of_not_mem hv]
  | rigid v => exact renewVar_of_not_mem (by simp)

/-- Different variables are renewed by different ones. -/
theorem renewed_injective (hlen : bound.length = new.length) (hnodup : new.Nodup) (hv : v ∈ bound)
    (hw : w ∈ bound) (h : renewed bound new v = renewed bound new w) : v = w := by
  -- assign to each new variable the one that it renews
  obtain ⟨B, -, hB⟩ := exists_assignment .flexible Ty.var (bound.map .flexible) hnodup
  have hold := (hB _ (renewVar_flexible hlen hv).1).symm.trans
    ((congrArg B h).trans (hB _ (renewVar_flexible hlen hw).1))
  injection hold with hold
  injection hold

end

/-- An instance of a generalized type is the type reopened. -/
theorem reopened_renew (id : NodeId) (ht : t.schemeFree = true) {n : ℕ}
    (hn : (t.freeFlexible.filter fun v => v ∉ fixed).length = n)
    (hahead : ids.Ahead (· ∈ t.mentions) (ids.advance n)) :
    ∃ new, t.Reopened fixed (ids.taken n) new
      ((schemeOver id (t.freeFlexible.filter fun v => v ∉ fixed) t).renew (ids.taken n)) := by
  set bound := t.freeFlexible.filter fun v => v ∉ fixed
  have hlen : bound.length = (ids.taken n).length := by rw [hn, ids.length_taken]
  have hloose : ∀ v, t.Loose fixed v → v ∈ bound := fun v => mem_quantified_generalize.2
  have hdrawn : ∀ v ∈ bound, renewed bound (ids.taken n) v ∈ ids.taken n := fun v hv =>
    (List.of_mem_zip (renewVar_flexible hlen hv).1).2
  obtain ⟨-, -, hnodup, -⟩ := hahead.toAscending.advance (.refl _)
  refine ⟨renewed bound (ids.taken n), ?_, ?_, ?_, ?_, ?_⟩
  · rw [renew, matrix_schemeOver ht, quantified_schemeOver ht, renewVar_eq_move hlen]
  · exact fun v hv => renewed_of_not_mem fun hmem => hv (mem_quantified_generalize.1 hmem)
  · exact fun v hv => hdrawn v (hloose v hv)
  · exact fun v hv => hahead.not_of_mem_taken (hdrawn v (hloose v hv))
  · exact fun v w hv hw => renewed_injective hlen hnodup (hloose v hv) (hloose w hw)

namespace Reopened

variable {drawn drawn' : List NodeId} {new new' : NodeId → NodeId} {u u' : Ty} {v : NodeId}

theorem mem_freeVars_rigid (h : t.Reopened fixed drawn new u) (ht : t.schemeFree = true) :
    .rigid v ∈ u.freeVars ↔ .rigid v ∈ t.freeVars := by
  rw [h.type_eq, mem_freeVars_rename ht]
  constructor
  · rintro ⟨w, hw, hv⟩
    cases w with
    | flexible w => simp [TyVar.move] at hv
    | rigid w =>
      obtain rfl : v = w := by simpa [TyVar.move] using hv
      exact hw
  · exact fun hv => ⟨.rigid v, hv, .head _⟩

theorem mem_freeVars_flexible (h : t.Reopened fixed drawn new u) (ht : t.schemeFree = true) :
    .flexible v ∈ u.freeVars ↔ ∃ w, .flexible w ∈ t.freeVars ∧ v = new w := by
  rw [h.type_eq, mem_freeVars_rename ht]
  constructor
  · rintro ⟨w, hw, hv⟩
    cases w with
    | flexible w =>
      obtain rfl : v = new w := by simpa [TyVar.move] using hv
      exact ⟨w, hw, rfl⟩
    | rigid w => simp [TyVar.move] at hv
  · rintro ⟨w, hw, rfl⟩
    exact ⟨.flexible w, hw, .head _⟩

/-- A loose variable moves away from where it was. -/
theorem new_ne (h : t.Reopened fixed drawn new u) (hv : t.Loose fixed v) : new v ≠ v := by
  intro heq
  refine h.absent v hv ?_
  rw [heq]
  exact mem_mentions_of_mem_freeVars hv.1

/-- What has moved does not move again. -/
theorem new_new (h : t.Reopened fixed drawn new u) (v : NodeId) : new (new v) = new v := by
  by_cases hv : t.Loose fixed v
  · exact h.kept _ fun hloose => h.absent v hv (mem_mentions_of_mem_freeVars hloose.1)
  · rw [h.kept v hv, h.kept v hv]

/-- The type unifies with the reopened one, which links the loose variables and no others. -/
theorem exists_unify? (h : t.Reopened fixed drawn new u) (ht : t.schemeFree = true) :
    ∃ steps s, Substitution.empty.unify? t u = some ⟨steps, .ok s⟩ ∧
      s.Links new (t.Loose fixed) := by
  obtain ⟨steps, s, hunify, hlinks⟩ := Substitution.exists_unify?_move h.new_new ht
  refine ⟨steps, s, h.type_eq ▸ hunify, hlinks.congr fun v => ⟨fun ⟨hmoved, hfree⟩ => ?_, ?_⟩⟩
  · exact by_contra fun hloose => hmoved (h.kept v hloose)
  · intro hv
    exact ⟨h.new_ne hv, hv.1⟩

/-- Two reopened types with different new variables share the variables that are not loose. -/
theorem shared (h : t.Reopened fixed drawn new u) (h' : t.Reopened fixed drawn' new' u')
    (ht : t.schemeFree = true) (hapart : ∀ w ∈ drawn, w ∉ drawn') :
    .flexible v ∈ u.freeVars ∧ .flexible v ∈ u'.freeVars ↔
      .flexible v ∈ t.freeVars ∧ v ∈ fixed := by
  rw [h.mem_freeVars_flexible ht, h'.mem_freeVars_flexible ht]
  constructor
  · rintro ⟨⟨w, hw, rfl⟩, ⟨w', hw', heq⟩⟩
    -- a new variable of the first is neither new in the second nor an old one
    have hw_fixed : w ∈ fixed := by
      by_contra hloose
      by_cases hw'_fixed : w' ∈ fixed
      · rw [h'.kept w' fun hloose' => hloose'.2 hw'_fixed] at heq
        exact h.absent w ⟨hw, hloose⟩ (heq ▸ mem_mentions_of_mem_freeVars hw')
      · exact hapart _ (h.mem_drawn w ⟨hw, hloose⟩) (heq ▸ h'.mem_drawn w' ⟨hw', hw'_fixed⟩)
    rw [h.kept w fun hloose => hloose.2 hw_fixed]
    exact ⟨hw, hw_fixed⟩
  · rintro ⟨hv, hfixed⟩
    have hstays : ¬ t.Loose fixed v := fun hloose => hloose.2 hfixed
    exact ⟨⟨v, hv, (h.kept v hstays).symm⟩, ⟨v, hv, (h'.kept v hstays).symm⟩⟩

end Reopened

/-- Instantiating undoes generalizing up to new names. Generalizing leaves the fixed and the rigid
variables free. Both of two instances drawn in a row are the type with a new variable in the place
of each other one; they share the fixed and the rigid variables; and the type unifies with each,
which links the generalized variables to the new ones and says nothing else. -/
theorem instantiate_generalize {t g u u' : Ty} {fixed : List NodeId}
    {ids ids₁ ids₂ ids₃ : IdSource} (ht : t.schemeFree = true)
    (hg : (t.generalize fixed).run ids = (g, ids₁)) (hu : g.instantiate.run ids₁ = (u, ids₂))
    (hu' : g.instantiate.run ids₂ = (u', ids₃)) (hahead : ids.Ahead (· ∈ t.mentions) ids₃) :
    (∀ v, .flexible v ∈ g.freeVars ↔ .flexible v ∈ t.freeVars ∧ v ∈ fixed) ∧
      (∀ v, .rigid v ∈ g.freeVars ↔ .rigid v ∈ t.freeVars) ∧
      ∃ (n : ℕ) (new new' : NodeId → NodeId), ids₂ = ids₁.advance n ∧ ids₃ = ids₂.advance n ∧
        t.Reopened fixed (ids₁.taken n) new u ∧ t.Reopened fixed (ids₂.taken n) new' u' ∧
        (∀ v, .flexible v ∈ u.freeVars ∧ .flexible v ∈ u'.freeVars ↔
          .flexible v ∈ t.freeVars ∧ v ∈ fixed) ∧
        (∀ v, .rigid v ∈ u.freeVars ∧ .rigid v ∈ u'.freeVars ↔ .rigid v ∈ t.freeVars) ∧
        (∃ steps s, Substitution.empty.unify? t u = some ⟨steps, .ok s⟩ ∧
          s.Links new (t.Loose fixed)) ∧
        ∃ steps s, Substitution.empty.unify? t u' = some ⟨steps, .ok s⟩ ∧
          s.Links new' (t.Loose fixed) := by
  obtain ⟨id, hid⟩ := generalize_run t fixed ids
  obtain rfl : g = schemeOver id _ t := (congrArg Prod.fst hg).symm.trans hid
  obtain ⟨m, hm⟩ := reaches_generalize t fixed ids
  obtain rfl : ids₁ = ids.advance m := (congrArg Prod.snd hg).symm.trans hm
  -- one variable is drawn for each quantified one
  set bound := t.freeFlexible.filter fun v => v ∉ fixed
  rw [instantiate_run, quantified_schemeOver ht, List.length_map] at hu hu'
  cases hu
  cases hu'
  have hlast := IdSource.reaches_advance bound.length ((ids.advance m).advance bound.length)
  -- what is drawn second is neither in the type nor among what was drawn first
  have hfirst := hahead.advance ((IdSource.reaches_advance _ _).trans hlast)
  have hsecond := hfirst.advance hlast
  obtain ⟨new, hnew⟩ := reopened_renew id ht rfl
    ((hfirst.of_reaches (IdSource.reaches_advance _ _) hlast).mono fun _ => .inl)
  obtain ⟨new', hnew'⟩ := reopened_renew id ht rfl (hsecond.mono fun _ h => .inl (.inl h))
  have hapart : ∀ w ∈ (ids.advance m).taken bound.length,
      w ∉ ((ids.advance m).advance bound.length).taken bound.length := fun w hw hw' =>
    hsecond.not_of_mem_taken hw' (.inr hw)
  refine ⟨fun v => ?_, fun v => mem_freeVars_schemeOver_rigid, bound.length, new, new', rfl, rfl,
    hnew, hnew', fun v => hnew.shared hnew' ht hapart, fun v => ?_, hnew.exists_unify? ht,
    hnew'.exists_unify? ht⟩
  · rw [mem_freeVars_schemeOver, mem_quantified_generalize, Loose, not_and_not_right]
    exact and_congr_right fun hv => ⟨fun h => h hv, fun h _ => h⟩
  · rw [hnew.mem_freeVars_rigid ht, hnew'.mem_freeVars_rigid ht, and_self]

/-- A product in which one variable occurs twice, one is fixed, and one is rigid. Each instance has
two new variables, and only what the first stands for is met twice. -/
theorem instantiate_generalize_repeated : ∃ (t g u u' : Ty) (ids₁ ids₂ ids₃ : IdSource),
    t = .product 10 [.flexible 1, .arrow 11 (.flexible 2) (.var (.rigid 5)), .flexible 1,
      .flexible 3] ∧
    t.schemeFree = true ∧
    (t.generalize [2, 7]).run (.pinnedAt 20) = (g, ids₁) ∧
    g.instantiate.run ids₁ = (u, ids₂) ∧ g.instantiate.run ids₂ = (u', ids₃) ∧
    IdSource.Ahead (· ∈ t.mentions) (.pinnedAt 20) ids₃ ∧
    g = .scheme 20 [.flexible 1, .flexible 3] t ∧
    .flexible 2 ∈ g.freeVars ∧ .flexible 3 ∉ g.freeVars ∧
    u = .product 10 [.flexible 21, .arrow 11 (.flexible 2) (.var (.rigid 5)), .flexible 21,
      .flexible 22] ∧
    u' = .product 10 [.flexible 23, .arrow 11 (.flexible 2) (.var (.rigid 5)), .flexible 23,
      .flexible 24] ∧
    ∃ steps s, Substitution.empty.unify? t u = some ⟨steps, .ok s⟩ ∧
      s.get? 1 = some (.redirect 21) ∧ s.get? 3 = some (.redirect 22) ∧ s.get? 2 = none := by
  let t : Ty := .product 10 [.flexible 1, .arrow 11 (.flexible 2) (.var (.rigid 5)), .flexible 1,
    .flexible 3]
  let g : Ty := .scheme 20 [.flexible 1, .flexible 3] t
  let u : Ty := .product 10 [.flexible 21, .arrow 11 (.flexible 2) (.var (.rigid 5)), .flexible 21,
    .flexible 22]
  let u' : Ty := .product 10 [.flexible 23, .arrow 11 (.flexible 2) (.var (.rigid 5)),
    .flexible 23, .flexible 24]
  have hg : (t.generalize [2, 7]).run (.pinnedAt 20) = (g, .pinnedAt 21) := rfl
  have hu : g.instantiate.run (.pinnedAt 21) = (u, .pinnedAt 23) := rfl
  have hu' : g.instantiate.run (.pinnedAt 23) = (u', .pinnedAt 25) := rfl
  have ht : t.schemeFree = true := rfl
  have hahead : IdSource.Ahead (· ∈ t.mentions) (.pinnedAt 20) (.pinnedAt 25) :=
    ⟨⟨by decide, .inr rfl⟩, by decide⟩
  obtain ⟨hflexible, -, n, new, new', -, -, hnew, -, -, -, ⟨steps, s, hunify, hlinks⟩, -⟩ :=
    instantiate_generalize ht hg hu hu' hahead
  -- the instance is at hand, so that the new variables are known
  obtain ⟨h1, -, -, h3⟩ : 21 = new 1 ∧ 2 = new 2 ∧ 21 = new 1 ∧ 22 = new 3 := by
    simpa [t, u, TyVar.move] using hnew.type_eq
  refine ⟨t, g, u, u', _, _, _, rfl, ht, hg, hu, hu', hahead, rfl, (hflexible 2).2 (by decide),
    fun h => absurd ((hflexible 3).1 h).2 (by decide), rfl, rfl, steps, s, hunify, ?_, ?_,
    hlinks.unlinked 2 fun h => h.2 (by decide)⟩
  · rw [hlinks.linked 1 ⟨by decide, by decide⟩, ← h1]
  · rw [hlinks.linked 3 ⟨by decide, by decide⟩, ← h3]

end Ty

end CoContextual
