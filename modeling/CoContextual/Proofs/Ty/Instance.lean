import CoContextual.Proofs.Substitution.Origins
import CoContextual.Proofs.Supply

/-!
# Instances of polymorphic types

An instance of a type has types of choice in the place of its quantified variables; what becomes of
the other variables is up to an assignment (`Ty.HasInstance`). A type that is no scheme has one
instance.

Instantiating puts fresh variables in the place of the quantified ones. Whatever the fresh
variables are assigned, this gives an instance (`Ty.hasInstance_renew`), and every instance comes
about by a suitable assignment of them (`Ty.HasInstance.exists_renew`).
-/

namespace CoContextual

namespace Ty

/-- Renaming what has its identities erased is renaming to what has them erased. -/
theorem erase_rename (f : TyVar → Ty) (t : Ty) :
    (t.rename f).erase = t.erase.rename fun v => (f v).erase := by
  induction t using ind generalizing f with
  | product id cs ih =>
    rw [rename_product, erase_product, erase_product, rename_product, List.map_map, List.map_map]
    exact congrArg _ (List.map_congr_left fun c hc => ih c hc f)
  | scheme id bound body ih =>
    rw [rename, erase_scheme, erase_scheme, rename, ih]
    simp only [apply_ite erase, erase_var]
  | arrow id d c ihd ihc => simp [ihd, ihc]
  | _ => simp

/-- Renaming depends on the free variables only. -/
theorem erase_rename_congr {f g : TyVar → Ty} {t : Ty} (ht : t.schemeFree = true)
    (h : ∀ v ∈ t.freeVars, (f v).erase = (g v).erase) :
    (t.rename f).erase = (t.rename g).erase := by
  induction t using ind with
  | primitive id kind => simp
  | arrow id d c ihd ihc =>
    simp only [schemeFree_arrow, Bool.and_eq_true] at ht
    simp only [freeVars_arrow, List.mem_append] at h
    rw [rename_arrow, rename_arrow, erase_arrow, erase_arrow, ihd ht.1 fun v hv => h v (.inl hv),
      ihc ht.2 fun v hv => h v (.inr hv)]
  | product id cs ih =>
    rw [schemeFree_product] at ht
    rw [rename_product, rename_product, erase_product, erase_product, List.map_map, List.map_map]
    congr 1
    refine List.map_congr_left fun c hc => ih c hc (ht c hc) fun v hv => ?_
    exact h v (mem_freeVars_product.2 ⟨c, hc, hv⟩)
  | var v => simpa using h v
  | scheme id bound body ih => simp at ht
  | invalid id => simp

/-! ## Instances -/

/-- The variables that the type quantifies. -/
def quantified : Ty → List TyVar
  | scheme _ bound _ => bound
  | _ => []

/-- The type under the quantifier. -/
def matrix : Ty → Ty
  | scheme _ _ body => body
  | t => t

theorem quantified_erase (t : Ty) : t.erase.quantified = t.quantified := by
  cases t <;> simp [quantified]

theorem matrix_erase (t : Ty) : t.erase.matrix = t.matrix.erase := by
  cases t <;> simp [matrix]

theorem mem_freeVars_iff {v : TyVar} {t : Ty} :
    v ∈ t.freeVars ↔ v ∈ t.matrix.freeVars ∧ v ∉ t.quantified := by
  cases t with
  | scheme id bound body => simp [freeVars, matrix, quantified]
  | _ => simp [matrix, quantified]

/-- The type `u` comes of `t` with types of choice in the place of the quantified variables. All
other variables are replaced as `A` says. -/
def HasInstance (A : NodeId → Ty) (t u : Ty) : Prop :=
  ∃ σ : TyVar → Ty,
    u.alike (t.matrix.rename fun v => if v ∈ t.quantified then σ v else v.substitute A) = true

/-- A type that a name can be declared with: without a scheme under its quantifier, and without an
invalid part. -/
def declarable (t : Ty) : Bool := t.matrix.plain

/-- A type that a name can be declared with, and that no variable is free in. -/
def closed (t : Ty) : Bool := t.declarable && t.freeVars.isEmpty

theorem closed_iff {t : Ty} : t.closed = true ↔ t.matrix.plain = true ∧ t.freeVars = [] := by
  simp [closed, declarable]

theorem HasInstance.congr {A : NodeId → Ty} {t u u' : Ty} (h : t.HasInstance A u)
    (hu : u.erase = u'.erase) : t.HasInstance A u' := by
  obtain ⟨σ, hσ⟩ := h
  refine ⟨σ, ?_⟩
  rw [alike_iff_erase_eq] at hσ ⊢
  rw [← hu, hσ]

/-- The instances of a type depend on the free variables only. -/
theorem HasInstance.of_agree {A B : NodeId → Ty} {t u : Ty} (ht : t.declarable = true)
    (h : t.HasInstance A u) (hAB : ∀ v, .flexible v ∈ t.freeVars → A v = B v) :
    t.HasInstance B u := by
  obtain ⟨σ, hσ⟩ := h
  refine ⟨σ, ?_⟩
  rw [alike_iff_erase_eq] at hσ ⊢
  rw [hσ]
  refine erase_rename_congr (plain_iff.1 ht).1 fun v hv => ?_
  split
  · rfl
  · rename_i hquantified
    cases v with
    | flexible v => exact congrArg erase (hAB v (mem_freeVars_iff.2 ⟨hv, hquantified⟩))
    | rigid v => rfl

/-! ## Instantiation -/

/-- Puts new variables in the place of those in `bound`; of two places of one variable the later
counts. -/
def renewVar (bound : List TyVar) (new : List NodeId) (v : TyVar) : Ty :=
  ((Table.ofList (bound.zip (new.map Ty.flexible))).get? v).getD (.var v)

/-- The type with new variables in the place of the quantified ones. -/
def renew (t : Ty) (new : List NodeId) : Ty := t.matrix.rename (renewVar t.quantified new)

/-- Types that are alike have instances that are alike, if these are made with the same new
variables. -/
theorem erase_renew_congr {t u : Ty} (h : t.erase = u.erase) (new : List NodeId) :
    (t.renew new).erase = (u.renew new).erase := by
  rw [renew, renew, erase_rename, erase_rename, ← matrix_erase, ← matrix_erase,
    ← quantified_erase t, ← quantified_erase u, h]

theorem renewVar_of_mem {bound : List TyVar} {new : List NodeId} {v : TyVar} (hv : v ∈ bound)
    (hlen : bound.length = new.length) :
    ∃ w, (v, w) ∈ bound.zip new ∧ renewVar bound new v = .flexible w := by
  -- the lists are of one length, so that no quantified variable is left without a new one
  have hkey : ((Table.ofList (bound.zip (new.map Ty.flexible))).get? v).isSome := by
    refine Table.get?_ofList_isSome ?_
    rwa [List.map_fst_zip (by simp [hlen])]
  obtain ⟨t, ht⟩ := Option.isSome_iff_exists.1 hkey
  have hmem := Table.mem_of_get?_ofList ht
  rw [List.zip_map_right, List.mem_map] at hmem
  obtain ⟨⟨v', w⟩, hmem, heq⟩ := hmem
  obtain ⟨rfl, rfl⟩ := Prod.mk.inj heq
  refine ⟨w, hmem, ?_⟩
  rw [renewVar, ht]
  rfl

theorem renewVar_of_not_mem {bound : List TyVar} {new : List NodeId} {v : TyVar}
    (hv : v ∉ bound) : renewVar bound new v = .var v := by
  rw [renewVar]
  cases hget : (Table.ofList (bound.zip (new.map Ty.flexible))).get? v with
  | none => rfl
  | some t => exact absurd (List.of_mem_zip (Table.mem_of_get?_ofList hget)).1 hv

/-- Instantiating draws one variable per quantified one. -/
theorem instantiate_run (t : Ty) (ids : IdSource) :
    t.instantiate.run ids
      = (t.renew (ids.taken t.quantified.length), ids.advance t.quantified.length) := by
  cases t with
  | scheme id bound body =>
    -- the monadic body, with the draws as one step
    show (fun p : List Ty × IdSource =>
      (body.rename fun v => ((Table.ofList (bound.zip p.1)).get? v).getD (.var v), p.2))
      ((bound.mapM fun _ => Ty.fresh).run ids) = _
    rw [mapM_fresh]
    rfl
  | _ => exact congrArg (·, ids) (rename_self _).symm

theorem plain_renew {t : Ty} (ht : t.declarable = true) {new : List NodeId}
    (hlen : t.quantified.length = new.length) : (t.renew new).plain = true := by
  refine plain_rename ht fun v _ => ?_
  by_cases hv : v ∈ t.quantified
  · obtain ⟨w, -, hw⟩ := renewVar_of_mem hv hlen
    rw [hw]
    rfl
  · rw [renewVar_of_not_mem hv]
    rfl

theorem mem_of_mem_mentions_renewVar {t : Ty} {new : List NodeId} {v : TyVar} {w : NodeId}
    (hlen : t.quantified.length = new.length) (hv : v ∈ t.matrix.freeVars)
    (hw : w ∈ (renewVar t.quantified new v).mentions) : w ∈ new ∨ .flexible w ∈ t.freeVars := by
  by_cases hmem : v ∈ t.quantified
  · obtain ⟨x, hx, heq⟩ := renewVar_of_mem hmem hlen
    rw [heq, mentions_flexible, List.mem_singleton] at hw
    exact .inl (hw ▸ (List.of_mem_zip hx).2)
  · rw [renewVar_of_not_mem hmem] at hw
    cases v with
    | flexible x =>
      obtain rfl := List.mem_singleton.1 hw
      exact .inr (mem_freeVars_iff.2 ⟨hv, hmem⟩)
    | rigid x => simp at hw

/-- The variables of a renewed type are new, or they were free before. -/
theorem mem_of_mem_mentions_renew {t : Ty} (ht : t.declarable = true) {new : List NodeId}
    (hlen : t.quantified.length = new.length) {w : NodeId} (hw : w ∈ (t.renew new).mentions) :
    w ∈ new ∨ .flexible w ∈ t.freeVars := by
  obtain ⟨v, hv, hw⟩ := exists_of_mem_mentions_rename (plain_iff.1 ht).1 hw
  exact mem_of_mem_mentions_renewVar hlen hv hw

/-- The variables of a renewed type are new, or they occurred before; here schemes may stand under
the quantifier. -/
theorem mem_mentions_renew {t : Ty} {new : List NodeId}
    (hlen : t.quantified.length = new.length) {w : NodeId} (hw : w ∈ (t.renew new).mentions) :
    w ∈ new ∨ w ∈ t.mentions := by
  rcases mem_mentions_rename hw with hw | ⟨v, hv, hw⟩
  · right
    cases t with
    | scheme id bound body =>
      rw [mentions_scheme]
      exact List.mem_append_right _ hw
    | _ => exact hw
  · exact (mem_of_mem_mentions_renewVar hlen hv hw).imp_right mem_mentions_of_mem_freeVars

/-- Whatever the new variables are assigned, a renewed type is an instance. -/
theorem hasInstance_renew {t : Ty} (ht : t.declarable = true) (new : List NodeId)
    (A : NodeId → Ty) : t.HasInstance A ((t.renew new).substitute A) := by
  -- the types of choice are what the new variables are assigned
  refine ⟨fun v => (renewVar t.quantified new v).substitute A, ?_⟩
  rw [alike_iff_erase_eq, renew, substitute_rename (plain_iff.1 ht).1]
  refine erase_rename_congr (plain_iff.1 ht).1 fun v _ => ?_
  split
  · rfl
  · rename_i hv
    rw [renewVar_of_not_mem hv]
    cases v with
    | flexible v => rw [substitute_flexible]; rfl
    | rigid v => rw [substitute_rigid]; rfl

/-- New variables can be assigned as their places demand. -/
theorem exists_assignment (A : NodeId → Ty) (σ : TyVar → Ty) (bound : List TyVar)
    {new : List NodeId} (hnodup : new.Nodup) :
    ∃ B : NodeId → Ty, (∀ w, w ∉ new → B w = A w) ∧ ∀ p ∈ bound.zip new, B p.2 = σ p.1 := by
  induction bound generalizing new with
  | nil => exact ⟨A, fun _ _ => rfl, by simp⟩
  | cons v bound ih =>
    cases new with
    | nil => exact ⟨A, fun _ _ => rfl, by simp⟩
    | cons w new =>
      obtain ⟨hw, hnodup⟩ := List.nodup_cons.1 hnodup
      obtain ⟨B, hold, hnew⟩ := ih hnodup
      -- the new variables are distinct, so that assigning one does not disturb the others
      refine ⟨Function.update B w (σ v), fun x hx => ?_, ?_⟩
      · obtain ⟨hxw, hx⟩ := not_or.1 (fun h => hx (List.mem_cons.2 h))
        rw [Function.update_of_ne hxw, hold x hx]
      · rw [List.zip_cons_cons, List.forall_mem_cons]
        refine ⟨Function.update_self .., fun p hp => ?_⟩
        have hne : p.2 ≠ w := fun h => hw (h ▸ (List.of_mem_zip hp).2)
        rw [Function.update_of_ne hne, hnew p hp]

/-- Every instance comes about by an assignment of the new variables. -/
theorem HasInstance.exists_renew {A : NodeId → Ty} {t u : Ty} (h : t.HasInstance A u)
    (ht : t.declarable = true) {new : List NodeId} (hlen : t.quantified.length = new.length)
    (hnodup : new.Nodup) (hfree : ∀ w ∈ new, .flexible w ∉ t.freeVars) :
    ∃ B : NodeId → Ty, (∀ w, w ∉ new → B w = A w) ∧
      u.erase = ((t.renew new).substitute B).erase := by
  obtain ⟨σ, hσ⟩ := h
  obtain ⟨B, hold, hnew⟩ := exists_assignment A σ t.quantified hnodup
  refine ⟨B, hold, ?_⟩
  rw [(alike_iff_erase_eq _ _).1 hσ, renew, substitute_rename (plain_iff.1 ht).1]
  refine erase_rename_congr (plain_iff.1 ht).1 fun v hv => ?_
  split
  -- a quantified variable: its new variable is assigned the type of choice
  · rename_i hmem
    obtain ⟨w, hw, heq⟩ := renewVar_of_mem hmem hlen
    rw [heq, substitute_flexible, hnew _ hw]
  -- a free variable: it is none of the new ones, so that the old assignment still counts
  · rename_i hmem
    rw [renewVar_of_not_mem hmem]
    cases v with
    | flexible v =>
      have hv : v ∉ new := fun h => hfree v h (mem_freeVars_iff.2 ⟨hv, hmem⟩)
      rw [substitute_flexible, hold v hv]
      rfl
    | rigid v => rw [substitute_rigid]; rfl

end Ty

end CoContextual
