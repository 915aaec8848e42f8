import CoContextual.Proofs.Ty.Substitute
import Mathlib.Data.List.Forall2

/-!
# Types with invalid parts as outlines

An invalid type stands for anything, so that a type with invalid parts is the outline of many types.
`Ty.outlines A t whole` says that `t` outlines `whole` once its variables are replaced by the types
that the assignment `A` gives them. A type that has no invalid part outlines one type only, up to
identities (`Ty.outlines_iff_of_plain`).

- `Ty.masks`: one type is the other with some of its parts replaced by invalid types;
- `Ty.outlines_of_masks`: masking parts of a type before or after variables are replaced;
- `Ty.size_lt_of_outlines`: what a variable stands for is a proper part of what is outlined.
-/

namespace CoContextual

namespace Ty

mutual

/-- Whether the type has the structure of `whole`, where its flexible variables have the structure
that `A` gives them and its invalid parts any structure at all. Schemes have no outline. -/
def outlines (A : NodeId → Ty) : Ty → Ty → Bool
  | invalid _, _ => true
  | primitive _ k, whole =>
    match whole with
    | primitive _ k' => k = k'
    | _ => false
  | arrow _ d c, whole =>
    match whole with
    | arrow _ d' c' => outlines A d d' && outlines A c c'
    | _ => false
  | product _ cs, whole =>
    match whole with
    | product _ cs' => outlinesAll A cs cs'
    | _ => false
  | var v, whole => (v.substitute A).alike whole
  | scheme _ _ _, _ => false

/-- Whether two lists have the same length and the first outlines the second place by place. -/
def outlinesAll (A : NodeId → Ty) : List Ty → List Ty → Bool
  | [], [] => true
  | t :: ts, whole :: wholes => outlines A t whole && outlinesAll A ts wholes
  | _, _ => false

end

/-- Whether the type is `whole` with invalid types in the place of some of its parts. Identities are
ignored. -/
def masks (t whole : Ty) : Bool := t.outlines flexible whole

variable {A : NodeId → Ty} {t whole : Ty}

theorem outlinesAll_iff {ts wholes : List Ty} :
    outlinesAll A ts wholes = true ↔ List.Forall₂ (fun t u => t.outlines A u = true) ts wholes := by
  induction ts generalizing wholes with
  | nil => cases wholes <;> simp [outlinesAll]
  | cons t ts ih => cases wholes <;> simp [outlinesAll, ih]

/-! ## What has a given outline -/

@[simp]
theorem outlines_invalid (id : NodeId) : (invalid id).outlines A whole = true := rfl

@[simp]
theorem outlines_flexible (v : NodeId) : (flexible v).outlines A whole = (A v).alike whole := rfl

@[simp]
theorem outlines_rigid (v : NodeId) :
    (var (.rigid v)).outlines A whole = (var (.rigid v)).alike whole := rfl

@[simp]
theorem outlines_scheme (id : NodeId) (bound : List TyVar) (body : Ty) :
    (scheme id bound body).outlines A whole = false := rfl

theorem outlines_primitive_iff {id : NodeId} {kind : Primitive} :
    (primitive id kind).outlines A whole = true ↔ ∃ j, whole = .primitive j kind := by
  cases whole <;> simp [outlines, eq_comm]

theorem outlines_arrow_iff {id : NodeId} {d c : Ty} :
    (arrow id d c).outlines A whole = true ↔
      ∃ j d' c', whole = .arrow j d' c' ∧ d.outlines A d' = true ∧ c.outlines A c' = true := by
  cases whole <;> simp [outlines]

theorem outlines_product_iff {id : NodeId} {cs : List Ty} :
    (product id cs).outlines A whole = true ↔
      ∃ j cs', whole = .product j cs' ∧
        List.Forall₂ (fun c u => c.outlines A u = true) cs cs' := by
  cases whole <;> simp [outlines, outlinesAll_iff]

theorem outlines_rigid_iff {v : NodeId} :
    (var (.rigid v)).outlines A whole = true ↔ whole = .var (.rigid v) := by
  cases whole <;> simp [alike, eq_comm]

/-! ## Outlines and equality -/

theorem forall₂_of_map_erase_eq {cs cs' : List Ty}
    (ih : ∀ c ∈ cs, ∀ u : Ty, c.outlines A u = true ↔ (c.substitute A).erase = u.erase) :
    List.Forall₂ (fun c u => c.outlines A u = true) cs cs' ↔
      (cs.map (substitute A)).map erase = cs'.map erase := by
  induction cs generalizing cs' with
  | nil => cases cs' <;> simp
  | cons c cs ihs =>
    cases cs' with
    | nil => simp
    | cons u us =>
      simp only [List.forall₂_cons, List.map_cons, List.cons.injEq]
      rw [ih c (by simp), ihs fun c hc => ih c (by simp [hc])]

/-- Without schemes and invalid parts, what is outlined is known up to identities. -/
theorem outlines_iff_of_plain (ht : t.plain = true) :
    t.outlines A whole = true ↔ (t.substitute A).erase = whole.erase := by
  induction t using ind generalizing whole with
  | primitive id kind =>
    rw [outlines_primitive_iff]
    cases whole <;> simp [eq_comm]
  | arrow id d c ihd ihc =>
    rw [plain_arrow] at ht
    rw [outlines_arrow_iff]
    cases whole <;> simp [ihd ht.1, ihc ht.2]
  | product id cs ih =>
    rw [plain_product] at ht
    rw [outlines_product_iff]
    cases whole with
    | product j cs' => simpa using forall₂_of_map_erase_eq fun c hc u => ih c hc (ht c hc)
    | _ => simp
  | var v =>
    rw [outlines, alike_iff_erase_eq, substitute]
  | scheme id bound body ih => simp at ht
  | invalid id => simp at ht

theorem forall₂_outlines_congr {cs us us' : List Ty}
    (ih : ∀ c ∈ cs, ∀ u u' : Ty, u.erase = u'.erase → c.outlines A u = true →
      c.outlines A u' = true)
    (hus : us.map erase = us'.map erase)
    (h : List.Forall₂ (fun c u => c.outlines A u = true) cs us) :
    List.Forall₂ (fun c u => c.outlines A u = true) cs us' := by
  induction h generalizing us' with
  | nil =>
    obtain rfl : us' = [] := by simpa using hus.symm
    exact .nil
  | @cons c u cs us hc _ ihs =>
    cases us' with
    | nil => simp at hus
    | cons u' us' =>
      simp only [List.map_cons, List.cons.injEq] at hus
      exact .cons (ih c (by simp) u u' hus.1 hc) (ihs (fun c hc => ih c (by simp [hc])) hus.2)

/-- Identities play no part in what a type outlines. -/
theorem outlines_congr {whole' : Ty} (hwhole : whole.erase = whole'.erase)
    (h : t.outlines A whole = true) : t.outlines A whole' = true := by
  induction t using ind generalizing whole whole' with
  | primitive id kind =>
    obtain ⟨j, rfl⟩ := outlines_primitive_iff.1 h
    cases whole' <;> simp_all [outlines]
  | arrow id d c ihd ihc =>
    obtain ⟨j, d', c', rfl, hd, hc⟩ := outlines_arrow_iff.1 h
    cases whole' with
    | arrow k d'' c'' =>
      simp only [erase_arrow, arrow.injEq, true_and] at hwhole
      exact outlines_arrow_iff.2 ⟨k, d'', c'', rfl, ihd hwhole.1 hd, ihc hwhole.2 hc⟩
    | _ => simp at hwhole
  | product id cs ih =>
    obtain ⟨j, us, rfl, hus⟩ := outlines_product_iff.1 h
    cases whole' with
    | product k us' =>
      simp only [erase_product, product.injEq, true_and] at hwhole
      refine outlines_product_iff.2 ⟨k, us', rfl, ?_⟩
      exact forall₂_outlines_congr (fun c hc u u' hu hc' => ih c hc hu hc') hwhole hus
    | _ => simp at hwhole
  | var v =>
    rw [outlines, alike_iff_erase_eq] at h ⊢
    exact h.trans hwhole
  | scheme id bound body ih => simp at h
  | invalid id => simp

/-! ## Masks -/

theorem forall₂_outlines_of_masks {cs us : List Ty}
    (ih : ∀ c ∈ cs, ∀ u : Ty, u.schemeFree = true → c.outlines flexible u = true →
      c.outlines A (u.substitute A) = true)
    (hus : ∀ u ∈ us, u.schemeFree = true)
    (h : List.Forall₂ (fun c u => c.outlines flexible u = true) cs us) :
    List.Forall₂ (fun c u => c.outlines A u = true) cs (us.map (substitute A)) := by
  induction h with
  | nil => exact .nil
  | cons hc _ ihs =>
    exact .cons (ih _ (by simp) _ (hus _ (by simp)) hc)
      (ihs (fun c hc => ih c (by simp [hc])) fun u hu => hus u (by simp [hu]))

/-- A type with masked parts outlines the type with its variables replaced. -/
theorem outlines_of_masks (hwhole : whole.schemeFree = true) (h : t.masks whole = true) :
    t.outlines A (whole.substitute A) = true := by
  rw [masks] at h
  induction t using ind generalizing whole with
  | primitive id kind =>
    obtain ⟨j, rfl⟩ := outlines_primitive_iff.1 h
    simp [outlines]
  | arrow id d c ihd ihc =>
    obtain ⟨j, d', c', rfl, hd, hc⟩ := outlines_arrow_iff.1 h
    simp only [schemeFree_arrow, Bool.and_eq_true] at hwhole
    rw [substitute_arrow]
    exact outlines_arrow_iff.2 ⟨j, _, _, rfl, ihd hwhole.1 hd, ihc hwhole.2 hc⟩
  | product id cs ih =>
    obtain ⟨j, us, rfl, hus⟩ := outlines_product_iff.1 h
    rw [schemeFree_product] at hwhole
    rw [substitute_product]
    refine outlines_product_iff.2 ⟨j, _, rfl, ?_⟩
    exact forall₂_outlines_of_masks (fun c hc u hu hc' => ih c hc hu hc') hwhole hus
  | var v =>
    cases v with
    | flexible v =>
      -- a variable masks nothing but itself
      rw [outlines_flexible, alike_iff_erase_eq, erase_var] at h
      cases whole <;> simp at h
      rw [← h, outlines_flexible, substitute_flexible]
      exact alike_refl _
    | rigid v =>
      obtain rfl := outlines_rigid_iff.1 h
      simpa using alike_refl _
  | scheme id bound body ih => simp at h
  | invalid id => simp

/-- A type without schemes masks itself, with no part replaced. -/
theorem masks_refl {t : Ty} (ht : t.schemeFree = true) : t.masks t = true := by
  rw [masks]
  induction t using ind with
  | primitive id kind => exact outlines_primitive_iff.2 ⟨id, rfl⟩
  | arrow id d c ihd ihc =>
    rw [schemeFree_arrow, Bool.and_eq_true] at ht
    exact outlines_arrow_iff.2 ⟨id, d, c, rfl, ihd ht.1, ihc ht.2⟩
  | product id cs ih =>
    rw [schemeFree_product] at ht
    exact outlines_product_iff.2 ⟨id, cs, rfl, List.forall₂_same.2 fun c hc => ih c hc (ht c hc)⟩
  | var v => cases v <;> exact alike_refl _
  | scheme id bound body ih => cases ht
  | invalid id => rfl

/-! ## Sizes -/

theorem size_le_of_forall₂_outlines {cs us : List Ty} {v : NodeId}
    (ih : ∀ c ∈ cs, ∀ u : Ty, c.outlines A u = true → v ∈ c.mentions →
      (A v).size < u.size ∨ c = .flexible v)
    (h : List.Forall₂ (fun c u => c.outlines A u = true) cs us)
    (hv : ∃ c ∈ cs, v ∈ c.mentions) : (A v).size ≤ sizeAll us := by
  induction h with
  | nil => simp at hv
  | @cons c u cs us hc _ ihs =>
    obtain ⟨c', hmem, hv⟩ := hv
    rw [sizeAll]
    rcases List.mem_cons.1 hmem with rfl | hmem
    · rcases ih c' (by simp) u hc hv with hlt | rfl
      · omega
      · rw [outlines_flexible] at hc
        have := size_eq_of_alike hc
        omega
    · have := ihs (fun c hc => ih c (by simp [hc])) ⟨c', hmem, hv⟩
      omega

/-- What a variable of the outline stands for is a proper part of the whole, unless the outline is
the variable itself. -/
theorem size_lt_of_outlines {v : NodeId} (h : t.outlines A whole = true) (hv : v ∈ t.mentions) :
    (A v).size < whole.size ∨ t = .flexible v := by
  induction t using ind generalizing whole with
  | primitive id kind => simp at hv
  | arrow id d c ihd ihc =>
    obtain ⟨j, d', c', rfl, hd, hc⟩ := outlines_arrow_iff.1 h
    have hparts : List.Forall₂ (fun t u => t.outlines A u = true) [d, c] [d', c'] :=
      .cons hd (.cons hc .nil)
    have hle := size_le_of_forall₂_outlines (v := v)
      (by simpa using ⟨fun u hu hv => ihd hu hv, fun u hu hv => ihc hu hv⟩) hparts
      (by simpa using hv)
    left
    rw [size_arrow]
    simp only [sizeAll] at hle
    omega
  | product id cs ih =>
    obtain ⟨j, us, rfl, hus⟩ := outlines_product_iff.1 h
    have hle := size_le_of_forall₂_outlines (fun c hc u hu hv => ih c hc hu hv) hus
      (mem_mentions_product.1 hv)
    left
    rw [size_product]
    omega
  | var w =>
    cases w with
    | flexible w =>
      simp only [mentions_flexible, List.mem_singleton] at hv
      simp [hv]
    | rigid w => simp at hv
  | scheme id bound body ih => simp at h
  | invalid id => simp at hv

end Ty

end CoContextual
