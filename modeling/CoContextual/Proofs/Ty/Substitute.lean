import CoContextual.Proofs.Optional
import CoContextual.Proofs.Ty.Rename
import CoContextual.Substitution.Apply

/-!
# Replacing variables

`Ty.substitute f` puts `f v` in the place of every flexible variable `v` of a type. It is what
`Ty.applyWith` does to the type when every variable has a replacement (`Ty.map_type_applyWith`), and
it has a result in no other case (`Ty.map_type_applyWith_eq_some_iff`).

The laws are the usual ones: only the variables that are mentioned matter (`Ty.substitute_congr`;
`Ty.erase_substitute_congr`, up to identities), and two replacements in a row are one
(`Ty.substitute_substitute`, without schemes).
-/

namespace CoContextual

namespace TyVar

/-- What takes the place of a variable: rigid variables stay. -/
def substitute (f : NodeId → Ty) : TyVar → Ty
  | flexible v => f v
  | rigid v => .var (.rigid v)

/-- The quantifier list that is left when the variables in it have been replaced. -/
def remaining (types : List Ty) : List TyVar :=
  dropRepeats (sortById (types.filterMap Ty.asVar?))

theorem mem_of_mem_insertById {v w : TyVar} {vs : List TyVar} (h : w ∈ insertById v vs) :
    w = v ∨ w ∈ vs := by
  induction vs with
  | nil => simpa [insertById] using h
  | cons x vs ih =>
    rw [insertById] at h
    split at h
    · simpa using h
    · rcases List.mem_cons.1 h with rfl | h
      · exact .inr (.head _)
      · exact (ih h).imp_right (.tail _)

theorem mem_of_mem_sortById {w : TyVar} {vs : List TyVar} (h : w ∈ sortById vs) : w ∈ vs := by
  induction vs with
  | nil => exact h
  | cons v vs ih =>
    rcases mem_of_mem_insertById h with rfl | h
    · exact .head _
    · exact .tail _ (ih h)

theorem mem_of_mem_dropRepeats {w : TyVar} {vs : List TyVar} (h : w ∈ dropRepeats vs) : w ∈ vs := by
  fun_induction dropRepeats vs with
  | case1 => exact h
  | case2 v => exact h
  | case3 v rest ih => exact .tail _ (ih h)
  | case4 v x rest hne ih =>
    rcases List.mem_cons.1 h with rfl | h
    · exact .head _
    · exact .tail _ (ih h)

/-- What is left of a quantifier list are types that are variables. -/
theorem mem_of_mem_remaining {w : TyVar} {types : List Ty} (h : w ∈ remaining types) :
    .var w ∈ types := by
  obtain ⟨t, ht, hvar⟩ := List.mem_filterMap.1 (mem_of_mem_sortById (mem_of_mem_dropRepeats h))
  cases t with
  | var v =>
    cases hvar
    exact ht
  | _ => cases hvar

end TyVar

namespace Ty

mutual

/-- The type with `f v` in the place of every flexible variable `v`. A scheme keeps those of its
quantified variables that are still variables, and without any it is its body. -/
def substitute (f : NodeId → Ty) : Ty → Ty
  | primitive id kind => .primitive id kind
  | arrow id d c => .arrow id (substitute f d) (substitute f c)
  | product id cs => .product id (substituteAll f cs)
  | var v => v.substitute f
  | scheme id bound body =>
    match TyVar.remaining (bound.map (TyVar.substitute f)) with
    | [] => substitute f body
    | vs => .scheme id vs (substitute f body)
  | invalid id => .invalid id

/-- Replaces the variables of several types. -/
def substituteAll (f : NodeId → Ty) : List Ty → List Ty
  | [] => []
  | t :: ts => substitute f t :: substituteAll f ts

end

theorem substituteAll_eq_map (f : NodeId → Ty) (ts : List Ty) :
    substituteAll f ts = ts.map (substitute f) := by
  induction ts with
  | nil => rfl
  | cons t ts ih => rw [substituteAll, ih, List.map_cons]

section

variable (f : NodeId → Ty)

@[simp]
theorem substitute_primitive (id : NodeId) (kind : Primitive) :
    (primitive id kind).substitute f = .primitive id kind := rfl

@[simp]
theorem substitute_arrow (id : NodeId) (d c : Ty) :
    (arrow id d c).substitute f = .arrow id (d.substitute f) (c.substitute f) := rfl

@[simp]
theorem substitute_product (id : NodeId) (cs : List Ty) :
    (product id cs).substitute f = .product id (cs.map (substitute f)) := by
  rw [substitute, substituteAll_eq_map]

@[simp]
theorem substitute_flexible (v : NodeId) : (flexible v).substitute f = f v := rfl

@[simp]
theorem substitute_rigid (v : NodeId) :
    (var (.rigid v)).substitute f = .var (.rigid v) := rfl

@[simp]
theorem substitute_invalid (id : NodeId) : (invalid id).substitute f = .invalid id := rfl

end

/-! ## The erased tree -/

theorem eraseAll_eq_map (ts : List Ty) : eraseAll ts = ts.map erase := by
  induction ts with
  | nil => rfl
  | cons t ts ih => rw [eraseAll, ih, List.map_cons]

@[simp]
theorem erase_primitive (id : NodeId) (kind : Primitive) :
    (primitive id kind).erase = .primitive 0 kind := rfl

@[simp]
theorem erase_arrow (id : NodeId) (d c : Ty) :
    (arrow id d c).erase = .arrow 0 d.erase c.erase := rfl

@[simp]
theorem erase_product (id : NodeId) (cs : List Ty) :
    (product id cs).erase = .product 0 (cs.map erase) := by
  rw [erase, eraseAll_eq_map]

@[simp]
theorem erase_var (v : TyVar) : (var v).erase = .var v := rfl

@[simp]
theorem erase_scheme (id : NodeId) (bound : List TyVar) (body : Ty) :
    (scheme id bound body).erase = .scheme 0 bound body.erase := rfl

@[simp]
theorem erase_invalid (id : NodeId) : (invalid id).erase = .invalid 0 := rfl

theorem alike_refl (t : Ty) : t.alike t = true := (alike_iff_erase_eq t t).2 rfl

theorem alike_comm (t u : Ty) : t.alike u = u.alike t := by
  rw [Bool.eq_iff_iff, alike_iff_erase_eq, alike_iff_erase_eq]
  exact eq_comm

theorem agreesAll_map_erase {ts us : List Ty}
    (ih : ∀ t ∈ ts, ∀ u : Ty, t.erase.agrees u.erase = t.agrees u) :
    agreesAll (ts.map erase) (us.map erase) = agreesAll ts us := by
  induction ts generalizing us with
  | nil => cases us <;> rfl
  | cons t ts ihs =>
    cases us with
    | nil => rfl
    | cons u us =>
      rw [List.map_cons, List.map_cons, agreesAll, agreesAll, ih t (by simp),
        ihs fun t ht => ih t (by simp [ht])]

/-- Agreement does not depend on identities. -/
theorem agrees_erase (t u : Ty) : t.erase.agrees u.erase = t.agrees u := by
  induction t using ind generalizing u with
  | primitive id kind => cases u <;> simp [agrees]
  | arrow id d c ihd ihc => cases u <;> simp [agrees, ihd, ihc]
  | product id cs ih => cases u <;> simp [agrees, agreesAll_map_erase ih]
  | var v => cases u <;> simp [agrees]
  | scheme id bound body ih => cases u <;> simp [agrees, ih]
  | invalid id => simp

theorem agrees_congr {t t' u u' : Ty} (ht : t.erase = t'.erase) (hu : u.erase = u'.erase) :
    t.agrees u = t'.agrees u' := by
  rw [← agrees_erase t u, ht, hu, agrees_erase]

theorem asVar?_erase (t : Ty) : t.erase.asVar? = t.asVar? := by
  cases t <;> simp [asVar?]

/-- Which variables remain quantified depends on the erased types alone. -/
theorem remaining_congr {ts us : List Ty} (h : ts.map erase = us.map erase) :
    TyVar.remaining ts = TyVar.remaining us := by
  have hvars : ∀ l : List Ty, (l.map erase).filterMap asVar? = l.filterMap asVar? := by
    intro l
    rw [List.filterMap_map, show asVar? ∘ erase = asVar? from funext asVar?_erase]
  rw [TyVar.remaining, TyVar.remaining, ← hvars ts, ← hvars us, h]

theorem erase_varSubstitute_congr {f g : NodeId → Ty} {v : TyVar}
    (h : ∀ w, v = .flexible w → (f w).erase = (g w).erase) :
    (v.substitute f).erase = (v.substitute g).erase := by
  cases v with
  | flexible w => exact h w rfl
  | rigid w => rfl

theorem map_erase_substitute_congr {f g : NodeId → Ty} {ts us : List Ty}
    (ih : ∀ t ∈ ts, ∀ u : Ty, t.erase = u.erase → (t.substitute f).erase = (u.substitute g).erase)
    (h : ts.map erase = us.map erase) :
    (ts.map (substitute f)).map erase = (us.map (substitute g)).map erase := by
  induction ts generalizing us with
  | nil =>
    cases us with
    | nil => rfl
    | cons u us => simp at h
  | cons t ts ihs =>
    cases us with
    | nil => simp at h
    | cons u us =>
      simp only [List.map_cons, List.cons.injEq] at h ⊢
      exact ⟨ih t (by simp) u h.1, ihs (fun t ht => ih t (by simp [ht])) h.2⟩

/-- Up to identities the result depends only on the type up to identities and on what takes the
place of the variables that it mentions. -/
theorem erase_substitute_congr {f g : NodeId → Ty} {t u : Ty} (htu : t.erase = u.erase)
    (hfg : ∀ v ∈ t.mentions, (f v).erase = (g v).erase) :
    (t.substitute f).erase = (u.substitute g).erase := by
  induction t using ind generalizing u with
  | primitive id kind => cases u <;> simp_all
  | arrow id d c ihd ihc =>
    cases u with
    | arrow j d' c' =>
      simp only [erase_arrow, arrow.injEq, true_and] at htu
      simp only [mentions_arrow, List.mem_append] at hfg
      simp only [substitute_arrow, erase_arrow, arrow.injEq, true_and]
      exact ⟨ihd htu.1 fun v hv => hfg v (.inl hv), ihc htu.2 fun v hv => hfg v (.inr hv)⟩
    | _ => simp at htu
  | product id cs ih =>
    cases u with
    | product j cs' =>
      simp only [erase_product, product.injEq, true_and] at htu
      simp only [substitute_product, erase_product, product.injEq, true_and]
      refine map_erase_substitute_congr (fun t ht u htu => ih t ht htu fun v hv => ?_) htu
      exact hfg v (mem_mentions_product.2 ⟨t, ht, hv⟩)
    | _ => simp at htu
  | var v =>
    cases u with
    | var w =>
      simp only [erase_var, var.injEq] at htu
      subst htu
      rw [substitute, substitute]
      refine erase_varSubstitute_congr fun w hw => hfg w ?_
      simp [hw]
    | _ => simp at htu
  | scheme id bound body ih =>
    cases u with
    | scheme j bound' body' =>
      simp only [erase_scheme, scheme.injEq, true_and] at htu
      obtain ⟨rfl, hbody⟩ := htu
      simp only [mentions_scheme, List.mem_append, List.mem_filterMap] at hfg
      -- which quantified variables remain depends on what replaces them up to identities only
      have hrest : TyVar.remaining (bound.map (TyVar.substitute f))
          = TyVar.remaining (bound.map (TyVar.substitute g)) := by
        refine remaining_congr ?_
        rw [List.map_map, List.map_map]
        refine List.map_congr_left fun v hv => erase_varSubstitute_congr fun w hw => ?_
        exact hfg w (.inl ⟨v, hv, by simp [hw, TyVar.flexibleId?]⟩)
      have hbody' := ih hbody fun v hv => hfg v (.inr hv)
      rw [substitute, substitute, hrest]
      split
      · exact hbody'
      · rw [erase_scheme, erase_scheme, hbody']
    | _ => simp at htu
  | invalid id => cases u <;> simp_all

/-- Replacing variables keeps types alike that were alike before. -/
theorem alike_substitute {f : NodeId → Ty} {t u : Ty} (h : t.alike u = true) :
    (t.substitute f).alike (u.substitute f) = true := by
  rw [alike_iff_erase_eq] at h ⊢
  exact erase_substitute_congr h fun _ _ => rfl

/-! ## Applying replacements that may be missing -/

theorem map_type_applyVar {replace : NodeId → Option Resolved} {f : NodeId → Ty} {v : TyVar}
    (h : ∀ w, v = .flexible w → (replace w).map Resolved.type = some (f w)) :
    (applyVar replace v).map Resolved.type = some (v.substitute f) := by
  cases v with
  | flexible w => exact h w rfl
  | rigid w => rfl

/-- The types that `applyVar` finds for a list of variables. -/
theorem map_type_mapM_applyVar {replace : NodeId → Option Resolved} {f : NodeId → Ty}
    (vs : List TyVar)
    (h : ∀ w, .flexible w ∈ vs → (replace w).map Resolved.type = some (f w)) :
    ∃ rs, vs.mapM (applyVar replace) = some rs
      ∧ rs.map Resolved.type = vs.map (TyVar.substitute f) := by
  induction vs with
  | nil => exact ⟨[], by simp, rfl⟩
  | cons v vs ih =>
    obtain ⟨rs, hrs, htypes⟩ := ih fun w hw => h w (by simp [hw])
    have hv := map_type_applyVar (v := v) fun w hw => h w (by simp [hw])
    obtain ⟨r, hr, htype⟩ := Option.map_eq_some_iff.1 hv
    exact ⟨r :: rs, by simp [List.mapM_cons, hr, hrs], by simp [htype, htypes]⟩

theorem applyAllWith_eq_mapM (replace : NodeId → Option Resolved) (ts : List Ty) :
    applyAllWith replace ts = ts.mapM (applyWith replace) := by
  induction ts with
  | nil => rfl
  | cons t ts ih => rw [applyAllWith, List.mapM_cons, ih]

theorem map_type_applyAllWith {replace : NodeId → Option Resolved} {f : NodeId → Ty}
    {ts : List Ty}
    (ih : ∀ t ∈ ts, (t.applyWith replace).map Resolved.type = some (t.substitute f)) :
    ∃ rs, applyAllWith replace ts = some rs
      ∧ rs.map Resolved.type = ts.map (substitute f) := by
  induction ts with
  | nil => exact ⟨[], by simp [applyAllWith], rfl⟩
  | cons t ts ihs =>
    obtain ⟨rs, hrs, htypes⟩ := ihs fun u hu => ih u (by simp [hu])
    obtain ⟨r, hr, htype⟩ := Option.map_eq_some_iff.1 (ih t (by simp))
    exact ⟨r :: rs, by simp [applyAllWith, hr, hrs], by simp [htype, htypes]⟩

theorem remainingBound_eq {rs : List Resolved} :
    remainingBound rs = TyVar.remaining (rs.map Resolved.type) := by
  rw [remainingBound, TyVar.remaining, List.filterMap_map]
  rfl

/-- If every variable that is mentioned has a replacement, so has the type. -/
theorem map_type_applyWith {replace : NodeId → Option Resolved} {f : NodeId → Ty} {t : Ty}
    (h : ∀ v ∈ t.mentions, (replace v).map Resolved.type = some (f v)) :
    (t.applyWith replace).map Resolved.type = some (t.substitute f) := by
  induction t using ind with
  | primitive id kind => simp [applyWith]
  | arrow id d c ihd ihc =>
    simp only [mentions_arrow, List.mem_append] at h
    obtain ⟨d', hd, hdt⟩ := Option.map_eq_some_iff.1 (ihd fun v hv => h v (.inl hv))
    obtain ⟨c', hc, hct⟩ := Option.map_eq_some_iff.1 (ihc fun v hv => h v (.inr hv))
    simp [applyWith, hd, hc, hdt, hct]
  | product id cs ih =>
    obtain ⟨rs, hrs, htypes⟩ := map_type_applyAllWith fun t ht =>
      ih t ht fun v hv => h v (mem_mentions_product.2 ⟨t, ht, hv⟩)
    simp [applyWith, hrs, htypes]
  | var v =>
    rw [applyWith, substitute]
    refine map_type_applyVar fun w hw => h w ?_
    simp [hw]
  | scheme id bound body ih =>
    simp only [mentions_scheme, List.mem_append, List.mem_filterMap] at h
    obtain ⟨rs, hrs, htypes⟩ := map_type_mapM_applyVar bound fun w hw =>
      h w (.inl ⟨_, hw, rfl⟩)
    obtain ⟨b, hb, hbt⟩ := Option.map_eq_some_iff.1 (ih fun v hv => h v (.inr hv))
    simp only [applyWith, hrs, hb, remainingBound_eq, htypes, substitute, Option.bind_eq_bind,
      Option.bind_some]
    split <;> simp_all
  | invalid id => simp [applyWith]

/-- A type has a replacement only if every variable that is mentioned has one, and what is recorded
for the variable is recorded for the type. -/
theorem exists_of_applyWith {replace : NodeId → Option Resolved} {t : Ty} {r : Resolved}
    (h : t.applyWith replace = some r) :
    ∀ v ∈ t.mentions, ∃ r', replace v = some r' ∧ r'.origins ⊆ r.origins := by
  induction t using ind generalizing r with
  | primitive id kind => simp
  | arrow id d c ihd ihc =>
    rw [applyWith] at h
    obtain ⟨d', hd, h⟩ := Option.bind_eq_some_iff.1 h
    obtain ⟨c', hc, h⟩ := Option.bind_eq_some_iff.1 h
    cases h
    refine List.forall_mem_append.2 ⟨fun v hv => ?_, fun v hv => ?_⟩
    · obtain ⟨r', hr', hsub⟩ := ihd hd v hv
      exact ⟨r', hr', List.subset_append_of_subset_left _ hsub⟩
    · obtain ⟨r', hr', hsub⟩ := ihc hc v hv
      exact ⟨r', hr', List.subset_append_of_subset_right _ hsub⟩
  | product id cs ih =>
    rw [applyWith, applyAllWith_eq_mapM] at h
    obtain ⟨rs, hrs, h⟩ := Option.bind_eq_some_iff.1 h
    cases h
    intro v hv
    obtain ⟨c, hc, hv⟩ := mem_mentions_product.1 hv
    obtain ⟨c', hmem, hc'⟩ := exists_mem_of_mapM hrs hc
    obtain ⟨r', hr', hsub⟩ := ih c hc hc' v hv
    exact ⟨r', hr', fun p hp => List.mem_flatMap.2 ⟨c', hmem, hsub hp⟩⟩
  | var v =>
    cases v with
    | flexible w => exact List.forall_mem_singleton.2 ⟨r, h, List.Subset.refl _⟩
    | rigid w => simp
  | scheme id bound body ih =>
    rw [applyWith] at h
    obtain ⟨vars, hvars, h⟩ := Option.bind_eq_some_iff.1 h
    obtain ⟨body', hbody, h⟩ := Option.bind_eq_some_iff.1 h
    -- the records are the same whether or not the scheme keeps a quantifier
    have horigins : r.origins = vars.flatMap Resolved.origins ++ body'.origins := by
      split at h <;> (cases h; rfl)
    rw [horigins]
    refine List.forall_mem_append.2 ⟨fun v hv => ?_, fun v hv => ?_⟩
    · obtain ⟨w, hw, hid⟩ := List.mem_filterMap.1 hv
      cases w with
      | flexible w =>
        cases hid
        obtain ⟨r', hmem, hr'⟩ := exists_mem_of_mapM hvars hw
        refine ⟨r', hr', List.subset_append_of_subset_left _ fun p hp => ?_⟩
        exact List.mem_flatMap.2 ⟨r', hmem, hp⟩
      | rigid w => cases hid
    · obtain ⟨r', hr', hsub⟩ := ih hbody v hv
      exact ⟨r', hr', List.subset_append_of_subset_right _ hsub⟩
  | invalid id => simp

/-- A type leads to `u` exactly if the variables that it mentions lead to types with which it
becomes `u`. -/
theorem map_type_applyWith_eq_some_iff {replace : NodeId → Option Resolved} {t u : Ty} :
    (t.applyWith replace).map Resolved.type = some u ↔
      ∃ f : NodeId → Ty, (∀ v ∈ t.mentions, (replace v).map Resolved.type = some (f v)) ∧
        u = t.substitute f := by
  constructor
  · intro h
    obtain ⟨r, hr, -⟩ := Option.map_eq_some_iff.1 h
    let f : NodeId → Ty := fun v => ((replace v).map Resolved.type).getD (.flexible v)
    have hf : ∀ v ∈ t.mentions, (replace v).map Resolved.type = some (f v) := by
      intro v hv
      obtain ⟨r', hr', -⟩ := exists_of_applyWith hr v hv
      simp [f, hr']
    exact ⟨f, hf, Option.some.inj (h.symm.trans (map_type_applyWith hf))⟩
  · rintro ⟨f, hf, rfl⟩
    exact map_type_applyWith hf

/-- Only what takes the place of the variables that are mentioned matters. -/
theorem substitute_congr {f g : NodeId → Ty} {t : Ty} (h : ∀ v ∈ t.mentions, f v = g v) :
    t.substitute f = t.substitute g := by
  -- both are what applying the one replacement leads to
  let replace : NodeId → Option Resolved := fun v => some ⟨f v, []⟩
  have hf : (t.applyWith replace).map Resolved.type = some (t.substitute f) :=
    map_type_applyWith fun _ _ => rfl
  have hg : (t.applyWith replace).map Resolved.type = some (t.substitute g) :=
    map_type_applyWith fun v hv => congrArg some (h v hv)
  exact Option.some.inj (hf.symm.trans hg)

/-! ## Two replacements in a row -/

/-- Without schemes, replacing the flexible variables is replacing all variables and keeping the
rigid ones. -/
theorem substitute_eq_rename {f : NodeId → Ty} {t : Ty} (ht : t.schemeFree = true) :
    t.substitute f = t.rename (TyVar.substitute f) := by
  induction t using ind with
  | primitive id kind => simp
  | arrow id d c ihd ihc =>
    simp only [schemeFree_arrow, Bool.and_eq_true] at ht
    rw [substitute_arrow, rename_arrow, ihd ht.1, ihc ht.2]
  | product id cs ih =>
    rw [schemeFree_product] at ht
    rw [substitute_product, rename_product, List.map_congr_left fun c hc => ih c hc (ht c hc)]
  | var v => rw [substitute, rename_var]
  | scheme id bound body ih => simp at ht
  | invalid id => simp

/-- A substitution after a renaming is one renaming. -/
theorem substitute_rename {f : TyVar → Ty} {A : NodeId → Ty} {t : Ty} (ht : t.schemeFree = true) :
    (t.rename f).substitute A = t.rename fun v => (f v).substitute A := by
  induction t using ind with
  | primitive id kind => simp
  | arrow id d c ihd ihc =>
    simp only [schemeFree_arrow, Bool.and_eq_true] at ht
    rw [rename_arrow, substitute_arrow, rename_arrow, ihd ht.1, ihc ht.2]
  | product id cs ih =>
    rw [schemeFree_product] at ht
    rw [rename_product, substitute_product, rename_product, List.map_map]
    congr 1
    exact List.map_congr_left fun c hc => ih c hc (ht c hc)
  | var v => simp
  | scheme id bound body ih => simp at ht
  | invalid id => simp

/-- Two replacements in a row are one. -/
theorem substitute_substitute {f g : NodeId → Ty} {t : Ty} (ht : t.schemeFree = true) :
    (t.substitute f).substitute g = t.substitute fun v => (f v).substitute g := by
  rw [substitute_eq_rename ht, substitute_rename ht, substitute_eq_rename ht]
  congr 1
  funext v
  cases v with
  | flexible v => rfl
  | rigid v => exact substitute_rigid g v

/-- Replacing every variable by itself changes nothing. -/
theorem substitute_self {t : Ty} {f : NodeId → Ty} (ht : t.schemeFree = true)
    (hf : ∀ v ∈ t.mentions, f v = .flexible v) : t.substitute f = t := by
  induction t using ind with
  | primitive id kind => simp
  | arrow id d c ihd ihc =>
    simp only [schemeFree_arrow, Bool.and_eq_true] at ht
    simp only [mentions_arrow, List.mem_append] at hf
    simp [ihd ht.1 fun v hv => hf v (.inl hv), ihc ht.2 fun v hv => hf v (.inr hv)]
  | product id cs ih =>
    rw [schemeFree_product] at ht
    rw [substitute_product]
    congr 1
    refine (List.map_congr_left fun c hc => ?_).trans (List.map_id _)
    exact ih c hc (ht c hc) fun v hv => hf v (mem_mentions_product.2 ⟨c, hc, hv⟩)
  | var v =>
    cases v with
    | flexible w => simpa using hf w
    | rigid w => simp
  | scheme id bound body ih => simp at ht
  | invalid id => simp

/-- What holds of all that the free variables of a type are replaced by. -/
theorem forall_mem_freeVars_substitute {P : Ty → Prop} {f : NodeId → Ty} {t : Ty}
    (ht : t.schemeFree = true) (hrigid : ∀ v, P (.var (.rigid v))) :
    (∀ v ∈ t.freeVars, P (v.substitute f)) ↔ ∀ v ∈ t.mentions, P (f v) := by
  constructor
  · intro h v hv
    exact h (.flexible v) ((mem_mentions_iff ht).1 hv)
  · intro h v hv
    cases v with
    | flexible v => exact h v ((mem_mentions_iff ht).2 hv)
    | rigid v => exact hrigid v

/-- A substitution leads to a scheme-free type if and only if it puts in scheme-free types. -/
theorem schemeFree_substitute {f : NodeId → Ty} {t : Ty} (ht : t.schemeFree = true) :
    (t.substitute f).schemeFree = true ↔ ∀ v ∈ t.mentions, (f v).schemeFree = true := by
  rw [substitute_eq_rename ht, schemeFree_rename ht]
  exact forall_mem_freeVars_substitute (P := fun u => u.schemeFree = true) ht fun _ => rfl

theorem schemeFree_erase (t : Ty) : t.erase.schemeFree = t.schemeFree := by
  induction t using ind with
  | primitive id kind => simp
  | arrow id d c ihd ihc => simp [ihd, ihc]
  | product id cs ih =>
    rw [Bool.eq_iff_iff, erase_product, schemeFree_product, schemeFree_product, List.forall_mem_map]
    exact forall₂_congr fun c hc => by rw [ih c hc]
  | var v => simp
  | scheme id bound body ih => simp
  | invalid id => simp

theorem plain_substitute {f : NodeId → Ty} {t : Ty} (ht : t.plain = true)
    (hf : ∀ v ∈ t.mentions, (f v).plain = true) : (t.substitute f).plain = true := by
  have hscheme := (plain_iff.1 ht).1
  rw [substitute_eq_rename hscheme]
  refine plain_rename ht ?_
  exact (forall_mem_freeVars_substitute (P := fun u => u.plain = true) hscheme fun _ => rfl).2 hf

/-- The variables of a type after a substitution come from what its variables were replaced by. -/
theorem exists_of_mem_mentions_substitute {f : NodeId → Ty} {t : Ty} {w : NodeId}
    (hw : w ∈ (t.substitute f).mentions) : ∃ v ∈ t.mentions, w ∈ (f v).mentions := by
  induction t using ind with
  | primitive id kind => simp at hw
  | arrow id d c ihd ihc =>
    rw [substitute_arrow, mentions_arrow, List.mem_append] at hw
    rcases hw with hw | hw
    · obtain ⟨v, hv, hvw⟩ := ihd hw
      exact ⟨v, by simp [hv], hvw⟩
    · obtain ⟨v, hv, hvw⟩ := ihc hw
      exact ⟨v, by simp [hv], hvw⟩
  | product id cs ih =>
    rw [substitute_product, mem_mentions_product] at hw
    obtain ⟨u, hu, hw⟩ := hw
    obtain ⟨c, hc, rfl⟩ := List.mem_map.1 hu
    obtain ⟨v, hv, hvw⟩ := ih c hc hw
    exact ⟨v, mem_mentions_product.2 ⟨c, hc, hv⟩, hvw⟩
  | var v =>
    cases v with
    | flexible v => exact ⟨v, .head _, by simpa using hw⟩
    | rigid v => simp at hw
  | scheme id bound body ih =>
    have hbody : w ∈ (body.substitute f).mentions →
        ∃ v ∈ (scheme id bound body).mentions, w ∈ (f v).mentions := by
      intro hw
      obtain ⟨v, hv, hvw⟩ := ih hw
      exact ⟨v, by simp [hv], hvw⟩
    rw [substitute] at hw
    split at hw
    · exact hbody hw
    · rw [mentions_scheme, List.mem_append] at hw
      rcases hw with hw | hw
      · -- a quantified variable that is left is what another one was replaced by
        obtain ⟨x, hx, hxw⟩ := List.mem_filterMap.1 hw
        obtain ⟨v, hv, hvx⟩ := List.mem_map.1 (TyVar.mem_of_mem_remaining hx)
        cases x with
        | rigid x => cases hxw
        | flexible x =>
          cases hxw
          cases v with
          | rigid v => cases hvx
          | flexible v =>
            have hfv : f v = .flexible w := hvx
            refine ⟨v, ?_, by rw [hfv]; exact .head _⟩
            rw [mentions_scheme, List.mem_append]
            exact .inl (List.mem_filterMap.2 ⟨_, hv, rfl⟩)
      · exact hbody hw
  | invalid id => simp at hw

/-- Without schemes, all variables of what a variable is replaced by are in the result. -/
theorem mem_mentions_substitute {f : NodeId → Ty} {t : Ty} {v w : NodeId}
    (ht : t.schemeFree = true) (hv : v ∈ t.mentions) (hw : w ∈ (f v).mentions) :
    w ∈ (t.substitute f).mentions := by
  induction t using ind with
  | primitive id kind => simp at hv
  | arrow id d c ihd ihc =>
    rw [schemeFree_arrow, Bool.and_eq_true] at ht
    rw [mentions_arrow, List.mem_append] at hv
    rw [substitute_arrow, mentions_arrow, List.mem_append]
    exact hv.imp (ihd ht.1) (ihc ht.2)
  | product id cs ih =>
    rw [schemeFree_product] at ht
    rw [mem_mentions_product] at hv
    obtain ⟨c, hc, hv⟩ := hv
    rw [substitute_product, mem_mentions_product]
    exact ⟨_, List.mem_map_of_mem hc, ih c hc (ht c hc) hv⟩
  | var x =>
    cases x with
    | flexible x =>
      obtain rfl := List.mem_singleton.1 hv
      exact hw
    | rigid x => simp at hv
  | scheme id bound body ih => simp at ht
  | invalid id => simp at hv

/-! ## Sizes -/

@[simp]
theorem size_arrow (id : NodeId) (d c : Ty) : (arrow id d c).size = d.size + c.size + 1 := rfl

@[simp]
theorem size_product (id : NodeId) (cs : List Ty) : (product id cs).size = sizeAll cs + 1 := rfl

theorem size_pos (t : Ty) : 0 < t.size := by cases t <;> simp [size]

theorem size_le_sizeAll {ts : List Ty} {t : Ty} (h : t ∈ ts) : t.size ≤ sizeAll ts := by
  induction ts with
  | nil => cases h
  | cons u us ih =>
    rw [sizeAll]
    rcases List.mem_cons.1 h with rfl | h
    · omega
    · have := ih h
      omega

theorem sizeAll_map_erase {ts : List Ty} (ih : ∀ t ∈ ts, t.erase.size = t.size) :
    sizeAll (ts.map erase) = sizeAll ts := by
  induction ts with
  | nil => rfl
  | cons t ts ihs =>
    rw [List.map_cons, sizeAll, sizeAll, ih t (by simp), ihs fun u hu => ih u (by simp [hu])]

@[simp]
theorem size_erase (t : Ty) : t.erase.size = t.size := by
  induction t using ind with
  | product id cs ih => rw [erase_product, size_product, size_product, sizeAll_map_erase ih]
  | _ => simp_all [size]

/-- Types that are alike have the same size. -/
theorem size_eq_of_alike {t u : Ty} (h : t.alike u = true) : t.size = u.size := by
  rw [← size_erase t, (alike_iff_erase_eq t u).1 h, size_erase]

end Ty

end CoContextual
