import CoContextual.Proofs.Ty.Generalize
import CoContextual.Proofs.Unify.Solution

/-!
# Resolving and instantiating

An instance of a generalized type can be made before or after more is learned about the variables
that were left free: resolving the quantified type and then instantiating it gives the same type as
resolving its instance (`Substitution.Acyclic.resolve?_instantiate`).

Both ways are one replacement of the variables of the type that was generalized, and the two
replacements are compared variable by variable (`Ty.renew_schemeOver_substitute`). A quantified
variable is renewed by a variable that the store has not seen, and whatever else is replaced brings
in no quantified variable, so that nothing is captured.
-/

namespace CoContextual

namespace Ty

/-- Renaming depends on the free variables only. -/
theorem rename_congr {f g : TyVar → Ty} {t : Ty} (h : ∀ v ∈ t.freeVars, f v = g v) :
    t.rename f = t.rename g := by
  induction t using ind generalizing f g with
  | primitive id kind => rfl
  | arrow id d c ihd ihc =>
    simp only [freeVars_arrow, List.mem_append] at h
    rw [rename_arrow, rename_arrow, ihd fun v hv => h v (.inl hv), ihc fun v hv => h v (.inr hv)]
  | product id cs ih =>
    rw [rename_product, rename_product]
    congr 1
    exact List.map_congr_left fun c hc => ih c hc fun v hv =>
      h v (mem_freeVars_product.2 ⟨c, hc, hv⟩)
  | var v => exact h v (.head _)
  | scheme id bound body ih =>
    rw [rename, rename]
    congr 1
    refine ih fun v hv => ?_
    split
    · rfl
    · rename_i hbound
      exact h v (by simp [freeVars, hv, hbound])
  | invalid id => rfl

/-- Two renamings in a row are one. -/
theorem rename_rename {f g : TyVar → Ty} {t : Ty} (ht : t.schemeFree = true) :
    (t.rename f).rename g = t.rename fun v => (f v).rename g := by
  induction t using ind with
  | primitive id kind => simp
  | arrow id d c ihd ihc =>
    simp only [schemeFree_arrow, Bool.and_eq_true] at ht
    rw [rename_arrow, rename_arrow, rename_arrow, ihd ht.1, ihc ht.2]
  | product id cs ih =>
    rw [schemeFree_product] at ht
    rw [rename_product, rename_product, rename_product, List.map_map]
    congr 1
    exact List.map_congr_left fun c hc => ih c hc (ht c hc)
  | var v => simp
  | scheme id bound body ih => simp at ht
  | invalid id => simp

section

variable {bound new : List NodeId} {f : NodeId → Ty}

/-- Renewing variables that a type does not mention leaves it as it is. -/
theorem rename_renewVar_of_not_mem {t : Ty} (ht : ∀ v ∈ t.mentions, v ∉ bound) :
    t.rename (renewVar (bound.map .flexible) new) = t := by
  refine (rename_congr fun v hv => ?_).trans (rename_self t)
  refine renewVar_of_not_mem fun hmem => ?_
  obtain ⟨w, hw, rfl⟩ := List.mem_map.1 hmem
  exact ht w (mem_mentions_of_mem_freeVars hv) hw

/-- What becomes of one variable if it is replaced and the quantified variables are renewed, in
either order. -/
theorem rename_renewVar_substitute (hlen : bound.length = new.length)
    (hbound : ∀ v ∈ bound, f v = .flexible v) (hnew : ∀ v ∈ new, f v = .flexible v)
    (hapart : ∀ v, v ∉ bound → ∀ w ∈ (f v).mentions, w ∉ bound) (v : TyVar) :
    (v.substitute f).rename (renewVar (bound.map .flexible) new)
      = (renewVar (bound.map .flexible) new v).substitute f := by
  cases v with
  | rigid v =>
    have hrigid : renewVar (bound.map .flexible) new (.rigid v) = .var (.rigid v) :=
      renewVar_of_not_mem (by simp)
    rw [TyVar.substitute, rename_var, hrigid, substitute_rigid]
  | flexible v =>
    rw [TyVar.substitute]
    by_cases hv : v ∈ bound
    -- a quantified variable stays, and the store says nothing of the one that renews it
    · obtain ⟨hmem, hrenew⟩ := renewVar_flexible hlen hv
      rw [hbound v hv, rename_var, hrenew, substitute_flexible, hnew _ (List.of_mem_zip hmem).2]
    · rw [rename_renewVar_of_not_mem (hapart v hv), renewVar_of_not_mem (by simpa using hv),
        substitute_flexible]

/-- Renewing the quantified variables and replacing the others can be done in either order. -/
theorem renew_schemeOver_substitute {t : Ty} (ht : t.schemeFree = true)
    (hf : ∀ v ∈ t.mentions, (f v).schemeFree = true) (hlen : bound.length = new.length)
    (hbound : ∀ v ∈ bound, f v = .flexible v) (hnew : ∀ v ∈ new, f v = .flexible v)
    (hapart : ∀ v, v ∉ bound → ∀ w ∈ (f v).mentions, w ∉ bound) (id : NodeId) :
    (schemeOver id bound (t.substitute f)).renew new
      = ((schemeOver id bound t).renew new).substitute f := by
  have hresolved : (t.substitute f).schemeFree = true := (schemeFree_substitute ht).2 hf
  rw [renew, renew, matrix_schemeOver ht, matrix_schemeOver hresolved, quantified_schemeOver ht,
    quantified_schemeOver hresolved]
  calc (t.substitute f).rename (renewVar (bound.map .flexible) new)
      = t.rename fun v => (v.substitute f).rename (renewVar (bound.map .flexible) new) := by
        rw [substitute_eq_rename ht, rename_rename ht]
    _ = t.rename fun v => (renewVar (bound.map .flexible) new v).substitute f :=
        rename_congr fun v _ => rename_renewVar_substitute hlen hbound hnew hapart v
    _ = (t.rename (renewVar (bound.map .flexible) new)).substitute f := (substitute_rename ht).symm

end

end Ty

namespace Substitution

variable {s : Substitution}

/-- What a variable resolves to is scheme-free if all entries are. -/
theorem Acyclic.schemeFree_image (h : s.Acyclic)
    (hscheme : AllEntries (fun u => u.schemeFree = true) s) (v : NodeId) :
    (s.image v).schemeFree = true :=
  h.image_induction (P := fun _ t => t.schemeFree = true) (fun _ _ => rfl)
    (fun v e he ih => (Ty.schemeFree_substitute (hscheme v e he)).2 ih) v

/-- What a variable resolves to mentions the variable itself or variables in entries. -/
theorem Acyclic.among_image {K : NodeId → Prop} (h : s.Acyclic) (hs : s.Among K) {v : NodeId}
    (hv : K v) : (s.image v).Among K := by
  refine h.image_induction (P := fun v t => K v → t.Among K) (fun v _ hv w hw => ?_) ?_ v hv
  · exact List.mem_singleton.1 hw ▸ hv
  · intro v e he ih _ w hw
    obtain ⟨x, hx, hw⟩ := Ty.exists_of_mem_mentions_substitute hw
    exact ih x hx (hs.entries v e he x hx) w hw

/-- Resolving and instantiating commute. If a type without schemes is generalized, and an acyclic
store without schemes neither binds nor mentions what is quantified, then resolving the generalized
type and instantiating the result gives the same type, identities included, as resolving the
instance. Both ways draw the same identities; that these are past the variables that the store
binds is all that is asked of the source. -/
theorem Acyclic.resolve?_instantiate {t g : Ty} {fixed : List NodeId} {ids₀ ids₁ ids : IdSource}
    (hs : s.Acyclic) (ht : t.schemeFree = true)
    (hg : (t.generalize fixed).run ids₀ = (g, ids₁))
    (hscheme : AllEntries (fun u => u.schemeFree = true) s)
    (hapart : s.Among fun v => .flexible v ∉ g.quantified)
    (hahead : ids.Ahead (· ∈ s.domain) (ids.advance g.quantified.length)) :
    ∃ g' u u' ids', s.resolve? g = some g' ∧ g.instantiate.run ids = (u, ids') ∧
      s.resolve? u = some u' ∧ g'.instantiate.run ids = (u', ids') := by
  obtain ⟨id, hid⟩ := Ty.generalize_run t fixed ids₀
  obtain rfl : g = Ty.schemeOver id _ t := (congrArg Prod.fst hg).symm.trans hid
  have hsorted : (t.freeFlexible.filter fun v => v ∉ fixed).Pairwise (· < ·) :=
    t.sorted_freeFlexible.filter _
  generalize t.freeFlexible.filter (fun v => v ∉ fixed) = bound at *
  have himage := fun v => hs.schemeFree_image hscheme v
  have hresolved : (t.substitute s.image).schemeFree = true :=
    (Ty.schemeFree_substitute ht).2 fun v _ => himage v
  rw [Ty.quantified_schemeOver ht, List.length_map] at hahead
  simp only [Ty.quantified_schemeOver ht, List.mem_map, TyVar.flexible.injEq,
    exists_eq_right] at hapart
  -- the store knows neither the quantified variables nor the drawn ones
  have hbound : ∀ v ∈ bound, s.image v = .flexible v := by
    intro v hv
    refine hs.image_of_none (Option.eq_none_iff_forall_ne_some.2 fun e he => ?_)
    exact hapart.keys v e he hv
  have hnew : ∀ v ∈ ids.taken bound.length, s.image v = .flexible v := by
    intro v hv
    refine hs.image_of_none (Option.eq_none_iff_forall_ne_some.2 fun e he => ?_)
    exact hahead.not_of_mem_taken hv (mem_domain he)
  refine ⟨_, (Ty.schemeOver id bound t).renew (ids.taken bound.length), _,
    ids.advance bound.length, hs.resolve?_eq _, ?_, hs.resolve?_eq _, ?_⟩
  · rw [Ty.instantiate_run, Ty.quantified_schemeOver ht, List.length_map]
  · rw [Ty.substitute_schemeOver hsorted hbound, Ty.instantiate_run,
      Ty.quantified_schemeOver hresolved, List.length_map,
      Ty.renew_schemeOver_substitute ht (fun v _ => himage v) (ids.length_taken _).symm hbound hnew
        fun v hv => hs.among_image hapart hv]

/-- The store binds a variable that is left free to a function type, in which an alias stands for
another variable. What is quantified occurs beside it, once more than it is listed. -/
theorem Acyclic.resolve?_instantiate_repeated : ∃ (s : Substitution) (t g g' u u' : Ty),
    s = (Substitution.empty.assign 2 (.arrow 12 (.flexible 4) (.primitive 13 .i32))).assign 4
      (.flexible 6) ∧
    t = .product 10 [.flexible 3, .arrow 11 (.flexible 2) (.var (.rigid 5)), .flexible 1,
      .flexible 3] ∧
    s.Acyclic ∧ t.schemeFree = true ∧
    (t.generalize [2]).run (.pinnedAt 20) = (g, .pinnedAt 21) ∧
    g = .scheme 20 [.flexible 1, .flexible 3] t ∧
    AllEntries (fun u => u.schemeFree = true) s ∧
    (s.Among fun v => .flexible v ∉ g.quantified) ∧
    IdSource.Ahead (· ∈ s.domain) (.pinnedAt 30) (.pinnedAt 32) ∧
    s.resolve? g = some g' ∧ g.instantiate.run (.pinnedAt 30) = (u, .pinnedAt 32) ∧
    s.resolve? u = some u' ∧ g'.instantiate.run (.pinnedAt 30) = (u', .pinnedAt 32) ∧
    u' = .product 10 [.flexible 31,
      .arrow 11 (.arrow 12 (.flexible 6) (.primitive 13 .i32)) (.var (.rigid 5)), .flexible 30,
      .flexible 31] := by
  let s := (Substitution.empty.assign 2 (.arrow 12 (.flexible 4) (.primitive 13 .i32))).assign 4
    (.flexible 6)
  let t : Ty := .product 10 [.flexible 3, .arrow 11 (.flexible 2) (.var (.rigid 5)), .flexible 1,
    .flexible 3]
  let g : Ty := .scheme 20 [.flexible 1, .flexible 3] t
  have hs : s.Acyclic := acyclic_of_measure (fun v => 10 - v) (by decide)
  have hg : (t.generalize [2]).run (.pinnedAt 20) = (g, .pinnedAt 21) := rfl
  have hentries : ∀ p ∈ s.entries.toList, p.2.toTy.schemeFree = true ∧
      TyVar.flexible p.1 ∉ g.quantified ∧ ∀ v ∈ p.2.toTy.mentions, .flexible v ∉ g.quantified := by
    decide
  have hscheme : AllEntries (fun u => u.schemeFree = true) s := fun v e he =>
    (hentries (v, e) (Table.mem_toList_iff.2 he)).1
  have hapart : s.Among fun v => .flexible v ∉ g.quantified :=
    ⟨fun v e he => (hentries (v, e) (Table.mem_toList_iff.2 he)).2.1,
      fun v e he => (hentries (v, e) (Table.mem_toList_iff.2 he)).2.2⟩
  have hahead : IdSource.Ahead (· ∈ s.domain) (.pinnedAt 30) (.pinnedAt 32) :=
    ⟨⟨by decide, .inr rfl⟩, by decide⟩
  obtain ⟨g', u, u', ids', hg', hu, hu', hinstance⟩ :=
    hs.resolve?_instantiate (t := t) rfl hg hscheme hapart hahead
  obtain rfl : ids' = .pinnedAt 32 := (congrArg Prod.snd hu).symm
  refine ⟨s, t, g, g', u, u', rfl, rfl, hs, rfl, hg, rfl, hscheme, hapart, hahead, hg', hu, hu',
    hinstance, ?_⟩
  -- the instance is at hand, so that it can be resolved
  obtain rfl := congrArg Prod.fst hu
  exact Option.some.inj (hu'.symm.trans rfl)

end Substitution

end CoContextual
