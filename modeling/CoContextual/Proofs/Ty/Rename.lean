import CoContextual.Proofs.Ty.Shape
import CoContextual.Ty.Polymorphism

/-!
# Replacing variables of both kinds

`Ty.rename f` puts `f v` in the place of every free variable `v` of a type, rigid ones included. On
a scheme-free type, what holds of all nodes of the result is decided by what the variables are
replaced by (`Ty.everyNode_rename`), and so are the variables of the result
(`Ty.exists_of_mem_mentions_rename`; `Ty.mem_mentions_rename` with schemes).
-/

namespace CoContextual

namespace Ty

section

variable (f : TyVar → Ty)

theorem renameAll_eq_map (ts : List Ty) : renameAll f ts = ts.map (rename f) := by
  induction ts with
  | nil => rfl
  | cons t ts ih => rw [renameAll, ih, List.map_cons]

@[simp]
theorem rename_primitive (id : NodeId) (kind : Primitive) :
    (primitive id kind).rename f = .primitive id kind := rfl

@[simp]
theorem rename_arrow (id : NodeId) (d c : Ty) :
    (arrow id d c).rename f = .arrow id (d.rename f) (c.rename f) := rfl

@[simp]
theorem rename_product (id : NodeId) (cs : List Ty) :
    (product id cs).rename f = .product id (cs.map (rename f)) := by
  rw [rename, renameAll_eq_map]

@[simp]
theorem rename_var (v : TyVar) : (var v).rename f = f v := rfl

@[simp]
theorem rename_invalid (id : NodeId) : (invalid id).rename f = .invalid id := rfl

end

/-- Replacing every variable by itself changes nothing. -/
theorem rename_self (t : Ty) : t.rename .var = t := by
  induction t using ind with
  | primitive id kind => simp
  | arrow id d c ihd ihc => rw [rename_arrow, ihd, ihc]
  | product id cs ih => rw [rename_product, List.map_congr_left ih, List.map_id']
  | var v => simp
  | scheme id bound body ih =>
    -- quantified variables are left alone, which is what happens to the others as well
    have hsame : (fun v => if v ∈ bound then Ty.var v else .var v) = .var :=
      funext fun v => ite_self _
    rw [rename, hsame, ih]
  | invalid id => simp

/-! ## Free variables -/

theorem mem_freeVarsAll {v : TyVar} {ts : List Ty} :
    v ∈ freeVarsAll ts ↔ ∃ t ∈ ts, v ∈ t.freeVars := by
  induction ts with
  | nil => simp [freeVarsAll]
  | cons t ts ih => simp [freeVarsAll, ih]

@[simp]
theorem freeVars_primitive (id : NodeId) (kind : Primitive) :
    (primitive id kind).freeVars = [] := rfl

@[simp]
theorem freeVars_arrow (id : NodeId) (d c : Ty) :
    (arrow id d c).freeVars = d.freeVars ++ c.freeVars := rfl

theorem mem_freeVars_product {v : TyVar} {id : NodeId} {cs : List Ty} :
    v ∈ (product id cs).freeVars ↔ ∃ c ∈ cs, v ∈ c.freeVars := by
  rw [freeVars, mem_freeVarsAll]

@[simp]
theorem freeVars_var (v : TyVar) : (var v).freeVars = [v] := rfl

@[simp]
theorem freeVars_invalid (id : NodeId) : (invalid id).freeVars = [] := rfl

/-- Without schemes, the variables that a type mentions are the flexible ones that are free. -/
theorem mem_mentions_iff {v : NodeId} {t : Ty} (ht : t.schemeFree = true) :
    v ∈ t.mentions ↔ .flexible v ∈ t.freeVars := by
  induction t using ind with
  | primitive id kind => simp
  | arrow id d c ihd ihc =>
    simp only [schemeFree_arrow, Bool.and_eq_true] at ht
    rw [mentions_arrow, freeVars_arrow, List.mem_append, List.mem_append, ihd ht.1, ihc ht.2]
  | product id cs ih =>
    rw [schemeFree_product] at ht
    rw [mem_mentions_product, mem_freeVars_product]
    exact exists_congr fun c => and_congr_right fun hc => ih c hc (ht c hc)
  | var w => cases w <;> simp
  | scheme id bound body ih => simp at ht
  | invalid id => simp

/-- A flexible variable that is free in a type is mentioned in it. -/
theorem mem_mentions_of_mem_freeVars {v : NodeId} {t : Ty} (h : .flexible v ∈ t.freeVars) :
    v ∈ t.mentions := by
  induction t using ind with
  | primitive id kind => simp at h
  | arrow id d c ihd ihc =>
    rw [freeVars_arrow, List.mem_append] at h
    rw [mentions_arrow, List.mem_append]
    exact h.imp ihd ihc
  | product id cs ih =>
    obtain ⟨c, hc, hv⟩ := mem_freeVars_product.1 h
    exact mem_mentions_product.2 ⟨c, hc, ih c hc hv⟩
  | var w =>
    obtain rfl : .flexible v = w := by simpa using h
    exact .head _
  | scheme id bound body ih =>
    rw [freeVars, List.mem_filter] at h
    rw [mentions_scheme]
    exact List.mem_append_right _ (ih h.1)
  | invalid id => simp at h

/-! ## Nodes and variables of the result -/

/-- What is free in the result is free in what a free variable was replaced by. -/
theorem mem_freeVars_rename {f : TyVar → Ty} {t : Ty} (ht : t.schemeFree = true) {v : TyVar} :
    v ∈ (t.rename f).freeVars ↔ ∃ w ∈ t.freeVars, v ∈ (f w).freeVars := by
  induction t using ind with
  | primitive id kind => simp
  | arrow id d c ihd ihc =>
    simp only [schemeFree_arrow, Bool.and_eq_true] at ht
    rw [rename_arrow, freeVars_arrow, freeVars_arrow, List.mem_append, ihd ht.1, ihc ht.2]
    simp only [List.mem_append, or_and_right, exists_or]
  | product id cs ih =>
    rw [schemeFree_product] at ht
    rw [rename_product, mem_freeVars_product]
    simp only [mem_freeVars_product]
    constructor
    · rintro ⟨_, hmem, hv⟩
      obtain ⟨c, hc, rfl⟩ := List.mem_map.1 hmem
      obtain ⟨w, hw, hv⟩ := (ih c hc (ht c hc)).1 hv
      exact ⟨w, ⟨c, hc, hw⟩, hv⟩
    · rintro ⟨w, ⟨c, hc, hw⟩, hv⟩
      exact ⟨_, List.mem_map_of_mem hc, (ih c hc (ht c hc)).2 ⟨w, hw, hv⟩⟩
  | var w => simp
  | scheme id bound body ih => simp at ht
  | invalid id => simp

/-- A property that sees only of which kind a node is holds throughout the result if and only if it
does so in everything that was put in. -/
theorem everyNode_rename {p : Ty → Bool} {f : TyVar → Ty} {t : Ty}
    (hp : ∀ u, (∀ v, u ≠ .var v) → p (u.rename f) = p u) (ht : t.schemeFree = true)
    (h : t.everyNode p = true) :
    (t.rename f).everyNode p = true ↔ ∀ v ∈ t.freeVars, (f v).everyNode p = true := by
  induction t using ind with
  | primitive id kind => simpa using h
  | arrow id d c ihd ihc =>
    -- the node itself stays an arrow, so that `p` holds of it after as before
    have hnode := hp (.arrow id d c) (fun _ => nofun)
    simp only [schemeFree_arrow, Bool.and_eq_true] at ht
    simp only [everyNode, Bool.and_eq_true] at h
    rw [rename_arrow] at hnode ⊢
    rw [everyNode, hnode, h.1, Bool.true_and, Bool.and_eq_true, ihd ht.1 h.2.1, ihc ht.2 h.2.2,
      freeVars_arrow, List.forall_mem_append]
  | product id cs ih =>
    have hnode := hp (.product id cs) (fun _ => nofun)
    rw [schemeFree_product] at ht
    rw [everyNode, Bool.and_eq_true, everyNodeAll_iff] at h
    rw [rename_product] at hnode ⊢
    rw [everyNode, hnode, h.1, Bool.true_and, everyNodeAll_iff, List.forall_mem_map]
    simp only [mem_freeVars_product]
    constructor
    · rintro hall v ⟨c, hc, hv⟩
      exact (ih c hc (ht c hc) (h.2 c hc)).1 (hall c hc) v hv
    · intro hall c hc
      exact (ih c hc (ht c hc) (h.2 c hc)).2 fun v hv => hall v ⟨c, hc, hv⟩
  | var v => simp
  | scheme id bound body ih => simp at ht
  | invalid id => simpa using h

theorem schemeFree_rename {f : TyVar → Ty} {t : Ty} (ht : t.schemeFree = true) :
    (t.rename f).schemeFree = true ↔ ∀ v ∈ t.freeVars, (f v).schemeFree = true := by
  refine everyNode_rename (fun u hu => ?_) ht ht
  cases u with
  | var v => exact absurd rfl (hu v)
  | _ => simp [rename, isScheme]

theorem invalidFree_rename {f : TyVar → Ty} {t : Ty} (ht : t.plain = true) :
    (t.rename f).invalidFree = true ↔ ∀ v ∈ t.freeVars, (f v).invalidFree = true := by
  refine everyNode_rename (fun u hu => ?_) (plain_iff.1 ht).1 (plain_iff.1 ht).2
  cases u with
  | var v => exact absurd rfl (hu v)
  | _ => simp [rename, isInvalid]

theorem plain_rename {f : TyVar → Ty} {t : Ty} (ht : t.plain = true)
    (hf : ∀ v ∈ t.freeVars, (f v).plain = true) : (t.rename f).plain = true := by
  rw [plain_iff, schemeFree_rename (plain_iff.1 ht).1, invalidFree_rename ht]
  exact ⟨fun v hv => (plain_iff.1 (hf v hv)).1, fun v hv => (plain_iff.1 (hf v hv)).2⟩

/-- The variables of the result come from what the free variables were replaced by. -/
theorem exists_of_mem_mentions_rename {f : TyVar → Ty} {t : Ty} {w : NodeId}
    (ht : t.schemeFree = true) (hw : w ∈ (t.rename f).mentions) :
    ∃ v ∈ t.freeVars, w ∈ (f v).mentions := by
  induction t using ind with
  | primitive id kind => simp at hw
  | arrow id d c ihd ihc =>
    simp only [schemeFree_arrow, Bool.and_eq_true] at ht
    simp only [rename_arrow, mentions_arrow, freeVars_arrow, List.mem_append] at hw ⊢
    rcases hw with hw | hw
    · obtain ⟨v, hv, hw⟩ := ihd ht.1 hw
      exact ⟨v, .inl hv, hw⟩
    · obtain ⟨v, hv, hw⟩ := ihc ht.2 hw
      exact ⟨v, .inr hv, hw⟩
  | product id cs ih =>
    rw [schemeFree_product] at ht
    rw [rename_product, mem_mentions_product] at hw
    obtain ⟨_, hmem, hw⟩ := hw
    obtain ⟨c, hc, rfl⟩ := List.mem_map.1 hmem
    obtain ⟨v, hv, hw⟩ := ih c hc (ht c hc) hw
    exact ⟨v, mem_freeVars_product.2 ⟨c, hc, hv⟩, hw⟩
  | var v => exact ⟨v, by simp, by simpa using hw⟩
  | scheme id bound body ih => simp at ht
  | invalid id => simp at hw

/-- What a renamed type mentions it mentioned before, or it was put in. -/
theorem mem_mentions_rename {f : TyVar → Ty} {t : Ty} {w : NodeId}
    (hw : w ∈ (t.rename f).mentions) :
    w ∈ t.mentions ∨ ∃ v ∈ t.freeVars, w ∈ (f v).mentions := by
  induction t using ind generalizing f with
  | primitive id kind => simp at hw
  | arrow id d c ihd ihc =>
    simp only [rename_arrow, mentions_arrow, freeVars_arrow, List.mem_append] at hw ⊢
    rcases hw with hw | hw
    · exact (ihd hw).imp .inl fun ⟨v, hv, hw⟩ => ⟨v, .inl hv, hw⟩
    · exact (ihc hw).imp .inr fun ⟨v, hv, hw⟩ => ⟨v, .inr hv, hw⟩
  | product id cs ih =>
    rw [rename_product, mem_mentions_product] at hw
    obtain ⟨_, hmem, hw⟩ := hw
    obtain ⟨c, hc, rfl⟩ := List.mem_map.1 hmem
    refine (ih c hc hw).imp (fun hw => ?_) fun ⟨v, hv, hw⟩ => ?_
    · exact mem_mentions_product.2 ⟨c, hc, hw⟩
    · exact ⟨v, mem_freeVars_product.2 ⟨c, hc, hv⟩, hw⟩
  | var v => exact .inr ⟨v, by simp, by simpa using hw⟩
  | scheme id bound body ih =>
    rw [rename, mentions_scheme, List.mem_append] at hw
    rw [mentions_scheme, List.mem_append]
    rcases hw with hw | hw
    · exact .inl (.inl hw)
    rcases ih hw with hw | ⟨v, hv, hw⟩
    · exact .inl (.inr hw)
    by_cases hbound : v ∈ bound
    -- a quantified variable stays, and stood in the body before
    · rw [if_pos hbound] at hw
      cases v with
      | flexible v =>
        obtain rfl := List.mem_singleton.1 hw
        exact .inl (.inr (mem_mentions_of_mem_freeVars hv))
      | rigid v => simp at hw
    · rw [if_neg hbound] at hw
      exact .inr ⟨v, by simp [freeVars, hv, hbound], hw⟩
  | invalid id => simp at hw

end Ty

end CoContextual
