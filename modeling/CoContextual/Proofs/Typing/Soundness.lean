import CoContextual.Proofs.Typing.Judgement

/-!
# Inferred types are types

A derivation without findings holds no invalid type (`Inferred.plain`). If an assignment meets what
the derivation requires, the assignment makes the inferred type one that the judgement gives the
expression (`Inferred.hasType`).

A call has replaced the variable of its callee by the function type it expects. The assignment that
meets the requirements of the call meets those of its parts after the same replacement.
-/

namespace CoContextual

/-! ## Derivations without findings -/

namespace Derivation

variable {p q : Placed Derivation} {arguments : List (Placed Derivation)} {site : CallSite}

theorem diagnosticsIn?_eq_nil :
    diagnosticsIn? p = some [] ↔ p.item.diagnostics? = some [] := by
  rw [diagnosticsIn?]
  constructor
  · intro h
    obtain ⟨ds, hds, h⟩ := Option.bind_eq_some_iff.1 h
    -- shifting a list of findings keeps its length
    cases ds with
    | nil => exact hds
    | cons x ds =>
      rw [Diagnostic.shiftAll?, List.mapM_cons] at h
      obtain ⟨y, -, h⟩ := Option.bind_eq_some_iff.1 h
      obtain ⟨ys, -, h⟩ := Option.bind_eq_some_iff.1 h
      cases h
  · intro h
    rw [h]
    rfl

theorem diagnosticsInAll?_eq_nil {parts : List (Placed Derivation)} :
    diagnosticsInAll? parts = some [] ↔ ∀ p ∈ parts, p.item.diagnostics? = some [] := by
  induction parts with
  | nil => simp [diagnosticsInAll?]
  | cons p parts ih =>
    rw [diagnosticsInAll?, List.forall_mem_cons, ← ih, ← diagnosticsIn?_eq_nil]
    cases diagnosticsIn? p <;> cases diagnosticsInAll? parts <;> simp

theorem diagnostics?_binary_eq_nil {operation : Operation} :
    (binary operation p q).diagnostics? = some [] ↔
      p.item.diagnostics? = some [] ∧ q.item.diagnostics? = some [] := by
  rw [diagnostics?, ← diagnosticsIn?_eq_nil, ← diagnosticsIn?_eq_nil (p := q)]
  cases diagnosticsIn? p <;> cases diagnosticsIn? q <;> simp

theorem diagnostics?_call_eq_nil :
    (call site p arguments).diagnostics? = some [] ↔
      site.diagnostics = [] ∧ p.item.diagnostics? = some [] ∧
        ∀ a ∈ arguments, a.item.diagnostics? = some [] := by
  rw [diagnostics?, ← diagnosticsInAll?_eq_nil, ← diagnosticsIn?_eq_nil]
  cases diagnosticsIn? p <;> cases diagnosticsInAll? arguments <;> simp

end Derivation

theorem Ty.IsArguments.plain {types : List Ty} {domain : Ty} {extra : List NodeId}
    {result arrow : NodeId} (h : Ty.IsArguments types domain extra)
    (htypes : ∀ t ∈ types, t.plain = true) :
    (Ty.arrow arrow domain (.flexible result)).plain = true := by
  rw [plain_arrow]
  refine ⟨?_, rfl⟩
  cases h with
  | none i => rfl
  | one => exact htypes domain (.head _)
  | many i t u ts => exact plain_product.2 htypes

/-- A complete expression without findings has no invalid type, and none in what it requires. -/
theorem Inferred.plain {b : Bindings} {e : Expr} {d : Derivation} {ids : List NodeId}
    (h : Inferred e d ids) (hcovered : e.Covered b) (hclean : d.diagnostics? = some []) :
    d.type.plain = true ∧ d.requirements.Each fun _ t => t.plain = true := by
  induction h with
  | name text id hspan =>
    exact ⟨rfl, Requirements.each_add.2 ⟨Requirements.each_empty, rfl⟩⟩
  | literal form text id hspan => exact ⟨rfl, Requirements.each_empty⟩
  | missing id => cases hcovered
  | grouping offset _ ih =>
    cases hcovered with | grouping hcovered =>
    rw [Derivation.diagnostics?, Derivation.diagnosticsIn?_eq_nil] at hclean
    exact ih hcovered hclean
  | @unary e d ids operator span offset result arrow _ ih =>
    cases hcovered with | unary _ hcovered =>
    rw [Derivation.diagnostics?, Derivation.diagnosticsIn?_eq_nil] at hclean
    obtain ⟨htype, huses⟩ := ih hcovered hclean
    refine ⟨rfl, Requirements.each_add.2 ⟨huses, ?_⟩⟩
    exact (Ty.IsArguments.one d.type).plain (by simpa using htype)
  | @binary e e' d d' ids ids' offset operator span offset' result operands arrow _ _ ih ih' =>
    cases hcovered with | binary _ hcovered hcovered' =>
    rw [Derivation.diagnostics?_binary_eq_nil] at hclean
    obtain ⟨htype, huses⟩ := ih hcovered hclean.1
    obtain ⟨htype', huses'⟩ := ih' hcovered' hclean.2
    refine ⟨rfl, Requirements.each_add.2 ⟨Requirements.each_append.2 ⟨huses, huses'⟩, ?_⟩⟩
    exact (Ty.IsArguments.many operands d.type d'.type []).plain (by simpa using ⟨htype, htype'⟩)
  | @call e d ids extra domain site offset arguments span result arrow hdomain hsite _ _ _ ih ihs =>
    cases hcovered with | call hcovered hcovereds =>
    rw [Derivation.diagnostics?_call_eq_nil] at hclean
    obtain ⟨hsites, hclean, hcleans⟩ := hclean
    obtain ⟨htype, huses⟩ := ih hcovered hclean
    have hargs : ∀ p ∈ arguments, p.item.derivation.type.plain = true ∧
        p.item.derivation.requirements.Each fun _ t => t.plain = true := fun p hp =>
      ihs p hp (hcovereds _ (List.mem_map_of_mem hp)) (hcleans _ (List.mem_map_of_mem hp))
    have hinherited : (Derivation.inheritedRequirements ⟨offset, d⟩
        (arguments.map (Placed.map Part.derivation))).Each fun _ t => t.plain = true := by
      refine Derivation.each_inheritedRequirements.2 ⟨huses, ?_⟩
      exact List.forall_mem_map.2 fun p hp => (hargs p hp).2
    have harrow : (Ty.arrow arrow domain (.flexible result)).plain = true :=
      hdomain.plain (List.forall_mem_map.2 fun p hp => (hargs p hp).1)
    cases hsite with
    | fits hcallee s horigins =>
      refine ⟨rfl, Requirements.each_mapTypes.2 (hinherited.imp fun _ t ht => ?_)⟩
      refine Ty.plain_substitute ht fun w _ => ?_
      exact Ty.only_elim (P := fun t => t.plain = true) (fun _ => harrow) fun _ => rfl
    -- an invalid callee would have been found below, and a clash is found here
    | absorbs hcallee s horigins =>
      rw [hcallee] at htype
      cases htype
    | clashes hcallee hne => exact absurd hsites hne

/-! ## Soundness -/

/-- What a call has made of its callee's variable is what the assignment makes of it. -/
theorem Ty.substitute_only_of_not_mem {t u : Ty} {v : NodeId} {A : NodeId → Ty}
    (ht : t.schemeFree = true) (hv : v ∉ t.mentions) :
    (t.substitute fun w => (Ty.only v u w).substitute A) = t.substitute A := by
  rw [← substitute_substitute ht, substitute_self ht fun w hw => ?_]
  exact only_of_ne (fun h : w = v => hv (h ▸ hw)) u

/-- A call is typed if its parts are, once the variable of the callee is replaced by the function
type that the call expects. -/
theorem HasType.of_fits {b : Bindings} {e : Expr} {d : Derivation} {ids extra : List NodeId}
    {domain : Ty} {arguments : List (Placed Part)} {v result arrow : NodeId} {A : NodeId → Ty}
    (offset : Offset) (span : Span) (h : Inferred e d ids)
    (hargs : ∀ p ∈ arguments, Inferred p.item.expr p.item.derivation p.item.ids)
    (hdisjoint : ids.Disjoint (arguments.flatMap fun p => p.item.ids))
    (hdomain : Ty.IsArguments (arguments.map fun p => p.item.derivation.type) domain extra)
    (hcallee : d.type = .flexible v)
    (hfunction : HasType b e (d.type.substitute fun w =>
      (Ty.only v (.arrow arrow domain (.flexible result)) w).substitute A))
    (harguments : ∀ p ∈ arguments, HasType b p.item.expr (p.item.derivation.type.substitute fun w =>
      (Ty.only v (.arrow arrow domain (.flexible result)) w).substitute A)) :
    HasType b (.call ⟨offset, e⟩ (arguments.map (Placed.map Part.expr)) span) (A result) := by
  rw [hcallee, Ty.substitute_flexible, Ty.only_self, Ty.substitute_arrow,
    Ty.substitute_flexible] at hfunction
  refine .call offset span arrow hfunction (by simp) ?_ (hdomain.substitute A)
  rw [List.map_map, List.zip_map', List.forall_mem_map]
  intro p hp
  -- the variable belongs to the callee, so that the arguments do not see the replacement
  have hv : v ∉ p.item.derivation.type.mentions := by
    intro hmem
    have hleaf := h.leaf.over.id_mem
    rw [hcallee] at hleaf
    refine hdisjoint hleaf (List.mem_flatMap.2 ⟨p, hp, ?_⟩)
    exact (hargs p hp).leaf.over.mentions_mem v hmem
  have hargument := harguments p hp
  rwa [Ty.substitute_only_of_not_mem (hargs p hp).leaf.over.schemeFree hv] at hargument

/-- The case of a call: what it requires of an assignment, its parts require of the one that makes
of the callee's variable what the call has made of it. -/
theorem Inferred.hasType_call {b : Bindings} {e : Expr} {d : Derivation} {ids extra : List NodeId}
    {domain : Ty} {site : CallSite} {arguments : List (Placed Part)} {result arrow : NodeId}
    {A : NodeId → Ty} {offset : Offset} (span : Span)
    (hdomain : Ty.IsArguments (arguments.map fun p => p.item.derivation.type) domain extra)
    (hsite : site.Settles
      (Derivation.inheritedRequirements ⟨offset, d⟩ (arguments.map (Placed.map Part.derivation)))
      result arrow domain d.type)
    (h : Inferred e d ids)
    (hargs : ∀ p ∈ arguments, Inferred p.item.expr p.item.derivation p.item.ids)
    (hapart : CallSite.Apart result arrow ids arguments) (hcovered : e.Covered b)
    (hclean : d.diagnostics? = some []) (hsites : site.diagnostics = [])
    (hA : ∀ v, (A v).schemeFree = true) (hmeets : b.Meets site.requirements A)
    (hcallee : ∀ {B : NodeId → Ty}, (∀ v, (B v).schemeFree = true) → b.Meets d.requirements B →
      HasType b e (d.type.substitute B))
    (harguments : ∀ p ∈ arguments, ∀ {B : NodeId → Ty}, (∀ v, (B v).schemeFree = true) →
      b.Meets p.item.derivation.requirements B →
      HasType b p.item.expr (p.item.derivation.type.substitute B)) :
    HasType b (.call ⟨offset, e⟩ (arguments.map (Placed.map Part.expr)) span)
      (site.type.substitute A) := by
  cases hsite with
  | @fits v hvar s origins horigins =>
    have hover := Derivation.inheritedRequirements_over offset h.over fun p hp => (hargs p hp).over
    have hdomainFree := hdomain.schemeFree (List.forall_mem_map.2 fun p hp =>
      (hargs p hp).leaf.over.schemeFree)
    have harrow : (Ty.arrow arrow domain (.flexible result)).schemeFree = true := by
      simpa using hdomainFree
    -- the same replacement, made in the assignment
    have hparts := (Bindings.meets_mapTypes (hover.imp fun _ t ht => ht.schemeFree)).1 hmeets
    obtain ⟨hmeets, hmeetss⟩ := Derivation.each_inheritedRequirements.1 hparts
    have hA' : ∀ w,
        ((Ty.only v (.arrow arrow domain (.flexible result)) w).substitute A).schemeFree
          = true := by
      intro w
      refine (Ty.schemeFree_substitute ?_).2 fun x _ => hA x
      exact Ty.only_elim (P := fun t => t.schemeFree = true) (fun _ => harrow) fun _ => rfl
    rw [Ty.substitute_flexible]
    exact .of_fits offset span h hargs hapart.disjoint hdomain hvar (hcallee hA' hmeets)
      fun p hp => harguments p hp hA' (hmeetss _ (List.mem_map_of_mem hp))
  -- an invalid callee has a finding, and so has a call that clashes
  | absorbs hinvalid s horigins =>
    obtain ⟨htype, -⟩ := h.plain hcovered hclean
    rw [hinvalid] at htype
    cases htype
  | clashes _ hne => exact absurd hsites hne

/-- If an assignment meets what a derivation without findings requires, the judgement gives the
expression the inferred type under the assignment. -/
theorem Inferred.hasType {b : Bindings} {e : Expr} {d : Derivation} {ids : List NodeId}
    (h : Inferred e d ids) (hnodup : ids.Nodup) (hcovered : e.Covered b)
    (hclean : d.diagnostics? = some []) {A : NodeId → Ty} (hA : ∀ v, (A v).schemeFree = true)
    (hmeets : b.Meets d.requirements A) : HasType b e (d.type.substitute A) := by
  induction h generalizing A with
  | name text id hspan =>
    cases hcovered with | name hclosed =>
    obtain ⟨declared, hb, -⟩ := hclosed
    obtain ⟨-, hinstance⟩ := (Bindings.meets_add hb).1 hmeets
    refine .name hb hinstance ?_
    rw [Derivation.type, Ty.substitute_flexible]
    exact hA id
  | literal form text id hspan =>
    rw [Derivation.type, Ty.substitute_primitive]
    exact .literal form text id
  | missing id => cases hcovered
  | grouping offset _ ih =>
    cases hcovered with | grouping hcovered =>
    rw [Derivation.diagnostics?, Derivation.diagnosticsIn?_eq_nil] at hclean
    exact .grouping offset (ih hnodup hcovered hclean hA hmeets)
  | @unary e d ids operator span offset result arrow _ ih =>
    cases hcovered with | unary hclosed hcovered =>
    rw [Derivation.diagnostics?, Derivation.diagnosticsIn?_eq_nil] at hclean
    obtain ⟨declared, hb, -⟩ := hclosed
    obtain ⟨hoperand, hinstance⟩ := (Bindings.meets_add hb).1 hmeets
    have hnodup' := (List.nodup_cons.1 (List.nodup_cons.1 hnodup).2).2
    rw [Ty.substitute_arrow, Ty.substitute_flexible] at hinstance
    rw [Derivation.type, Ty.substitute_flexible]
    exact .unary span offset arrow (ih hnodup' hcovered hclean hA hoperand) hb hinstance (hA result)
  | @binary e e' d d' ids ids' offset operator span offset' result operands arrow _ _ ih ih' =>
    cases hcovered with | binary hclosed hcovered hcovered' =>
    rw [Derivation.diagnostics?_binary_eq_nil] at hclean
    obtain ⟨declared, hb, -⟩ := hclosed
    obtain ⟨hparts, hinstance⟩ := (Bindings.meets_add hb).1 hmeets
    obtain ⟨hlhs, hrhs⟩ := Requirements.each_append.1 hparts
    have hnodup' := (List.nodup_cons.1 (List.nodup_cons.1 (List.nodup_cons.1 hnodup).2).2).2
    obtain ⟨hids, hids', -⟩ := List.nodup_append'.1 hnodup'
    rw [Ty.substitute_arrow, Ty.substitute_flexible, Ty.substitute_product] at hinstance
    rw [Derivation.type, Ty.substitute_flexible]
    exact .binary offset span offset' arrow operands (ih hids hcovered hclean.1 hA hlhs)
      (ih' hids' hcovered' hclean.2 hA hrhs) hb hinstance (hA result)
  | @call e d ids extra domain site offset arguments span result arrow hdomain hsite _ h hargs ih
      ihs =>
    cases hcovered with | call hcovered hcovereds =>
    rw [Derivation.diagnostics?_call_eq_nil] at hclean
    obtain ⟨hsites, hclean, hcleans⟩ := hclean
    have hapart := CallSite.Apart.of_nodup hnodup
    exact Inferred.hasType_call span hdomain hsite h hargs hapart hcovered hclean hsites hA hmeets
      (ih hapart.callee_nodup hcovered hclean) fun p hp => ihs p hp (hapart.argument_nodup hp)
        (hcovereds _ (List.mem_map_of_mem hp)) (hcleans _ (List.mem_map_of_mem hp))

end CoContextual
