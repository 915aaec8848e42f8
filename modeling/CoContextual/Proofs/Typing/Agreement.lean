import CoContextual.Proofs.Discharge.Link
import CoContextual.Proofs.Expression.Pool
import CoContextual.Proofs.Typing.Completeness

/-!
# Inference agrees with the typing judgement

An expression is typed without its surroundings, and what it requires is discharged against the
declarations afterwards. `Session.agrees_with_judgement` says that nothing is lost or added on this
way: an expression has a type under some closed declarations if and only if its derivation has no
findings and its requirements are discharged without a failure, into an acyclic store. The types
that the expression has are then the instances of the resolved type.
-/

namespace CoContextual

open Substitution

/-! ## What is left to discharge -/

theorem Derivation.only_inheritedRequirements {S : Ident → Prop} {callee : Placed Derivation}
    {arguments : List (Placed Derivation)} (h : callee.item.requirements.Only S)
    (hargs : ∀ a ∈ arguments, a.item.requirements.Only S) :
    (inheritedRequirements callee arguments).Only S := by
  rw [inheritedRequirements]
  generalize callee.item.requirements = r at h
  induction arguments generalizing r with
  | nil => exact h
  | cons a arguments ih =>
    obtain ⟨ha, hargs⟩ := List.forall_mem_cons.1 hargs
    exact ih hargs _ (h.append ha)

/-- An expression requires identifiers that occur in it only. -/
theorem Inferred.only_closes {b : Bindings} {e : Expr} {d : Derivation} {ids : List NodeId}
    (h : Inferred e d ids) (hcovered : e.Covered b) : d.requirements.Only b.Closes := by
  induction h with
  | name text id hspan =>
    cases hcovered with | name hclosed =>
    exact Requirements.only_empty.addAll hclosed _
  | literal form text id hspan => exact Requirements.only_empty
  | missing id => exact Requirements.only_empty
  | grouping offset _ ih =>
    cases hcovered with | grouping hcovered =>
    exact ih hcovered
  | unary operator span offset result arrow _ ih =>
    cases hcovered with | unary hclosed hcovered =>
    exact (ih hcovered).addAll hclosed _
  | binary offset operator span offset' result operands arrow _ _ ih ih' =>
    cases hcovered with | binary hclosed hcovered hcovered' =>
    exact ((ih hcovered).append (ih' hcovered')).addAll hclosed _
  | @call e d ids extra domain site offset arguments span result arrow hdomain hsite _ _ _ ih ihs =>
    cases hcovered with | call hcovered hcovereds =>
    have hinherited : (Derivation.inheritedRequirements ⟨offset, d⟩
        (arguments.map (Placed.map Part.derivation))).Only b.Closes := by
      refine Derivation.only_inheritedRequirements (ih hcovered) ?_
      exact List.forall_mem_map.2 fun p hp => ihs p hp (hcovereds _ (List.mem_map_of_mem hp))
    cases hsite with
    | fits hcallee s horigins => exact hinherited.mapTypes _
    | absorbs hcallee s horigins => exact hinherited.mapTypes _
    | clashes hcallee hne => exact hinherited

/-- Nothing remains if every identifier is declared. -/
theorem Requirements.undeclared_eq_empty {r : Requirements} {b : Bindings} (h : r.Only b.Closes) :
    r.undeclared b = .empty := by
  rw [undeclared, empty]
  congr 1
  refine Table.ext_get? fun token => ?_
  rw [Table.get?_filterKeys, Table.get?_empty]
  split
  · rename_i hnot
    cases hget : r.uses.get? token with
    | none => rfl
    | some types =>
      obtain ⟨declared, hb, -⟩ := h token (by rw [contains, Table.contains, hget]; rfl)
      have htypes : b.types.get? token = some declared := hb
      rw [Bindings.contains, Table.contains, htypes] at hnot
      simp at hnot
  · rfl

/-! ## Discharging -/

/-- A scheme-free type that comes of another by some assignment does so by a scheme-free one. -/
theorem Ty.exists_schemeFree_assignment {t u : Ty} {B : NodeId → Ty} (ht : t.schemeFree = true)
    (hu : u.schemeFree = true) (h : t.erase = (u.substitute B).erase) :
    ∃ τ : NodeId → Ty, (∀ v, (τ v).schemeFree = true) ∧ t.alike (u.substitute τ) = true := by
  have hB : (u.substitute B).schemeFree = true := by
    rw [← schemeFree_erase, ← h, schemeFree_erase, ht]
  -- outside of `u` the assignment does not matter, and a variable is scheme-free
  refine ⟨joinAt u.mentions B Ty.flexible, fun v => ?_, ?_⟩
  · by_cases hv : v ∈ u.mentions
    · rw [joinAt_of_mem hv]
      exact (schemeFree_substitute hu).1 hB v hv
    · rw [joinAt_of_not_mem hv]
      rfl
  · rw [alike_iff_erase_eq, h]
    exact erase_substitute_congr rfl fun v hv => by rw [joinAt_of_mem hv]

section

variable {b : Bindings} {e : Expr} {d : Derivation} {ids : List NodeId}

/-- The uses of an expression without findings can be unified with their declarations. -/
theorem Inferred.use_plain (h : Inferred e d ids) (hcovered : e.Covered b)
    (hclean : d.diagnostics? = some []) :
    ∀ u ∈ d.requirements.declaredUses b, u.Plain ∧ u.declared.freeVars = [] := by
  intro u hu
  obtain ⟨hb, hmem⟩ := Requirements.mem_declaredUses.1 hu
  obtain ⟨declared, hdeclared, hclosed⟩ :=
    h.only_closes hcovered u.token (Requirements.contains_of_mem_get hmem)
  rw [hb] at hdeclared
  cases hdeclared
  obtain ⟨hplain, hfree⟩ := Ty.closed_iff.1 hclosed
  exact ⟨⟨(h.plain hcovered hclean).2 u.token u.required hmem, hplain⟩, hfree⟩

/-- If the judgement gives an expression a type, its requirements are discharged. -/
theorem Inferred.exists_discharge? {source : IdSource} {type : Ty} (h : Inferred e d ids)
    (hnodup : ids.Nodup) (hcovered : e.Covered b)
    (hdrawn : (source.taken (Use.drawn (d.requirements.declaredUses b))).Nodup)
    (hnew : ∀ v ∈ source.taken (Use.drawn (d.requirements.declaredUses b)), v ∉ ids)
    (htype : HasType b e type) :
    d.diagnostics? = some [] ∧
      ∃ s source' resolved,
        d.requirements.discharge? b .empty source = some (⟨s, .empty, []⟩, source') ∧ s.Acyclic ∧
        s.resolve? d.type = some resolved ∧
        ∃ τ, (∀ v, (τ v).schemeFree = true) ∧ type.alike (resolved.substitute τ) = true := by
  obtain ⟨hclean, A, hA⟩ := h.exists_solves hnodup htype
  have hover := h.over
  -- closed declarations have no variables that the assignment could touch
  have hfits : ∀ u ∈ d.requirements.declaredUses b, u.Fits A (· ∈ ids) := by
    intro u hu
    obtain ⟨hb, hmem⟩ := Requirements.mem_declaredUses.1 hu
    obtain ⟨hplain, hfree⟩ := h.use_plain hcovered hclean u hu
    refine ⟨hplain, fun v hv => ?_, fun v hv => ?_, ?_⟩
    · exact (hover u.token u.required hmem).mentions_mem v hv
    · simp [hfree] at hv
    · have hinstance := hA.meets u.token u.required hmem u.declared hb
      refine hinstance.of_agree hplain.declared fun v hv => ?_
      simp [hfree] at hv
  obtain ⟨s, B, hlink, hs, hB⟩ := linkUses_of_fits hfits (.empty A) (among_empty _) hdrawn hnew
  -- nothing is left over, since every identifier of the expression is declared
  have hremaining := Requirements.undeclared_eq_empty (h.only_closes hcovered)
  have hdischarge : d.requirements.discharge? b .empty source
      = some (⟨s, .empty, []⟩, source.advance (Use.drawn (d.requirements.declaredUses b))) := by
    rw [Requirements.discharge?, hlink, hremaining]
    rfl
  refine ⟨hclean, s, _, _, hdischarge, hs.acyclic, hs.acyclic.resolve?_eq d.type, ?_⟩
  have hresolved : (d.type.substitute s.image).schemeFree = true :=
    (Ty.schemeFree_substitute h.leaf.over.schemeFree).2 fun v _ =>
      (Ty.plain_iff.1 (hs.acyclic.plain_image hs.plain v)).1
  refine Ty.exists_schemeFree_assignment (B := B) htype.schemeFree hresolved ?_
  -- the extended assignment solves the final store, so that it factors through resolving
  have hscheme : AllEntries (fun u => u.schemeFree = true) s := fun v e he =>
    (Ty.plain_iff.1 (hs.plain v e he)).1
  have hagree : (d.type.substitute A).erase = (d.type.substitute B).erase := by
    refine Ty.erase_substitute_congr rfl fun v hv => ?_
    rw [hB v fun hmem => hnew v hmem (h.leaf.over.mentions_mem v hv)]
  rw [← hA.type, hagree]
  exact hs.satisfied.resolved hs.acyclic hscheme h.leaf.over.schemeFree

/-- If a derivation has no findings and its requirements are discharged without a failure, the
judgement gives the expression every instance of the resolved type. -/
theorem Inferred.hasType_of_discharge? {source source' : IdSource} {outcome : Discharge}
    (h : Inferred e d ids) (hnodup : ids.Nodup) (hcovered : e.Covered b)
    (hclean : d.diagnostics? = some [])
    (hdischarge : d.requirements.discharge? b .empty source = some (outcome, source'))
    (hfailures : outcome.failures = []) (hacyclic : outcome.substitution.Acyclic) :
    ∃ resolved, outcome.substitution.resolve? d.type = some resolved ∧
      ∀ τ : NodeId → Ty, (∀ v, (τ v).schemeFree = true) →
        HasType b e (resolved.substitute τ) := by
  rw [Requirements.discharge?] at hdischarge
  obtain ⟨⟨s, failures, source''⟩, hlink, hdischarge⟩ := Option.bind_eq_some_iff.1 hdischarge
  cases hdischarge
  obtain rfl : failures = [] := hfailures
  have hplain := h.use_plain hcovered hclean
  have himage := hacyclic.plain_image
    (plain_of_linkUses hlink (fun u hu => (hplain u hu).1) (allEntries_empty _))
  refine ⟨_, hacyclic.resolve?_eq d.type, fun τ hτ => ?_⟩
  -- resolving and replacing what is left is one assignment, and it meets the requirements
  rw [Ty.substitute_substitute h.leaf.over.schemeFree]
  refine h.hasType hnodup hcovered hclean (fun v => ?_) fun token t ht declared hb => ?_
  · exact (Ty.schemeFree_substitute (Ty.plain_iff.1 (himage v)).1).2 fun w _ => hτ w
  · have hmem : ⟨token, t, declared⟩ ∈ d.requirements.declaredUses b :=
      Requirements.mem_declaredUses.2 ⟨hb, ht⟩
    obtain ⟨huse, hfree⟩ := hplain _ hmem
    have hinstance := hasInstance_of_linkUses hlink (fun u hu => (hplain u hu).1)
      (allEntries_empty _) hacyclic τ _ hmem
    refine hinstance.of_agree huse.declared fun v hv => ?_
    rw [hfree] at hv
    cases hv

end

/-- Inference agrees with the judgement. For an expression without missing operands, over names and
operators with closed types: if the judgement gives it a type, there are no findings, all
requirements are discharged into an acyclic store, and the type is an instance of the resolved one;
and if there are no findings and nothing fails to be discharged into an acyclic store, the judgement
gives the expression the resolved type and all instances of it. -/
theorem Session.agrees_with_judgement {g₀ g : Typer} {trees : List (Expr × Derivation)}
    {b : Bindings} {e : Expr} {d : Derivation} (h : Session g₀ g trees) (hmem : (e, d) ∈ trees)
    (hcovered : e.Covered b)
    (hids : g₀.ids.Distinct (g.ids.advance (Use.drawn (d.requirements.declaredUses b)))) :
    (∀ t, HasType b e t →
      d.diagnostics? = some [] ∧
      ∃ s ids resolved,
        d.requirements.discharge? b .empty g.ids = some (⟨s, .empty, []⟩, ids) ∧ s.Acyclic ∧
        s.resolve? d.type = some resolved ∧
        ∃ τ, (∀ v, (τ v).schemeFree = true) ∧ t.alike (resolved.substitute τ) = true) ∧
    ∀ outcome ids, d.diagnostics? = some [] →
      d.requirements.discharge? b .empty g.ids = some (outcome, ids) → outcome.failures = [] →
      outcome.substitution.Acyclic →
      ∃ resolved, outcome.substitution.resolve? d.type = some resolved ∧
        ∀ τ : NodeId → Ty, (∀ v, (τ v).schemeFree = true) →
          HasType b e (resolved.substitute τ) := by
  obtain ⟨n, ids, hn, hsub, hinferred, hnodup⟩ :=
    h.exists_inferred (hids.of_reaches (IdSource.reaches_advance _ _)) hmem
  constructor
  · -- what discharging draws is distinct from all that the session drew
    have hall := hids (n + Use.drawn (d.requirements.declaredUses b))
      (by rw [hn, IdSource.advance_add])
    rw [IdSource.taken_add, ← hn] at hall
    obtain ⟨-, hdrawn, hdisjoint⟩ := List.nodup_append'.1 hall
    intro t ht
    exact hinferred.exists_discharge? hnodup hcovered hdrawn
      (fun v hv hold => hdisjoint (hsub hold) hv) ht
  · intro outcome ids' hclean hdischarge hfailures hacyclic
    exact hinferred.hasType_of_discharge? hnodup hcovered hclean hdischarge hfailures hacyclic

/-- A polymorphic function is applied: `f(x)` has the type of `x` if `f` is declared with the type
of the identity. -/
theorem Session.agrees_with_judgement_identity_applied : ∃ b g d,
    Session (.ofSource (.pinnedAt 0) false) g
      [(.call ⟨.zero, .atom (.name "f")⟩ [⟨⟨0, 2⟩, .atom (.name "x")⟩] ⟨⟨0, 1⟩, ⟨0, 4⟩⟩, d)] ∧
    b.get? (.name "f") = some (.scheme 0 [.flexible 0] (.arrow 0 (.flexible 0) (.flexible 0))) ∧
    d.diagnostics? = some [] ∧
    ∃ s ids resolved,
      d.requirements.discharge? b .empty g.ids = some (⟨s, .empty, []⟩, ids) ∧ s.Acyclic ∧
      s.resolve? d.type = some resolved ∧
      ∃ τ, (∀ v, (τ v).schemeFree = true) ∧
        (Ty.primitive 0 .i32).alike (resolved.substitute τ) = true := by
  let b := (Bindings.single (.name "x") (.primitive 0 .i32)).add (.name "f")
    (.scheme 0 [.flexible 0] (.arrow 0 (.flexible 0) (.flexible 0)))
  have hf : b.get? (.name "f")
    = some (.scheme 0 [.flexible 0] (.arrow 0 (.flexible 0) (.flexible 0))) := rfl
  have hx : b.get? (.name "x") = some (.primitive 0 .i32) := rfl
  have hstart : Session (.ofSource (.pinnedAt 0) false) _ [] := .start
  have hcallee := Session.atom (.name "f") hstart rfl
  have hargument := Session.atom (.name "x") hcallee rfl
  have hcall := Session.call ⟨.zero, _⟩ [⟨⟨0, 2⟩, _⟩] ⟨⟨0, 1⟩, ⟨0, 4⟩⟩ hargument (.swap _ _ []) rfl
  have hcovered : Expr.Covered b
      (.call ⟨.zero, .atom (.name "f")⟩ [⟨⟨0, 2⟩, .atom (.name "x")⟩] ⟨⟨0, 1⟩, ⟨0, 4⟩⟩) :=
    .call (.name ⟨_, hf, rfl⟩) (by simpa using .name ⟨_, hx, rfl⟩)
  have hfunction : HasType b (.atom (.name "f"))
      (.arrow 0 (.primitive 0 .i32) (.primitive 0 .i32)) :=
    .name hf ⟨fun _ => .primitive 0 .i32, rfl⟩ rfl
  have hargs : ∀ p ∈ List.zip [(⟨⟨0, 2⟩, .atom (.name "x")⟩ : Placed Expr)] [Ty.primitive 0 .i32],
      HasType b p.1.item p.2 := by
    simpa using HasType.name hx ⟨Ty.var, rfl⟩ rfl
  have htype := HasType.call .zero ⟨⟨0, 1⟩, ⟨0, 4⟩⟩ 0 hfunction rfl hargs (.one _)
  have hagrees := hcall.agrees_with_judgement (.head _) hcovered
    (IdSource.Ascending.distinct ⟨by decide, .inr rfl⟩)
  exact ⟨b, _, _, hcall, hf, hagrees.1 _ htype⟩

end CoContextual
