import CoContextual.Proofs.Typing.Soundness

/-!
# Types are inferred

Whatever type the judgement gives an expression, some assignment turns the inferred type into it and
meets what the derivation requires, and the derivation has no findings (`Inferred.exists_solves`).

The assignments of the parts of an expression are joined: each part has identities of its own, and
what happens outside of these does not matter to it (`Inferred.solves_congr`).
-/

namespace CoContextual

/-- The assignment turns the inferred type into `t` and meets the requirements. -/
structure Derivation.Solves (b : Bindings) (d : Derivation) (A : NodeId → Ty) (t : Ty) : Prop where
  /-- The type of the expression. -/
  type : (d.type.substitute A).erase = t.erase
  /-- The uses of identifiers. -/
  meets : b.Meets d.requirements A

/-- Only the identities that were drawn for a derivation matter to it. -/
theorem Inferred.solves_congr {b : Bindings} {e : Expr} {d : Derivation} {ids : List NodeId}
    {A B : NodeId → Ty} {t : Ty} (h : Inferred e d ids) (hA : d.Solves b A t)
    (hAB : ∀ v ∈ ids, B v = A v) : d.Solves b B t := by
  refine ⟨?_, hA.meets.congr h.over fun v hv => by rw [hAB v hv]⟩
  rw [← hA.type]
  refine Ty.erase_substitute_congr rfl fun v hv => ?_
  rw [hAB v (h.leaf.over.mentions_mem v hv)]

/-! ## Joining assignments -/

/-- Assigns as `A` to the variables in `ids` and as `B` to all others. -/
def joinAt (ids : List NodeId) (A B : NodeId → Ty) (v : NodeId) : Ty :=
  if v ∈ ids then A v else B v

theorem joinAt_of_mem {ids : List NodeId} {A B : NodeId → Ty} {v : NodeId} (hv : v ∈ ids) :
    joinAt ids A B v = A v := if_pos hv

theorem joinAt_of_not_mem {ids : List NodeId} {A B : NodeId → Ty} {v : NodeId} (hv : v ∉ ids) :
    joinAt ids A B v = B v := if_neg hv

/-- If each of several arguments can be assigned its type, one assignment does it for all. -/
theorem exists_solves_all {b : Bindings} {arguments : List (Placed Part)} {types : List Ty}
    (hargs : ∀ p ∈ arguments, Inferred p.item.expr p.item.derivation p.item.ids)
    (hnodup : (arguments.flatMap fun p => p.item.ids).Nodup)
    (h : ∀ q ∈ arguments.zip types, ∃ A, q.1.item.derivation.Solves b A q.2) :
    ∃ A, ∀ q ∈ arguments.zip types, q.1.item.derivation.Solves b A q.2 := by
  induction arguments generalizing types with
  | nil => exact ⟨Ty.flexible, by simp⟩
  | cons p arguments ih =>
    cases types with
    | nil => exact ⟨Ty.flexible, by simp⟩
    | cons t types =>
      rw [List.flatMap_cons, List.nodup_append'] at hnodup
      obtain ⟨-, hnodup, hdisjoint⟩ := hnodup
      rw [List.zip_cons_cons, List.forall_mem_cons] at h
      obtain ⟨⟨A, hA⟩, h⟩ := h
      obtain ⟨B, hB⟩ := ih (fun q hq => hargs q (.tail _ hq)) hnodup h
      -- the arguments share no variables, so that each keeps the assignment it came with
      refine ⟨joinAt p.item.ids A B, ?_⟩
      rw [List.zip_cons_cons, List.forall_mem_cons]
      refine ⟨(hargs p (.head _)).solves_congr hA fun v hv => joinAt_of_mem hv, fun q hq => ?_⟩
      have hmem := (List.of_mem_zip hq).1
      refine (hargs q.1 (.tail _ hmem)).solves_congr (hB q hq) fun v hv => joinAt_of_not_mem ?_
      exact fun hp => hdisjoint hp (List.mem_flatMap.2 ⟨q.1, hmem, hv⟩)

/-- Argument lists of equal types have equal types. -/
theorem Ty.IsArguments.erase_eq {types types' : List Ty} {domain domain' : Ty}
    {extra extra' : List NodeId} (h : Ty.IsArguments types domain extra)
    (h' : Ty.IsArguments types' domain' extra') (heq : types.map Ty.erase = types'.map Ty.erase) :
    domain.erase = domain'.erase := by
  cases h <;> cases h' <;> simp_all

/-- Lists that correspond place by place are mapped to the same list. -/
theorem map_eq_map_of_zip {α β γ : Type} {f : α → γ} {g : β → γ} {l : List α} {m : List β}
    (hlen : l.length = m.length) (h : ∀ p ∈ l.zip m, f p.1 = g p.2) : l.map f = m.map g := by
  induction l generalizing m with
  | nil =>
    cases m with
    | nil => rfl
    | cons => cases hlen
  | cons a l ih =>
    cases m with
    | nil => cases hlen
    | cons c m =>
      rw [List.zip_cons_cons, List.forall_mem_cons] at h
      rw [List.map_cons, List.map_cons, h.1, ih (Nat.succ.inj hlen) h.2]

/-! ## Completeness -/

/-- A call whose callee and arguments are assigned matching types fits, and has the result that the
assignment says. -/
theorem CallSite.Settles.solves {b : Bindings} {e : Expr} {d : Derivation}
    {ids extra extra' : List NodeId} {domain domain' : Ty} {types : List Ty} {site : CallSite}
    {offset : Offset} {arguments : List (Placed Part)} {result arrow i : NodeId} {A : NodeId → Ty}
    (hsite : site.Settles
      (Derivation.inheritedRequirements ⟨offset, d⟩ (arguments.map (Placed.map Part.derivation)))
      result arrow domain d.type)
    (hdomain : Ty.IsArguments (arguments.map fun p => p.item.derivation.type) domain extra)
    (h : Inferred e d ids)
    (hargs : ∀ p ∈ arguments, Inferred p.item.expr p.item.derivation p.item.ids)
    (hlen : arguments.length = types.length) (hdomain' : Ty.IsArguments types domain' extra')
    (hcallee : d.Solves b A (.arrow i domain' (A result)))
    (harguments : ∀ q ∈ arguments.zip types, q.1.item.derivation.Solves b A q.2) :
    site.diagnostics = [] ∧
      (Derivation.call site ⟨offset, d⟩ (arguments.map (Placed.map Part.derivation))).Solves b A
        (A result) := by
  have htype := hcallee.type
  cases hsite with
  | @fits v hv s origins horigins =>
    rw [hv, Ty.substitute_flexible] at htype
    -- the arguments have the types that the judgement gives them, and so has their list
    have hequal : (domain.substitute A).erase = domain'.erase := by
      refine (hdomain.substitute A).erase_eq hdomain' ?_
      rw [List.map_map, List.map_map]
      exact map_eq_map_of_zip hlen fun q hq => (harguments q hq).type
    -- the callee's variable is assigned what the call puts in its place
    have hreplaced : ∀ w, (A w).erase
        = ((Ty.only v (.arrow arrow domain (.flexible result)) w).substitute A).erase := by
      intro w
      refine Ty.only_elim (P := fun u => (A w).erase = (u.substitute A).erase) (fun hw => ?_)
        fun _ => by rw [Ty.substitute_flexible]
      rw [hw, htype]
      simp [hequal]
    have hover := Derivation.inheritedRequirements_over offset h.over fun p hp => (hargs p hp).over
    refine ⟨rfl, by rw [Derivation.type, Ty.substitute_flexible], ?_⟩
    refine (Bindings.meets_mapTypes (hover.imp fun _ t ht => ht.schemeFree)).2 ?_
    refine Bindings.Meets.congr ?_ hover fun w _ => hreplaced w
    refine Derivation.each_inheritedRequirements.2 ⟨hcallee.meets, fun a ha => ?_⟩
    obtain ⟨p, hp, rfl⟩ := List.mem_map.1 ha
    obtain ⟨q, hq, rfl⟩ := List.mem_map.1 (List.map_fst_zip hlen.le ▸ hp)
    exact (harguments q hq).meets
  -- no assignment makes an invalid or a primitive type a function type
  | absorbs hv s horigins =>
    rw [hv] at htype
    simp at htype
  | clashes hv hne =>
    rw [hv] at htype
    simp at htype

section

variable {b : Bindings} {e e' : Expr} {d d' : Derivation} {ids ids' : List NodeId}
  {offset offset' : Offset} {result arrow : NodeId} {u : Ty}

/-- If the two operands can be assigned types that the operator takes, so can the operation be
assigned the operator's result: the operands and the result have variables of their own. -/
theorem Inferred.exists_solves_binary {o : Operation} {operands i j : NodeId} {declared t t' : Ty}
    (h : Inferred e d ids) (h' : Inferred e' d' ids') (hdisjoint : ids.Disjoint ids')
    (hresult : result ∉ ids) (hresult' : result ∉ ids') (htype : o.type = .flexible result)
    (hrequirements : o.requirements = (d.requirements ++ d'.requirements).add (.operator o.operator)
      (.arrow arrow (.product operands [d.type, d'.type]) (.flexible result)))
    (hb : b.get? (.operator o.operator) = some declared)
    (hinstance : declared.HasInstance Ty.flexible (.arrow i (.product j [t, t']) u))
    (hlhs : ∃ A, d.Solves b A t) (hrhs : ∃ A, d'.Solves b A t') :
    ∃ A, (Derivation.binary o ⟨offset, d⟩ ⟨offset', d'⟩).Solves b A u := by
  obtain ⟨A₀, hA₀⟩ := hlhs
  obtain ⟨A₁, hA₁⟩ := hrhs
  obtain ⟨A, hA⟩ : ∃ A, A = joinAt ids A₀ (joinAt ids' A₁ fun _ => u) := ⟨_, rfl⟩
  have hAresult : A result = u := by
    rw [hA, joinAt_of_not_mem hresult, joinAt_of_not_mem hresult']
  have hsolves : d.Solves b A t := h.solves_congr hA₀ fun v hv => by rw [hA, joinAt_of_mem hv]
  have hsolves' : d'.Solves b A t' := h'.solves_congr hA₁ fun v hv => by
    rw [hA, joinAt_of_not_mem fun hv' => hdisjoint hv' hv, joinAt_of_mem hv]
  refine ⟨A, ?_, ?_⟩
  · rw [Derivation.type, htype, Ty.substitute_flexible, hAresult]
  · rw [Derivation.requirements, hrequirements]
    refine (Bindings.meets_add hb).2 ⟨?_, hinstance.congr ?_⟩
    · exact Requirements.each_append.2 ⟨hsolves.meets, hsolves'.meets⟩
    · simp [hsolves.type, hsolves'.type, hAresult]

/-- If the callee can be assigned a function type, and each argument the type that the function
takes in its place, the call fits and can be assigned the function's result: the callee, the
arguments and the result have variables of their own. -/
theorem Inferred.exists_solves_call {extra extra' : List NodeId} {domain domain' : Ty}
    {types : List Ty} {site : CallSite} {arguments : List (Placed Part)} {i : NodeId}
    (hdomain : Ty.IsArguments (arguments.map fun p => p.item.derivation.type) domain extra)
    (hsite : site.Settles
      (Derivation.inheritedRequirements ⟨offset, d⟩ (arguments.map (Placed.map Part.derivation)))
      result arrow domain d.type)
    (h : Inferred e d ids)
    (hargs : ∀ p ∈ arguments, Inferred p.item.expr p.item.derivation p.item.ids)
    (hapart : CallSite.Apart result arrow ids arguments) (hlen : arguments.length = types.length)
    (hdomain' : Ty.IsArguments types domain' extra')
    (hcallee : ∃ A, d.Solves b A (.arrow i domain' u))
    (harguments : ∀ q ∈ arguments.zip types, ∃ A, q.1.item.derivation.Solves b A q.2) :
    site.diagnostics = [] ∧
      ∃ A, (Derivation.call site ⟨offset, d⟩ (arguments.map (Placed.map Part.derivation))).Solves
        b A u := by
  have hresult := hapart.result_not_mem
  rw [List.mem_append, not_or] at hresult
  obtain ⟨A₀, hA₀⟩ := hcallee
  obtain ⟨A₁, hA₁⟩ := exists_solves_all hargs hapart.arguments_nodup harguments
  obtain ⟨A, hA⟩ : ∃ A, A = joinAt ids A₀
      (joinAt (arguments.flatMap fun p => p.item.ids) A₁ fun _ => u) := ⟨_, rfl⟩
  have hAresult : A result = u := by
    rw [hA, joinAt_of_not_mem hresult.1, joinAt_of_not_mem hresult.2]
  have hsolves : d.Solves b A (.arrow i domain' (A result)) := by
    rw [hAresult]
    exact h.solves_congr hA₀ fun v hv => by rw [hA, joinAt_of_mem hv]
  have hsolvesAll : ∀ q ∈ arguments.zip types, q.1.item.derivation.Solves b A q.2 := by
    intro q hq
    have hp := (List.of_mem_zip hq).1
    refine (hargs q.1 hp).solves_congr (hA₁ q hq) fun v hv => ?_
    have hmem : v ∈ arguments.flatMap fun p => p.item.ids := List.mem_flatMap.2 ⟨q.1, hp, hv⟩
    rw [hA, joinAt_of_not_mem fun hv' => hapart.disjoint hv' hmem, joinAt_of_mem hmem]
  obtain ⟨hclean, hcall⟩ := hsite.solves hdomain h hargs hlen hdomain' hsolves hsolvesAll
  rw [hAresult] at hcall
  exact ⟨hclean, A, hcall⟩

end

/-- Whatever type the judgement gives an expression, its derivation has no findings, and some
assignment turns the inferred type into it and meets the requirements. -/
theorem Inferred.exists_solves {b : Bindings} {e : Expr} {d : Derivation} {ids : List NodeId}
    (h : Inferred e d ids) (hnodup : ids.Nodup) {t : Ty} (ht : HasType b e t) :
    d.diagnostics? = some [] ∧ ∃ A, d.Solves b A t := by
  induction h generalizing t with
  | name text id hspan =>
    cases ht with | name hb hinstance _ =>
    refine ⟨by rw [Derivation.diagnostics?], fun _ => t, ?_, ?_⟩
    · rw [Derivation.type, Ty.substitute_flexible]
    · refine (Bindings.meets_add hb).2 ⟨Requirements.each_empty, ?_⟩
      rwa [Ty.substitute_flexible]
  | literal form text id hspan =>
    cases ht with | literal _ _ i =>
    refine ⟨by rw [Derivation.diagnostics?], Ty.flexible, ?_, Requirements.each_empty⟩
    rw [Derivation.type, Ty.substitute_primitive, Ty.erase_primitive, Ty.erase_primitive]
  | missing id => cases ht
  | grouping offset _ ih =>
    cases ht with | grouping _ ht =>
    obtain ⟨hclean, A, hA⟩ := ih hnodup ht
    rw [Derivation.diagnostics?, Derivation.diagnosticsIn?_eq_nil]
    exact ⟨hclean, A, hA.type, hA.meets⟩
  | @unary e d ids operator span offset result arrow h ih =>
    cases ht with | unary _ _ i ht hb hinstance _ =>
    simp only [List.nodup_cons, List.mem_cons, not_or] at hnodup
    obtain ⟨⟨-, hresult⟩, -, hnodup⟩ := hnodup
    obtain ⟨hclean, A₀, hA₀⟩ := ih hnodup ht
    rw [Derivation.diagnostics?, Derivation.diagnosticsIn?_eq_nil]
    -- the result is a variable outside of the operand, and can be assigned the type at will
    refine ⟨hclean, joinAt ids A₀ fun _ => t, ?_, ?_⟩
    · rw [Derivation.type, Ty.substitute_flexible, joinAt_of_not_mem hresult]
    · have hA := h.solves_congr (B := joinAt ids A₀ fun _ => t) hA₀ fun v hv => joinAt_of_mem hv
      refine (Bindings.meets_add hb).2 ⟨hA.meets, hinstance.congr ?_⟩
      simp [hA.type, joinAt_of_not_mem hresult]
  | @binary e e' d d' ids ids' offset operator span offset' result operands arrow h h' ih ih' =>
    cases ht with | binary _ _ _ i j ht ht' hb hinstance _ =>
    simp only [List.nodup_cons, List.mem_cons, List.mem_append, not_or] at hnodup
    obtain ⟨⟨-, -, hresult, hresult'⟩, -, -, hnodup⟩ := hnodup
    obtain ⟨hids, hids', hdisjoint⟩ := List.nodup_append'.1 hnodup
    obtain ⟨hclean, hlhs⟩ := ih hids ht
    obtain ⟨hclean', hrhs⟩ := ih' hids' ht'
    exact ⟨Derivation.diagnostics?_binary_eq_nil.2 ⟨hclean, hclean'⟩,
      h.exists_solves_binary h' hdisjoint hresult hresult' rfl rfl hb hinstance hlhs hrhs⟩
  | @call e d ids extra domain site offset arguments span result arrow hdomain hsite _ h hargs ih
      ihs =>
    cases ht with | @call _ _ types domain' _ extra' _ _ i ht hlen hargtypes hdomain' =>
    rw [List.length_map] at hlen
    have hapart := CallSite.Apart.of_nodup hnodup
    obtain ⟨hclean, hcallee⟩ := ih hapart.callee_nodup ht
    have heach : ∀ q ∈ arguments.zip types, q.1.item.derivation.diagnostics? = some [] ∧
        ∃ A, q.1.item.derivation.Solves b A q.2 := by
      intro q hq
      have hp := (List.of_mem_zip hq).1
      refine ihs q.1 hp (hapart.argument_nodup hp) ?_
      refine hargtypes (Placed.map Part.expr q.1, q.2) ?_
      rw [List.zip_map_left]
      exact List.mem_map_of_mem hq
    obtain ⟨hsites, hsolves⟩ := Inferred.exists_solves_call hdomain hsite h hargs hapart hlen
      hdomain' hcallee fun q hq => (heach q hq).2
    refine ⟨Derivation.diagnostics?_call_eq_nil.2 ⟨hsites, hclean, fun a ha => ?_⟩, hsolves⟩
    obtain ⟨p, hp, rfl⟩ := List.mem_map.1 ha
    obtain ⟨q, hq, rfl⟩ := List.mem_map.1 (List.map_fst_zip hlen.le ▸ hp)
    exact (heach q hq).1

end CoContextual
