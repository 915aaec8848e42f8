import CoContextual.Proofs.Derivation.Nodes
import CoContextual.Proofs.Substitution.Records
import CoContextual.Proofs.Uses.Anchored

/-!
# What a search finds

A search for the identity of a type leads to text only where the type belongs to the expression.
Calls and declarations also look up what they replaced. They keep a record under the identity of
what took the place of a variable, and that is always the identity of a type that they or their
parts hold.

- `Derivation.identities`: the identities of the nodes of all types that an expression and its
  parts hold;
- `Derivation.Typed`: the expressions that a typer makes, over leaves typed by hand;
- `Derivation.headSpan?`: where the leaf or operator stands that an expression has its type from;
- `Derivation.Typed.lookup`: under any other identity nothing is found, and under the identity of
  its own type an expression finds its head.

A search that finds nothing ends even where positions outgrow their words, since there is nothing to
shift. No store needs to be acyclic.
-/

namespace CoContextual

namespace Requirements

/-- The types of all uses. -/
def types (r : Requirements) : List Ty := r.uses.values.flatten

theorem mem_types {r : Requirements} {t : Ty} : t ∈ r.types ↔ ∃ token, t ∈ r.get token := by
  rw [types, Table.values, List.mem_flatten]
  constructor
  · rintro ⟨ts, hts, ht⟩
    obtain ⟨e, he, rfl⟩ := List.mem_map.1 hts
    refine ⟨e.1, ?_⟩
    rw [get, Table.mem_toList_iff.1 he]
    exact ht
  · rintro ⟨token, ht⟩
    rw [get] at ht
    cases hts : r.uses.get? token with
    | none =>
      rw [hts] at ht
      cases ht
    | some ts =>
      rw [hts] at ht
      exact ⟨ts, List.mem_map_of_mem (Table.mem_toList_iff.2 hts), ht⟩

end Requirements

/-! ## Identities of held types -/

namespace Derivation

/-- The types that the topmost node holds. -/
def held : Derivation → List Ty
  | atom type requirements _ => type :: requirements.types
  | grouping _ => []
  | unary operation _ => operation.type :: operation.operatorType :: operation.requirements.types
  | binary operation _ _ =>
    operation.type :: operation.operatorType :: operation.requirements.types
  | call site _ _ => site.type :: site.functionType :: site.requirements.types
  | missing type => [type]

/-- The identities of all nodes of the types that an expression and its parts hold. -/
def identities (d : Derivation) : List NodeId :=
  d.nodes.flatMap fun n => n.item.held.flatMap Ty.identities

variable {d : Derivation} {part : Placed Derivation} {t : Ty} {id : NodeId}

theorem mem_identities_of_held (ht : t ∈ d.held) (hid : id ∈ t.identities) :
    id ∈ d.identities := by
  rw [identities, nodes_eq, List.flatMap_cons]
  exact List.mem_append_left _ (List.mem_flatMap.2 ⟨t, ht, hid⟩)

/-- What a part bears, the whole bears. -/
theorem mem_identities_of_part (hpart : part ∈ d.parts) (h : id ∈ part.item.identities) :
    id ∈ d.identities := by
  obtain ⟨n, hn, hid⟩ := List.mem_flatMap.1 h
  rw [identities, nodes_eq, List.flatMap_cons]
  refine List.mem_append_right _ (List.mem_flatMap.2 ⟨n.under part.offset, ?_, hid⟩)
  refine List.mem_flatMap.2 ⟨part, hpart, ?_⟩
  rw [nodesIn]
  exact List.mem_map_of_mem hn

theorem not_mem_identities_of_part (hid : id ∉ d.identities) (hpart : part ∈ d.parts) :
    id ∉ part.item.identities :=
  fun h => hid (mem_identities_of_part hpart h)

/-- An expression holds its type, or a part that has the same type does. -/
theorem mem_identities_of_type (d : Derivation) (hid : id ∈ d.type.identities) :
    id ∈ d.identities := by
  induction d using ind with
  | grouping inner ih => exact mem_identities_of_part (.head _) (ih hid)
  | atom | unary | binary | call | missing => exact mem_identities_of_held (.head _) hid

theorem mem_identities_of_types (d : Derivation) (ht : t ∈ d.requirements.types)
    (hid : id ∈ t.identities) : id ∈ d.identities := by
  induction d using ind with
  | atom => exact mem_identities_of_held (.tail _ ht) hid
  | grouping inner ih => exact mem_identities_of_part (.head _) (ih ht)
  | unary | binary | call => exact mem_identities_of_held (.tail _ (.tail _ ht)) hid
  | missing => cases ht

section

variable {F : NodeId → Prop}

/-- The types of parts are known, if all that the whole bears is known. -/
theorem within_type (hF : ∀ id ∈ d.identities, F id) (hpart : part ∈ d.parts) :
    part.item.type.Within (· ∈ d.identities) F :=
  .of_identities (fun _ hid => mem_identities_of_part hpart (mem_identities_of_type _ hid)) hF

theorem within_types (hF : ∀ id ∈ d.identities, F id) (hpart : part ∈ d.parts)
    (ht : t ∈ part.item.requirements.types) : t.Within (· ∈ d.identities) F :=
  .of_identities (fun _ hid => mem_identities_of_part hpart (mem_identities_of_types _ ht hid)) hF

end

end Derivation

/-! ## Records of calls -/

theorem Ty.IsArguments.within {types : List Ty} {domain : Ty} {extra : List NodeId}
    {K F : NodeId → Prop} (h : Ty.IsArguments types domain extra)
    (htypes : ∀ t ∈ types, t.Within K F) (hextra : ∀ id ∈ extra, K id) : domain.Within K F := by
  cases h with
  | none i => exact Ty.within_primitive.2 (hextra i (.head _))
  | one t => exact htypes _ (.head _)
  | many i t u ts => exact Ty.within_product.2 ⟨hextra i (.head _), htypes⟩

/-- A function type keeps the identities that were drawn for it and its argument list, whatever
its variables are replaced by. -/
theorem Substitution.mem_identities_of_applyTo? {s : Substitution} {types : List Ty}
    {domain codomain : Ty} {extra : List NodeId} {arrow : NodeId} {r : Resolved}
    (hdomain : Ty.IsArguments types domain extra)
    (hr : s.applyTo? (.arrow arrow domain codomain) = some r) :
    ∀ id ∈ arrow :: extra, id ∈ r.type.identities := by
  rw [applyTo?, Ty.applyWith] at hr
  obtain ⟨d, hd, hr⟩ := Option.bind_eq_some_iff.1 hr
  obtain ⟨c, -, hr⟩ := Option.bind_eq_some_iff.1 hr
  cases hr
  have hextra : ∀ id ∈ extra, id = d.type.id := by
    cases hdomain with
    | none i =>
      rw [Ty.applyWith] at hd
      cases hd
      exact fun _ => List.mem_singleton.1
    | one t => exact List.forall_mem_nil _
    | many i t u ts =>
      rw [Ty.applyWith] at hd
      obtain ⟨cs, -, hd⟩ := Option.bind_eq_some_iff.1 hd
      cases hd
      exact fun _ => List.mem_singleton.1
  refine List.forall_mem_cons.2 ⟨.head _, fun id hid => .tail _ (List.mem_append_left _ ?_)⟩
  rw [hextra id hid]
  exact d.type.id_mem_identities

namespace Derivation

variable {callee : Placed Derivation} {arguments : List (Placed Derivation)}

theorem exists_of_mem_types_inheritedRequirements {t : Ty}
    (h : t ∈ (inheritedRequirements callee arguments).types) :
    ∃ p ∈ callee :: arguments, t ∈ p.item.requirements.types := by
  obtain ⟨token, ht⟩ := Requirements.mem_types.1 h
  rw [get_inheritedRequirements, List.mem_append, List.mem_flatMap] at ht
  rcases ht with ht | ⟨a, ha, ht⟩
  · exact ⟨callee, .head _, Requirements.mem_types.2 ⟨token, ht⟩⟩
  · exact ⟨a, .tail _ ha, Requirements.mem_types.2 ⟨token, ht⟩⟩

/-- A call that fits keeps records under the identities of its types and those of its parts
only. -/
theorem get?_origins_of_fitting? {site : CallSite} {s : Substitution} {steps : List Step}
    {result arrow : NodeId} {domain : Ty} {extra : List NodeId}
    (hdomain : Ty.IsArguments (arguments.map fun a => a.item.type) domain extra)
    (hunify : Substitution.empty.unify? callee.item.type (.arrow arrow domain (.flexible result))
      = some ⟨steps, .ok s⟩)
    (hsite : CallSite.fitting? (inheritedRequirements callee arguments) (.flexible result)
      (.arrow arrow domain (.flexible result)) s = some site)
    {id : NodeId} (hid : id ∉ (call site callee arguments).identities) :
    site.origins.get? id = none := by
  obtain ⟨⟨requirements, replaced⟩, hreplaced, hsite⟩ := Option.bind_eq_some_iff.1 hsite
  obtain ⟨type, htype, hsite⟩ := Option.bind_eq_some_iff.1 hsite
  obtain ⟨functionType, hfunction, hsite⟩ := Option.bind_eq_some_iff.1 hsite
  cases hsite
  set d : Derivation := call _ callee arguments with hd
  -- the store knows one variable more, the result, which may be replaced and forgotten
  let F : NodeId → Prop := fun v => v ∈ d.identities ∨ v = result
  have hF : ∀ v ∈ d.identities, F v := fun _ => .inl
  have hdrawn : ∀ i ∈ arrow :: extra, i ∈ d.identities := fun i hi =>
    mem_identities_of_held (.tail _ (.head _))
      (Substitution.mem_identities_of_applyTo? hdomain hfunction i hi)
  have hcallee : callee.item.type.Within (· ∈ d.identities) F := within_type hF (.head _)
  have hresult : (Ty.flexible result).Within (· ∈ d.identities) F := Ty.within_flexible.2 (.inr rfl)
  have hexpected : (Ty.arrow arrow domain (.flexible result)).Within (· ∈ d.identities) F :=
    Ty.within_arrow.2 ⟨hdrawn arrow (.head _), hdomain.within
      (List.forall_mem_map.2 fun a ha => within_type hF (.tail _ ha))
      fun i hi => hdrawn i (.tail _ hi), hresult⟩
  have hentries : Substitution.AllEntries (Ty.Within (· ∈ d.identities) F) s :=
    (Substitution.unify?_eq_some_iff.1 hunify).allEntries (Ty.partClosed_within _ _)
      (Substitution.allEntries_empty _) (List.forall_mem_singleton.2 ⟨hcallee, hexpected⟩) rfl
  -- a result that is left unbound is the type of the call
  have hunbound : ∀ w, F w → s.find? w = some (.unbound w) → w ∈ d.identities := by
    rintro w (hw | rfl) hfind
    · exact hw
    · have hself : s.applyTo? (.flexible w) = some ⟨.flexible w, []⟩ := by
        rw [Substitution.applyTo?, Ty.applyWith, Ty.applyVar, Substitution.expand, hfind]
        exact congrArg some (congrArg _ (if_pos rfl))
      cases htype.symm.trans hself
      exact mem_identities_of_held (.head _) (.head _)
  refine Origins.get?_ofResolved_eq_none (K := (· ∈ d.identities)) ?_ hid
  refine List.forall_mem_append.2 ⟨Substitution.known_of_substitute? hentries hunbound
    (fun token t ht => ?_) hreplaced, ?_⟩
  · obtain ⟨p, hp, htypes⟩ :=
      exists_of_mem_types_inheritedRequirements (Requirements.mem_types.2 ⟨token, ht⟩)
    exact within_types hF hp htypes
  · simp only [List.forall_mem_cons, List.not_mem_nil, false_implies, implies_true, and_true]
    exact ⟨Substitution.known_of_applyTo? hentries hunbound hresult htype,
      Substitution.known_of_applyTo? hentries hunbound hexpected hfunction⟩

theorem get?_origins_of_ofCall {span : Span} {d : Derivation} {steps : List Step}
    {ids ids' : IdSource} (h : ofCall callee arguments span ids = .ok ((d, steps), ids')) :
    ∃ site, d = .call site callee arguments ∧
      ∀ id ∉ d.identities, site.origins.get? id = none := by
  obtain ⟨n, result, arrow, extra, domain, attempt, site, -, -, hdomain, hattempt, rfl, hsite⟩ :=
    ofCall_eq_ok h
  refine ⟨site, rfl, fun id hid => ?_⟩
  obtain ⟨steps, outcome⟩ := attempt
  cases outcome with
  | ok s => exact get?_origins_of_fitting? hdomain hattempt hsite hid
  | error e =>
    obtain ⟨places, -, hsite⟩ := Option.bind_eq_some_iff.1 hsite
    cases hsite
    exact Table.get?_empty _

/-! ## Searches that find nothing -/

theorem throughOrigins_of_get?_none {origins : Origins} {search : NodeId → Option (List Span)}
    {id : NodeId} (h : origins.get? id = none) : throughOrigins origins search id = search id := by
  rw [throughOrigins, h]
  exact Option.bind_fun_some _

/-- The expressions that a typer makes of names, literals, missing operands and leaves that are
typed by hand. -/
inductive Typed : Derivation → Prop
  | atom {a : Atom} {g g' : Typer} {d : Derivation} (h : Typer.atom a g = .ok (d, g')) : Typed d
  | leaf (type : Ty) (requirements : Requirements) (span : Span) :
      Typed (.atom type requirements span)
  | missing {g g' : Typer} {d : Derivation} (h : Typer.missing g = .ok (d, g')) : Typed d
  | grouping {inner : Placed Derivation} {g g' : Typer} {d : Derivation}
      (hinner : Typed inner.item) (h : Typer.grouping inner g = .ok (d, g')) : Typed d
  | unary {operator : String} {span : Span} {operand : Placed Derivation} {g g' : Typer}
      {d : Derivation} (hoperand : Typed operand.item)
      (h : Typer.unary operator span operand g = .ok (d, g')) : Typed d
  | binary {lhs rhs : Placed Derivation} {operator : String} {span : Span} {g g' : Typer}
      {d : Derivation} (hlhs : Typed lhs.item) (hrhs : Typed rhs.item)
      (h : Typer.binary lhs operator span rhs g = .ok (d, g')) : Typed d
  | call {callee : Placed Derivation} {arguments : List (Placed Derivation)} {span : Span}
      {g g' : Typer} {d : Derivation} (hcallee : Typed callee.item)
      (harguments : ∀ a ∈ arguments, Typed a.item)
      (h : Typer.call callee arguments span g = .ok (d, g')) : Typed d

variable {d : Derivation} {id : NodeId}

theorem spansFor?_atom_eq_nil {type : Ty} {requirements : Requirements} {span : Span}
    (h : id ∉ (atom type requirements span).identities) :
    (atom type requirements span).spansFor? id = some [] := by
  rw [spansFor?, if_neg]
  rintro rfl
  exact h (mem_identities_of_held (.head _) type.id_mem_identities)

theorem owns_eq_false {t u : Ty} (hid : id ∉ d.identities) (ht : t ∈ d.held) (hu : u ∈ d.held) :
    (t.id = id || u.id = id) = false := by
  rw [Bool.or_eq_false_iff, decide_eq_false_iff_not, decide_eq_false_iff_not]
  constructor <;> rintro rfl
  · exact hid (mem_identities_of_held ht t.id_mem_identities)
  · exact hid (mem_identities_of_held hu u.id_mem_identities)

/-- Under an identity that an expression does not bear nothing is found in it. -/
theorem Typed.spansFor?_eq_nil (h : d.Typed) (hid : id ∉ d.identities) :
    d.spansFor? id = some [] := by
  induction h with
  | @atom a g g' d h =>
    have hatom := Typer.infer_record_eq_ok h
    cases a with
    | name text =>
      obtain ⟨i, span, -, -, -, rfl⟩ := ofAtom_name_eq_ok hatom
      exact spansFor?_atom_eq_nil hid
    | literal form text =>
      obtain ⟨i, span, -, -, -, rfl⟩ := ofAtom_literal_eq_ok hatom
      exact spansFor?_atom_eq_nil hid
  | leaf type requirements span => exact spansFor?_atom_eq_nil hid
  | missing h =>
    have hrun := Typer.fresh_record_eq_ok h
    obtain ⟨rfl, -⟩ := Prod.mk.inj hrun
    rw [spansFor?]
  | grouping hinner h ih =>
    obtain ⟨rfl, -⟩ := Typer.recordExpression_eq_ok h
    rw [spansFor?]
    exact spansIn?_of_nil _ (ih (not_mem_identities_of_part hid (.head _)))
  | unary hoperand h ih =>
    have hrun := Typer.fresh_record_eq_ok h
    obtain ⟨rfl, -⟩ := Prod.mk.inj hrun
    rw [spansFor?, Operation.owns, owns_eq_false hid (.head _) (.tail _ (.head _)),
      if_neg Bool.false_ne_true]
    exact spansIn?_of_nil _ (ih (not_mem_identities_of_part hid (.head _)))
  | binary hlhs hrhs h ih ih' =>
    have hrun := Typer.fresh_record_eq_ok h
    obtain ⟨rfl, -⟩ := Prod.mk.inj hrun
    rw [spansFor?, Operation.owns, owns_eq_false hid (.head _) (.tail _ (.head _)),
      spansIn?_of_nil _ (ih (not_mem_identities_of_part hid (.head _))),
      spansIn?_of_nil _ (ih' (not_mem_identities_of_part hid (.tail _ (.head _))))]
    rfl
  | call hcallee harguments h ih ihs =>
    obtain ⟨steps, h⟩ := Typer.call_eq_ok h
    obtain ⟨site, rfl, horigins⟩ := get?_origins_of_ofCall h
    have howns := owns_eq_false hid (.head _) (.tail _ (.head _))
    rw [spansFor?_call_of_not_owned howns (horigins id hid), both,
      spansIn?_of_nil _ (ih (not_mem_identities_of_part hid (.head _))),
      spansInAll?_of_nil fun a ha =>
        spansIn?_of_nil _ (ihs a ha (not_mem_identities_of_part hid (.tail _ ha)))]
    rfl

/-! ## Where the own type of an expression is found -/

/-- Whether the leaf or operator that the expression has its type from is there. Parentheses have
their type from what they enclose, and a call has it from its callee. -/
def headed : Derivation → Bool
  | atom _ _ _ => true
  | grouping ⟨_, inner⟩ => inner.headed
  | unary _ _ => true
  | binary _ _ _ => true
  | call _ ⟨_, callee⟩ _ => callee.headed
  | missing _ => false

/-- Where this leaf or operator stands, if it is there and its position fits. -/
def headSpan? : Derivation → Option Span
  | atom _ _ span => some span
  | grouping ⟨offset, inner⟩ => inner.headSpan?.bind (·.shift? offset)
  | unary operation _ => some operation.span
  | binary operation _ _ => some operation.span
  | call _ ⟨offset, callee⟩ _ => callee.headSpan?.bind (·.shift? offset)
  | missing _ => none

theorem spansIn?_of_headSpan? {part : Placed Derivation}
    (h : part.item.spansFor? id = part.item.headSpan?.map ([·])) :
    spansIn? part id = (part.item.headSpan?.bind (·.shift? part.offset)).map ([·]) := by
  cases hhead : part.item.headSpan? with
  | none => rw [spansIn?, h, hhead]; rfl
  | some span => exact spansIn?_of_singleton _ (h.trans (congrArg _ hhead))

/-- A search with a result does not look into the records, and neither does one that fails. -/
theorem throughOrigins_of_singleton {search : NodeId → Option (List Span)} {span : Option Span}
    (origins : Origins) (h : search id = span.map ([·])) :
    throughOrigins origins search id = span.map ([·]) := by
  cases span with
  | none => rw [throughOrigins, h]; rfl
  | some span => exact throughOrigins_of_ne_nil h (List.cons_ne_nil _ _)

/-- Under the identity of its own type an expression that has a head finds the head alone. -/
theorem spansFor?_type (hd : d.headed = true) :
    d.spansFor? d.type.id = d.headSpan?.map ([·]) := by
  induction d using ind with
  | atom t requirements span =>
    rw [spansFor?, type, if_pos rfl]
    rfl
  | grouping inner ih =>
    rw [spansFor?]
    exact spansIn?_of_headSpan? (ih hd)
  | unary operation operand ih =>
    rw [spansFor?, if_pos (by simp [Operation.owns, type])]
    rfl
  | binary operation lhs rhs ih ih' =>
    rw [spansFor?, if_pos (by simp [Operation.owns, type])]
    rfl
  | call site callee arguments ih ihs =>
    rw [spansFor?_call]
    refine throughOrigins_of_singleton _ ?_
    rw [CallSite.search?, if_pos (by simp [CallSite.owns, type])]
    exact spansIn?_of_headSpan? (ih hd)
  | missing t => cases hd

theorem exists_headSpan?_in {part : Placed Derivation} {places : List Span}
    (h : ∀ {places}, part.item.places? = some places →
      ∃ span ∈ places, part.item.headSpan? = some span)
    (hplaces : placesIn? part = some places) :
    ∃ span ∈ places, part.item.headSpan?.bind (·.shift? part.offset) = some span := by
  rw [placesIn?] at hplaces
  obtain ⟨inner, hinner, hshift⟩ := Option.bind_eq_some_iff.1 hplaces
  obtain ⟨span, hspan, hhead⟩ := h hinner
  rw [hhead]
  exact exists_mem_of_mapM hshift hspan

/-- The head stands at one of the places of the expression, if these fit their words. -/
theorem exists_headSpan? {places : List Span} (hd : d.headed = true)
    (hplaces : d.places? = some places) : ∃ span ∈ places, d.headSpan? = some span := by
  induction d using ind generalizing places with
  | atom t requirements span =>
    rw [places?] at hplaces
    cases hplaces
    exact ⟨span, .head _, rfl⟩
  | grouping inner ih =>
    rw [places?] at hplaces
    exact exists_headSpan?_in (ih hd) hplaces
  | unary operation operand ih =>
    obtain ⟨inner, -, rfl⟩ := places?_unary hplaces
    exact ⟨_, .head _, rfl⟩
  | binary operation lhs rhs ih ih' =>
    obtain ⟨left, right, -, -, rfl⟩ := places?_binary hplaces
    exact ⟨_, .head _, rfl⟩
  | call site callee arguments ih ihs =>
    obtain ⟨first, rest, hfirst, -, rfl⟩ := places?_call hplaces
    obtain ⟨span, hspan, hhead⟩ := exists_headSpan?_in (ih hd) hfirst
    exact ⟨span, List.mem_append_left _ hspan, hhead⟩
  | missing t => cases hd

end Derivation

/-! ## Statements -/

namespace Statement

/-- The types that a statement holds beside its value: its annotation and what it requires. -/
def held : Statement → List Ty
  | declare declaration _ =>
    (declaration.ascription.map Located.item).toList ++ declaration.requirements.types
  | ret _ => []

/-- The identities of all nodes of the types that a statement and its value hold. What the name is
bound to does not count, since no search leads there. -/
def identities (s : Statement) : List NodeId :=
  s.held.flatMap Ty.identities ++ s.value.item.identities

variable {s : Statement} {t : Ty} {id : NodeId}

theorem mem_identities_of_held (ht : t ∈ s.held) (hid : id ∈ t.identities) : id ∈ s.identities :=
  List.mem_append_left _ (List.mem_flatMap.2 ⟨t, ht, hid⟩)

theorem mem_identities_of_value (h : id ∈ s.value.item.identities) : id ∈ s.identities :=
  List.mem_append_right _ h

end Statement

namespace Declaration

variable {name : Ident} {value : Placed Derivation} {declaration : Declaration}
  {ids ids' : IdSource} {id : NodeId}

/-- A declaration whose value fits keeps records under the identities of its annotation, of what it
requires and of its value only. -/
theorem get?_origins_of_fitting {ascription : Located Ty} {s : Substitution} {steps : List Step}
    (hunify : Substitution.empty.unify? ascription.item value.item.type = some ⟨steps, .ok s⟩)
    (h : fitting name ascription value.item s ids = .ok (declaration, ids'))
    (hid : id ∉ (Statement.declare declaration value).identities) :
    declaration.origins.get? id = none := by
  obtain ⟨declared, ids₁, hunless, hsettle⟩ := bind_eq_ok.1 h
  obtain ⟨⟨requirements, replaced⟩, ids₂, hunless', hquantify⟩ := bind_eq_ok.1 hsettle
  obtain ⟨binding, ids₃, -, hret⟩ := bind_eq_ok.1 hquantify
  obtain ⟨hdeclared, -⟩ := Inference.unlessSome_eq_ok hunless
  obtain ⟨hreplaced, -⟩ := Inference.unlessSome_eq_ok hunless'
  let K : NodeId → Prop := (· ∈ (Statement.declare declaration value).identities)
  obtain ⟨rfl, -⟩ := Prod.mk.inj (Except.ok.inj hret)
  have hascribed : ascription.item.Within K K :=
    .of_identities (fun i hi => Statement.mem_identities_of_held (.head _) hi) fun _ hi => hi
  have hvalue : value.item.type.Within K K := .of_identities (fun i hi =>
    Statement.mem_identities_of_value (value.item.mem_identities_of_type hi)) fun _ hi => hi
  have hentries : Substitution.AllEntries (Ty.Within K K) s :=
    (Substitution.unify?_eq_some_iff.1 hunify).allEntries (Ty.partClosed_within _ _)
      (Substitution.allEntries_empty _) (List.forall_mem_singleton.2 ⟨hascribed, hvalue⟩) rfl
  -- the typer draws no variable for a declaration, so that all that are left unbound are known
  have hunbound : ∀ w, K w → s.find? w = some (.unbound w) → K w := fun _ hw _ => hw
  refine Origins.get?_ofResolved_eq_none (K := K) (List.forall_mem_cons.2
    ⟨Substitution.known_of_applyTo? hentries hunbound hascribed hdeclared,
      Substitution.known_of_substitute? hentries hunbound (fun token t ht => ?_) hreplaced⟩) hid
  refine .of_identities (fun i hi => Statement.mem_identities_of_value ?_) fun _ hi => hi
  exact value.item.mem_identities_of_types (Requirements.mem_types.2 ⟨token, ht⟩) hi

end Declaration

namespace Statement

variable {value : Placed Derivation} {s : Statement} {id : NodeId}

theorem get?_origins_of_declare {name : Ident} {ascription : Option (Located TypeExpr)}
    {g g' : Typer} (h : Typer.declare name ascription value g = .ok (s, g')) :
    ∃ declaration, s = .declare declaration value ∧
      ∀ id ∉ s.identities, declaration.origins.get? id = none := by
  obtain ⟨declaration, rfl, ⟨ids, ids', hmade⟩ | ⟨type, steps, store, ids, ids', hattempt, hmade⟩ |
    ⟨type, ids, ids', hmade⟩⟩ := declare_cases h
  · obtain rfl := congrArg Prod.fst hmade
    exact ⟨_, rfl, fun id _ => Table.get?_empty id⟩
  · exact ⟨declaration, rfl, fun _ => Declaration.get?_origins_of_fitting hattempt hmade⟩
  · refine ⟨declaration, rfl, fun id _ => ?_⟩
    obtain ⟨places, ids₁, -, hquantify⟩ := bind_eq_ok.1 hmade
    obtain ⟨binding, ids₂, -, hret⟩ := bind_eq_ok.1 hquantify
    cases hret
    exact Table.get?_empty id

theorem ownSpans_eq_nil {declaration : Declaration}
    (hid : id ∉ (declare declaration value).identities) : declaration.ownSpans id = [] := by
  rw [Declaration.ownSpans]
  cases hascription : declaration.ascription with
  | none => rfl
  | some ascription =>
    refine if_neg ?_
    rintro rfl
    refine hid (mem_identities_of_held ?_ ascription.item.id_mem_identities)
    rw [held, hascription]
    exact .head _

/-- Under an identity that neither a statement nor its value bears nothing is found in it. -/
theorem MadeOf.spansFor?_eq_nil (h : s.MadeOf value) (hvalue : value.item.Typed)
    (hid : id ∉ s.identities) : s.spansFor? id = some [] := by
  have hempty : s.value = value → Derivation.spansIn? value id = some [] := fun heq =>
    Derivation.spansIn?_of_nil _ (hvalue.spansFor?_eq_nil fun h =>
      hid (mem_identities_of_value (by rwa [heq])))
  cases h with
  | ret h =>
    obtain ⟨rfl, -⟩ := Typer.recordStatement_eq_ok h
    exact hempty rfl
  | declare h =>
    obtain ⟨declaration, rfl, horigins⟩ := get?_origins_of_declare h
    rw [spansFor?_declare, Derivation.throughOrigins_of_get?_none (horigins id hid),
      Declaration.search?, both, ownSpans_eq_nil hid, hempty rfl]
    rfl

end Statement

/-- Under an identity that no type in an expression or statement bears, nothing is found. Under the
identity of its own type, an expression that has its type from a leaf or operator that is there
finds the place of that leaf or operator, and nothing else. -/
theorem Derivation.Typed.lookup {d : Derivation} (h : d.Typed) :
    (∀ id ∉ d.identities, d.spansFor? id = some []) ∧
    (∀ offset, ∀ s : Statement, s.MadeOf ⟨offset, d⟩ →
      ∀ id ∉ s.identities, s.spansFor? id = some []) ∧
    (d.headed = true → d.spansFor? d.type.id = d.headSpan?.map ([·]) ∧
      ∀ places, d.places? = some places → ∃ span ∈ places, d.headSpan? = some span) :=
  ⟨fun _ => h.spansFor?_eq_nil, fun _ _ hs _ => hs.spansFor?_eq_nil h,
    fun hd => ⟨spansFor?_type hd, fun _ => exists_headSpan? hd⟩⟩

/-- In `let a : i32 = (g)(x)`, where `g` is typed by hand as a function of numbers, the type of the
call is found at `g`, and nothing is found under an identity that is not drawn yet. -/
theorem Derivation.Typed.lookup_grouped_callee : ∃ (f x d : Derivation) (s : Statement)
    (g₁ g₂ g₃ g₄ : Typer),
    Typer.grouping
      ⟨⟨0, 1⟩, .atom (.arrow 2 (.primitive 0 .i32) (.primitive 1 .i32)) .empty ⟨⟨0, 0⟩, ⟨0, 1⟩⟩⟩
      (.ofSource (.pinnedAt 3) false) = .ok (f, g₁) ∧
    Typer.atom (.name "x") g₁ = .ok (x, g₂) ∧
    Typer.call ⟨.zero, f⟩ [⟨⟨0, 4⟩, x⟩] ⟨⟨0, 3⟩, ⟨0, 6⟩⟩ g₂ = .ok (d, g₃) ∧
    Typer.declare (.name "a") (some ⟨.named "i32", ⟨⟨0, 7⟩, ⟨0, 10⟩⟩⟩) ⟨⟨0, 13⟩, d⟩ g₃
      = .ok (s, g₄) ∧
    d.spansFor? 9 = some [] ∧ s.spansFor? 9 = some [] ∧
    d.spansFor? d.type.id = some [⟨⟨0, 1⟩, ⟨0, 2⟩⟩] := by
  obtain ⟨f, g₁, hf, x, g₂, hx, d, g₃, hd, s, g₄, hs, hforeign, hforeign', hheaded, hhead⟩ :
      ∃ f g₁, Typer.grouping
        ⟨⟨0, 1⟩, .atom (.arrow 2 (.primitive 0 .i32) (.primitive 1 .i32)) .empty ⟨⟨0, 0⟩, ⟨0, 1⟩⟩⟩
        (.ofSource (.pinnedAt 3) false) = .ok (f, g₁) ∧ ∃ x g₂,
      Typer.atom (.name "x") g₁ = .ok (x, g₂) ∧ ∃ d g₃,
      Typer.call ⟨.zero, f⟩ [⟨⟨0, 4⟩, x⟩] ⟨⟨0, 3⟩, ⟨0, 6⟩⟩ g₂ = .ok (d, g₃) ∧ ∃ s g₄,
      Typer.declare (.name "a") (some ⟨.named "i32", ⟨⟨0, 7⟩, ⟨0, 10⟩⟩⟩) ⟨⟨0, 13⟩, d⟩ g₃
        = .ok (s, g₄) ∧
      9 ∉ d.identities ∧ 9 ∉ s.identities ∧ d.headed = true ∧
      d.headSpan? = some ⟨⟨0, 1⟩, ⟨0, 2⟩⟩ :=
    ⟨_, _, rfl, _, _, rfl, _, _, rfl, _, _, rfl, by decide, by decide, rfl, rfl⟩
  have htyped : d.Typed := .call (.grouping (.leaf _ _ _) hf)
    (List.forall_mem_singleton.2 (.atom hx)) hd
  obtain ⟨hempty, hstatement, hown⟩ := htyped.lookup
  refine ⟨f, x, d, s, g₁, g₂, g₃, g₄, hf, hx, hd, hs, hempty 9 hforeign,
    hstatement _ s (.declare hs) 9 hforeign', ?_⟩
  rw [(hown hheaded).1, hhead]
  rfl

end CoContextual
