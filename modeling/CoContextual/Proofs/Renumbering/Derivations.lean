import CoContextual.Discharge
import CoContextual.Inference.Statement
import CoContextual.Proofs.Renumbering.Stores
import CoContextual.Proofs.Requirements

/-!
# Renumbering derivations

Two derivations of the same text differ in their identities and in the texts of their diagnostics,
which show variables. `Derivation.renumber k` adds `k` to every identity and leaves the texts out;
all that can be asked of a derivation is the same after that.

- `Derivation.spansFor?_renumber`: where a type comes from;
- `Derivation.diagnostics?_renumber`: the findings, up to their texts;
- `Statement.spansFor?_renumber`, `Statement.diagnostics?_renumber`: the same for statements;
- `Discharge.diagnostics?_renumber`: the findings of a discharge, located in any way.
-/

namespace CoContextual

variable (k : ℕ)

/-! ## Requirements and bindings -/

namespace Requirements

/-- The uses with `k` added to every identity. -/
def renumber (r : Requirements) : Requirements := r.mapTypes (Ty.renumber k)

@[simp]
theorem renumber_empty : Requirements.empty.renumber k = .empty := rfl

theorem addAll_renumber (r : Requirements) (token : Ident) (types : List Ty) :
    (r.renumber k).addAll token (types.map (Ty.renumber k))
      = (r.addAll token types).renumber k := by
  refine congrArg mk (Table.map_upsert _ r.uses token fun known => ?_).symm
  cases known <;> simp

theorem add_renumber (r : Requirements) (token : Ident) (t : Ty) :
    (r.renumber k).add token (t.renumber k) = (r.add token t).renumber k :=
  addAll_renumber k r token [t]

theorem append_renumber (r r' : Requirements) :
    r.renumber k ++ r'.renumber k = (r ++ r').renumber k := by
  obtain ⟨⟨l, hl⟩⟩ := r'
  show (l.map fun e => (e.1, e.2.map (Ty.renumber k))).foldl (fun acc e => acc.addAll e.1 e.2)
      (r.renumber k)
    = (l.foldl (fun acc e => acc.addAll e.1 e.2) r).renumber k
  clear hl
  induction l generalizing r with
  | nil => rfl
  | cons e rest ih => rw [List.map_cons, List.foldl_cons, List.foldl_cons, addAll_renumber, ih]

theorem freeFlexible_renumber (r : Requirements) :
    (r.renumber k).freeFlexible = r.freeFlexible.map (· + k) := by
  have hvalues : (r.renumber k).uses.values = r.uses.values.map (List.map (Ty.renumber k)) := by
    simp [renumber, mapTypes, Table.values, Table.map]
  have hfree : (r.renumber k).uses.values.flatten.flatMap Ty.freeFlexible
      = (r.uses.values.flatten.flatMap Ty.freeFlexible).map (· + k) := by
    rw [hvalues, ← List.map_flatten, List.flatMap_map, List.map_flatMap]
    simp only [Ty.freeFlexible_renumber]
  rw [freeFlexible, freeFlexible, hfree, Table.keys_ofList_map (NodeId.compare_add k)]

theorem substitute?_renumber (r : Requirements) (s : Substitution) :
    (r.renumber k).substitute? (s.renumber k)
      = (r.substitute? s).map fun p => (p.1.renumber k, p.2.map (Resolved.renumber k)) := by
  have htraverse := Table.traverse_map r.uses (Substitution.applyToAll?_renumber k s)
  rw [substitute?, substitute?, renumber, mapTypes, htraverse, Option.map_map, Option.map_map]
  refine congrArg (Option.map · (r.uses.traverse s.applyToAll?)) (funext fun u => ?_)
  simp [renumber, mapTypes, Table.values, Table.map, Function.comp_def, List.map_flatten]

end Requirements

namespace Bindings

/-- The declared types with `k` added to every identity. -/
def renumber (b : Bindings) : Bindings := ⟨b.types.map (Ty.renumber k)⟩

@[simp]
theorem renumber_empty : Bindings.empty.renumber k = .empty := rfl

theorem get?_renumber (b : Bindings) (token : Ident) :
    (b.renumber k).get? token = (b.get? token).map (Ty.renumber k) :=
  Table.get?_map b.types (Ty.renumber k) token

theorem add_renumber (b : Bindings) (token : Ident) (t : Ty) :
    (b.renumber k).add token (t.renumber k) = (b.add token t).renumber k :=
  congrArg mk (Table.map_insert _ b.types token t).symm

theorem single_renumber (token : Ident) (t : Ty) :
    single token (t.renumber k) = (single token t).renumber k :=
  add_renumber k .empty token t

theorem append_renumber (b c : Bindings) : b.renumber k ++ c.renumber k = (b ++ c).renumber k := by
  refine congrArg mk (Eq.symm ?_)
  exact Table.insertAll_image (φ := id) (fun _ _ => rfl) (Ty.renumber k) b.types c.types.toList

end Bindings

/-! ## Discharges -/

/-- The use with `k` added to every identity. -/
def Use.renumber (u : Use) : Use := ⟨u.token, u.required.renumber k, u.declared.renumber k⟩

/-- The failure with `k` added to every identity. -/
def Failure.renumber (f : Failure) : Failure := ⟨f.use.renumber k, f.error.renumber k⟩

/-- The outcome with `k` added to every identity. -/
def Discharge.renumber (d : Discharge) : Discharge :=
  ⟨d.substitution.renumber k, d.remaining.renumber k, d.failures.map (Failure.renumber k)⟩

namespace Requirements

theorem declaredUses_renumber (r : Requirements) (b : Bindings) :
    (r.renumber k).declaredUses (b.renumber k) = (r.declaredUses b).map (Use.renumber k) :=
  declaredUses_mapTypes (Ty.renumber k) r b

theorem undeclared_renumber (r : Requirements) (b : Bindings) :
    (r.renumber k).undeclared (b.renumber k) = (r.undeclared b).renumber k :=
  undeclared_mapTypes (Ty.renumber k) r b

end Requirements

/-! ## Diagnostics -/

/-- The diagnostic without its text. -/
def Diagnostic.wordless (d : Diagnostic) : Diagnostic := { d with message := "" }

theorem Diagnostic.shift?_wordless (d : Diagnostic) (offset : Offset) :
    d.wordless.shift? offset = (d.shift? offset).map wordless := by
  simp only [shift?, wordless]
  cases d.primary.shift? offset with
  | none => rfl
  | some primary => cases d.secondary.shift? offset <;> rfl

theorem Diagnostic.shiftAll?_wordless (ds : List Diagnostic) (offset : Offset) :
    shiftAll? (ds.map wordless) offset = (shiftAll? ds offset).map (List.map wordless) :=
  mapM_map_eq (shift?_wordless · offset) ds

theorem Diagnostic.wordless_atEach (category : Category) (message message' : String)
    (secondary : Span) (places : List Span) :
    (atEach category message secondary places).map wordless
      = (atEach category message' secondary places).map wordless := by
  simp [atEach, wordless]

/-- The diagnostics of failures that are located in the same places. -/
theorem Discharge.diagnostics?_renumber {locate locate' : NodeId → Option (List Span)}
    (h : ∀ id, locate' (id + k) = locate id) (d : Discharge) :
    ((d.renumber k).diagnostics? locate').map (List.map Diagnostic.wordless)
      = (d.diagnostics? locate).map (List.map Diagnostic.wordless) := by
  have hone : ∀ f : Failure,
      (Failure.diagnostics? locate' (f.renumber k)).map (List.map Diagnostic.wordless)
        = (Failure.diagnostics? locate f).map (List.map Diagnostic.wordless) := by
    intro f
    have hlocate : locate' (f.renumber k).use.required.id = locate f.use.required.id := by
      rw [← h]
      exact congrArg locate' (Ty.id_renumber k f.use.required)
    rw [Failure.diagnostics?, Failure.diagnostics?, hlocate]
    cases locate f.use.required.id with
    | none => rfl
    | some places => exact congrArg some (Diagnostic.wordless_atEach _ _ _ _ _)
  have hflatten : ∀ found : Option (List (List Diagnostic)),
      (found.map List.flatten).map (List.map Diagnostic.wordless)
        = (found.map (List.map (List.map Diagnostic.wordless))).map List.flatten := by
    intro found
    rw [Option.map_map, Option.map_map]
    refine congrArg (Option.map · found) (funext fun ds => ?_)
    exact List.map_flatten
  -- failure by failure the diagnostics agree, and so they do when they are joined
  rw [Discharge.diagnostics?, Discharge.diagnostics?, hflatten, hflatten, renumber,
    map_mapM, map_mapM, List.mapM_map]
  exact congrArg (fun found => (List.mapM found d.failures).map List.flatten) (funext hone)

/-! ## Nodes -/

/-- The records of what was replaced, with `k` added to every identity. -/
def Origins.renumber (origins : Origins) : Origins :=
  origins.image (NodeId.compare_add k) (Ty.renumber k)

theorem Origins.ofResolved_renumber (rs : List Resolved) :
    Origins.ofResolved (rs.map (Resolved.renumber k)) = Origins.renumber k (ofResolved rs) := by
  rw [ofResolved, ofResolved, renumber, Table.ofList_image, Resolved.flatMap_origins_renumber]

theorem throughOrigins_renumber {search search' : NodeId → Option (List Span)}
    (h : ∀ id, search' (id + k) = search id) (origins : Origins) (id : NodeId) :
    throughOrigins (Origins.renumber k origins) search' (id + k)
      = throughOrigins origins search id := by
  rw [throughOrigins, throughOrigins, h, Origins.renumber,
    Table.get?_image (NodeId.compare_add k) (Ty.renumber k)]
  cases origins.get? id with
  | none => rfl
  | some source => simp [h]

/-- What an operator node knows, with `k` added to every identity. -/
def Operation.renumber (o : Operation) : Operation :=
  { o with
    type := o.type.renumber k
    operatorType := o.operatorType.renumber k
    requirements := o.requirements.renumber k }

theorem Operation.owns_renumber (o : Operation) (id : NodeId) :
    (o.renumber k).owns (id + k) = o.owns id := by
  simp [owns, renumber]

/-- What a call knows, with `k` added to every identity and without the texts of its
diagnostics. -/
def CallSite.renumber (c : CallSite) : CallSite where
  type := c.type.renumber k
  functionType := c.functionType.renumber k
  requirements := c.requirements.renumber k
  substitution := c.substitution.renumber k
  origins := Origins.renumber k c.origins
  diagnostics := c.diagnostics.map Diagnostic.wordless

theorem CallSite.owns_renumber (c : CallSite) (id : NodeId) :
    (c.renumber k).owns (id + k) = c.owns id := by
  simp [owns, renumber]

namespace Derivation

mutual

/-- The derivation with `k` added to every identity and without the texts of its diagnostics. -/
def renumber : Derivation → Derivation
  | atom type requirements span => atom (type.renumber k) (requirements.renumber k) span
  | grouping inner => grouping (renumberIn inner)
  | unary operation operand => unary (operation.renumber k) (renumberIn operand)
  | binary operation lhs rhs => binary (operation.renumber k) (renumberIn lhs) (renumberIn rhs)
  | call site callee arguments =>
    call (site.renumber k) (renumberIn callee) (renumberInAll arguments)
  | missing type => missing (type.renumber k)

/-- The part with `k` added to every identity. -/
def renumberIn : Placed Derivation → Placed Derivation
  | ⟨offset, part⟩ => ⟨offset, renumber part⟩

/-- Several parts with `k` added to every identity. -/
def renumberInAll : List (Placed Derivation) → List (Placed Derivation)
  | [] => []
  | part :: parts => renumberIn part :: renumberInAll parts

end

theorem renumberInAll_eq_map (parts : List (Placed Derivation)) :
    renumberInAll k parts = parts.map (renumberIn k) := by
  induction parts with
  | nil => rfl
  | cons part parts ih => rw [renumberInAll, ih, List.map_cons]

theorem offset_renumberIn (part : Placed Derivation) :
    (renumberIn k part).offset = part.offset := by
  rw [renumberIn]

theorem item_renumberIn (part : Placed Derivation) :
    (renumberIn k part).item = part.item.renumber k := by
  rw [renumberIn]

theorem type_renumber (d : Derivation) : (d.renumber k).type = d.type.renumber k := by
  induction d using ind with
  | grouping inner ih =>
    rw [renumber, renumberIn, type, ih]
    rfl
  | _ => simp [renumber, type, Operation.renumber, CallSite.renumber]

theorem requirements_renumber (d : Derivation) :
    (d.renumber k).requirements = d.requirements.renumber k := by
  induction d using ind with
  | grouping inner ih =>
    rw [renumber, renumberIn, requirements, ih]
    rfl
  | _ => simp [renumber, requirements, Operation.renumber, CallSite.renumber]

/-! ## Searches and findings -/

section

variable {k}

theorem spansIn?_renumber {part : Placed Derivation}
    (h : ∀ id, (part.item.renumber k).spansFor? (id + k) = part.item.spansFor? id) (id : NodeId) :
    spansIn? (renumberIn k part) (id + k) = spansIn? part id := by
  obtain ⟨offset, part⟩ := part
  rw [renumberIn, spansIn?, spansIn?, h]

theorem spansInAll?_renumber {parts : List (Placed Derivation)}
    (h : ∀ p ∈ parts, ∀ id, (p.item.renumber k).spansFor? (id + k) = p.item.spansFor? id)
    (id : NodeId) : spansInAll? (renumberInAll k parts) (id + k) = spansInAll? parts id := by
  induction parts with
  | nil => rfl
  | cons part parts ih =>
    rw [renumberInAll, spansInAll?, spansInAll?, spansIn?_renumber (h part (.head _)),
      ih fun q hq => h q (.tail _ hq)]

theorem diagnosticsIn?_renumber {part : Placed Derivation}
    (h : (part.item.renumber k).diagnostics?
      = part.item.diagnostics?.map (List.map Diagnostic.wordless)) :
    diagnosticsIn? (renumberIn k part)
      = (diagnosticsIn? part).map (List.map Diagnostic.wordless) := by
  obtain ⟨offset, part⟩ := part
  rw [renumberIn, diagnosticsIn?, diagnosticsIn?, h]
  cases part.diagnostics? with
  | none => rfl
  | some ds => exact Diagnostic.shiftAll?_wordless ds offset

theorem diagnosticsInAll?_renumber {parts : List (Placed Derivation)}
    (h : ∀ p ∈ parts, (p.item.renumber k).diagnostics?
      = p.item.diagnostics?.map (List.map Diagnostic.wordless)) :
    diagnosticsInAll? (renumberInAll k parts)
      = (diagnosticsInAll? parts).map (List.map Diagnostic.wordless) := by
  induction parts with
  | nil => rfl
  | cons part parts ih =>
    rw [renumberInAll, diagnosticsInAll?, diagnosticsInAll?,
      diagnosticsIn?_renumber (h part (.head _)), ih fun q hq => h q (.tail _ hq)]
    cases diagnosticsIn? part with
    | none => rfl
    | some ds => cases diagnosticsInAll? parts <;> simp

end

/-- The renumbered type comes from where the type came from. -/
theorem spansFor?_renumber (d : Derivation) (id : NodeId) :
    (d.renumber k).spansFor? (id + k) = d.spansFor? id := by
  induction d using ind generalizing id with
  | atom type requirements span => simp [renumber, spansFor?]
  | grouping inner ih => rw [renumber, spansFor?, spansFor?, spansIn?_renumber ih]
  | unary operation operand ih =>
    rw [renumber, spansFor?, spansFor?, Operation.owns_renumber, spansIn?_renumber ih]
    rfl
  | binary operation lhs rhs ihl ihr =>
    rw [renumber, spansFor?, spansFor?, Operation.owns_renumber, spansIn?_renumber ihl,
      spansIn?_renumber ihr]
    rfl
  | call site callee arguments ih ihs =>
    rw [renumber, spansFor?, spansFor?]
    refine throughOrigins_renumber k (fun id => ?_) site.origins id
    simp only [CallSite.owns_renumber, item_renumberIn, type_renumber, Ty.id_renumber,
      spansIn?_renumber ih, spansInAll?_renumber ihs]
  | missing type => rw [renumber, spansFor?, spansFor?]

/-- The findings are the same up to their texts. -/
theorem diagnostics?_renumber (d : Derivation) :
    (d.renumber k).diagnostics? = d.diagnostics?.map (List.map Diagnostic.wordless) := by
  induction d using ind with
  | atom type requirements span => simp [renumber, diagnostics?]
  | grouping inner ih => rw [renumber, diagnostics?, diagnostics?, diagnosticsIn?_renumber ih]
  | unary operation operand ih =>
    rw [renumber, diagnostics?, diagnostics?, diagnosticsIn?_renumber ih]
  | binary operation lhs rhs ihl ihr =>
    rw [renumber, diagnostics?, diagnostics?, diagnosticsIn?_renumber ihl,
      diagnosticsIn?_renumber ihr]
    cases diagnosticsIn? lhs with
    | none => rfl
    | some ds => cases diagnosticsIn? rhs <;> simp
  | call site callee arguments ih ihs =>
    rw [renumber, diagnostics?, diagnostics?, diagnosticsIn?_renumber ih,
      diagnosticsInAll?_renumber ihs]
    cases diagnosticsIn? callee with
    | none => rfl
    | some ds => cases diagnosticsInAll? arguments <;> simp [CallSite.renumber]
  | missing type => simp [renumber, diagnostics?]

/-- The places where a part's own type comes from. -/
theorem ownSpans?_renumber (part : Placed Derivation) :
    ownSpans? (renumberIn k part) = ownSpans? part := by
  have hspans := spansIn?_renumber (spansFor?_renumber k part.item) part.item.type.id
  rw [← Ty.id_renumber, ← type_renumber, ← item_renumberIn] at hspans
  rw [ownSpans?, ownSpans?, hspans, offset_renumberIn]

end Derivation

/-! ## Statements -/

/-- What a declaration knows, with `k` added to every identity and without the texts of its
diagnostics. -/
def Declaration.renumber (d : Declaration) : Declaration where
  name := d.name
  ascription := d.ascription.map (Located.map (Ty.renumber k))
  substitution := d.substitution.renumber k
  origins := Origins.renumber k d.origins
  binding := d.binding.renumber k
  requirements := d.requirements.renumber k
  diagnostics := d.diagnostics.map Diagnostic.wordless

theorem Declaration.ownSpans_renumber (d : Declaration) (id : NodeId) :
    (d.renumber k).ownSpans (id + k) = d.ownSpans id := by
  rw [ownSpans, ownSpans, renumber]
  cases d.ascription with
  | none => rfl
  | some ascription => simp [Located.map]

namespace Statement

/-- The statement with `k` added to every identity and without the texts of its diagnostics. -/
def renumber : Statement → Statement
  | declare declaration value =>
    declare (declaration.renumber k) (Derivation.renumberIn k value)
  | ret value => ret (Derivation.renumberIn k value)

theorem requirements_renumber (s : Statement) :
    (s.renumber k).requirements = s.requirements.renumber k := by
  cases s with
  | declare declaration value => rfl
  | ret value =>
    rw [renumber, requirements, requirements, Derivation.item_renumberIn,
      Derivation.requirements_renumber]

theorem bindings_renumber (s : Statement) :
    (s.renumber k).bindings = s.bindings.renumber k := by
  cases s with
  | declare declaration value => exact Bindings.single_renumber k _ _
  | ret value => rfl

/-- The renumbered type comes from where the type came from. -/
theorem spansFor?_renumber (s : Statement) (id : NodeId) :
    (s.renumber k).spansFor? (id + k) = s.spansFor? id := by
  have hvalue := fun value : Placed Derivation =>
    Derivation.spansIn?_renumber (Derivation.spansFor?_renumber k value.item)
  cases s with
  | declare declaration value =>
    rw [renumber, spansFor?, spansFor?]
    refine throughOrigins_renumber k (fun id => ?_) declaration.origins id
    rw [Declaration.ownSpans_renumber, hvalue]
  | ret value => exact hvalue value id

/-- The findings are the same up to their texts. -/
theorem diagnostics?_renumber (s : Statement) :
    (s.renumber k).diagnostics? = s.diagnostics?.map (List.map Diagnostic.wordless) := by
  have hvalue := fun value : Placed Derivation =>
    Derivation.diagnosticsIn?_renumber (Derivation.diagnostics?_renumber k value.item)
  cases s with
  | declare declaration value =>
    rw [renumber, diagnostics?, diagnostics?, hvalue]
    cases Derivation.diagnosticsIn? value <;> simp [Declaration.renumber]
  | ret value => exact hvalue value

end Statement

end CoContextual
