import CoContextual.Requirements
import CoContextual.Diagnostic

/-!
# Derivations

A `Derivation` is the typed form of an expression: one node per syntax node, built from the leaves
up and never changed. A node keeps the type of its expression, what the expression requires of
free identifiers, and its own positions; its parts are `Placed`. Since positions are relative to
the node that owns them, a part can be used again under another whole.

Two questions are answered on the way up, with positions re-expressed from part to whole:

- `Derivation.spansFor?`: where does the type node with a given identity come from?
- `Derivation.diagnostics?`: which findings are there in this expression?

Both have no answer if a position outgrows its word.
-/

namespace CoContextual

/-- What a node for an operator knows beside its operands. -/
structure Operation where
  /-- The type of the whole expression. -/
  type : Ty
  /-- The function type that the operator is required to have. -/
  operatorType : Ty
  /-- The operator. -/
  operator : String
  /-- Where the operator stands. -/
  span : Span
  /-- What the expression requires. -/
  requirements : Requirements

/-- What a call knows beside its parts. -/
structure CallSite where
  /-- The type of the whole call. -/
  type : Ty
  /-- The function type that the call gives its callee. -/
  functionType : Ty
  /-- What the call requires. -/
  requirements : Requirements
  /-- What unifying the callee's type with the call implies. -/
  substitution : Substitution
  /-- Which variables the substitution replaced. -/
  origins : Origins
  /-- What is wrong with this call itself. -/
  diagnostics : List Diagnostic

/-- A typed expression. -/
inductive Derivation where
  /-- A name or a literal. -/
  | atom (type : Ty) (requirements : Requirements) (span : Span)
  /-- An expression in parentheses. -/
  | grouping (inner : Placed Derivation)
  /-- An operator with one operand. -/
  | unary (operation : Operation) (operand : Placed Derivation)
  /-- An operator with two operands. -/
  | binary (operation : Operation) (lhs rhs : Placed Derivation)
  /-- A call of a function. -/
  | call (site : CallSite) (callee : Placed Derivation) (arguments : List (Placed Derivation))
  /-- What stands for an expression that is missing. -/
  | missing (type : Ty)

/-- The places found under `id`; if there are none and `id` replaced a variable, those found under
the variable. Only one replacement is undone, since deeper ones are known to the nodes that made
them. -/
def throughOrigins (origins : Origins) (search : NodeId → Option (List Span)) (id : NodeId) :
    Option (List Span) := do
  let spans ← search id
  match origins.get? id with
  | some source => if spans.isEmpty ∧ source.id ≠ id then search source.id else return spans
  | none => return spans

namespace Operation

/-- Whether the node with identity `id` is the expression's type or the operator's. -/
def owns (o : Operation) (id : NodeId) : Bool := o.type.id = id || o.operatorType.id = id

end Operation

namespace CallSite

/-- Whether the node with identity `id` is the call's type or the one it gives its callee. -/
def owns (c : CallSite) (id : NodeId) : Bool := c.type.id = id || c.functionType.id = id

end CallSite

namespace Derivation

/-- Induction on expressions; for a call the hypothesis holds of every argument. -/
theorem ind {P : Derivation → Prop}
    (atom : ∀ type requirements span, P (.atom type requirements span))
    (grouping : ∀ inner, P inner.item → P (.grouping inner))
    (unary : ∀ operation operand, P operand.item → P (.unary operation operand))
    (binary : ∀ operation lhs rhs, P lhs.item → P rhs.item → P (.binary operation lhs rhs))
    (call : ∀ site callee arguments, P callee.item → (∀ a ∈ arguments, P a.item) →
      P (.call site callee arguments))
    (missing : ∀ type, P (.missing type)) (d : Derivation) : P d :=
  @Derivation.rec P (fun part => P part.item) (fun parts => ∀ a ∈ parts, P a.item) atom grouping
    unary binary call missing (fun _ _ h => h) (by simp)
    (fun _ _ hpart hparts => by simpa using ⟨hpart, hparts⟩) d

/-- The type of the expression. -/
def type : Derivation → Ty
  | atom type _ _ => type
  | grouping ⟨_, inner⟩ => inner.type
  | unary operation _ => operation.type
  | binary operation _ _ => operation.type
  | call site _ _ => site.type
  | missing type => type

/-- What the expression requires of identifiers it does not declare. -/
def requirements : Derivation → Requirements
  | atom _ requirements _ => requirements
  | grouping ⟨_, inner⟩ => inner.requirements
  | unary operation _ => operation.requirements
  | binary operation _ _ => operation.requirements
  | call site _ _ => site.requirements
  | missing _ => .empty

/-- The type `t` as seen by the substitution that the expression settled on, if it has one. -/
def resolve? : Derivation → Ty → Option Ty
  | grouping ⟨_, inner⟩, t => inner.resolve? t
  | call site _ _, t => site.substitution.resolve? t
  | _, t => some t

mutual

/-- The places, relative to the expression, of the text from which the type node `id` comes. The
types of an operator expression come from the operator, and those of a call from where its
callee's type comes from. -/
def spansFor? : Derivation → NodeId → Option (List Span)
  | atom type _ span, id => some (if type.id = id then [span] else [])
  | grouping inner, id => spansIn? inner id
  | unary operation operand, id =>
    if operation.owns id then some [operation.span] else spansIn? operand id
  | binary operation lhs rhs, id =>
    if operation.owns id then some [operation.span]
    else do return (← spansIn? lhs id) ++ (← spansIn? rhs id)
  | call site callee arguments, id =>
    throughOrigins site.origins (fun id =>
      -- the call's own types lead to the callee and never into the arguments
      if site.owns id then spansIn? callee callee.item.type.id
      else do return (← spansIn? callee id) ++ (← spansInAll? arguments id)) id
  | missing _, _ => some []

/-- The places of a part's type node, relative to the whole. -/
def spansIn? : Placed Derivation → NodeId → Option (List Span)
  | ⟨offset, part⟩, id => do Span.shiftAll? (← spansFor? part id) offset

/-- The places of a type node in several parts, relative to the whole. -/
def spansInAll? : List (Placed Derivation) → NodeId → Option (List Span)
  | [], _ => some []
  | part :: parts, id => do return (← spansIn? part id) ++ (← spansInAll? parts id)

end

mutual

/-- The findings in the expression, relative to it: a node's own before those of its parts, and
the parts from left to right. -/
def diagnostics? : Derivation → Option (List Diagnostic)
  | atom _ _ _ => some []
  | grouping inner => diagnosticsIn? inner
  | unary _ operand => diagnosticsIn? operand
  | binary _ lhs rhs => do return (← diagnosticsIn? lhs) ++ (← diagnosticsIn? rhs)
  | call site callee arguments => do
    return site.diagnostics ++ (← diagnosticsIn? callee) ++ (← diagnosticsInAll? arguments)
  | missing _ => some []

/-- The findings in a part, relative to the whole. -/
def diagnosticsIn? : Placed Derivation → Option (List Diagnostic)
  | ⟨offset, part⟩ => do Diagnostic.shiftAll? (← diagnostics? part) offset

/-- The findings in several parts, relative to the whole. -/
def diagnosticsInAll? : List (Placed Derivation) → Option (List Diagnostic)
  | [] => some []
  | part :: parts => do return (← diagnosticsIn? part) ++ (← diagnosticsInAll? parts)

end

end Derivation

end CoContextual
