import CoContextual.Inference.Statement
import CoContextual.Unify.Unifier

/-!
# The typer

A `Typer` goes through a program from the leaves up and applies the rule for each node. It
owns the supply of identities. If tracing is on it keeps a line for each node and the steps of each
unification; since a line counts the findings in the node, tracing computes their positions, which
may overflow.
-/

namespace CoContextual

/-- The rules, as a trace names them. -/
inductive Rule where
  | atomic
  | empty
  | grouping
  | unary
  | binary
  | call
  | declaration
  | ret
deriving DecidableEq

/-- The name of a rule in a trace. -/
def Rule.name : Rule → String
  | atomic => "atomic"
  | empty => "empty"
  | grouping => "grouping"
  | unary => "unary"
  | binary => "binary"
  | call => "call"
  | declaration => "let"
  | ret => "return"

/-- One line of a trace: a node that was typed. -/
structure RuleStep where
  /-- The rule that was applied. -/
  rule : Rule
  /-- The type of the node. -/
  type : Ty
  /-- What the node was made from. -/
  detail : String
  /-- How many identifiers the node requires. -/
  requirements : Nat
  /-- How many findings there are in the node. -/
  findings : Nat

/-- The state of a pass over a program. -/
structure Typer where
  /-- Where fresh identities come from. -/
  ids : IdSource
  /-- Whether a trace is kept. -/
  tracing : Bool
  /-- The nodes that were typed. -/
  trace : List RuleStep
  /-- The steps of the unifications, numbered within each. -/
  unifyTrace : List NumberedStep

/-- Operations of a typer. -/
abbrev TyperM := StateT Typer (Except Fault)

namespace Typer

/-- A typer that has done nothing. -/
def ofSource (ids : IdSource) (tracing : Bool) : Typer := ⟨ids, tracing, [], []⟩

/-- Draws identities from the typer's supply. -/
def fresh {α : Type} (f : Fresh α) : TyperM α := fun g =>
  let (a, ids) := f.run g.ids
  .ok (a, { g with ids })

/-- Carries out a rule. -/
def infer {α : Type} (rule : Inference α) : TyperM α := fun g => do
  let (a, ids) ← rule.run g.ids
  return (a, { g with ids })

/-- Keeps the steps of a unification if tracing is on. -/
def observe (steps : List Step) : TyperM Unit :=
  modify fun g =>
    if g.tracing then { g with unifyTrace := g.unifyTrace ++ numberFrom 0 steps } else g

/-- Adds a line to the trace if tracing is on. -/
def record (rule : Rule) (type : Ty) (detail : String) (requirements : Requirements)
    (findings : Option (List Diagnostic)) : TyperM Unit := fun g =>
  if g.tracing then do
    -- only the number of findings is kept, but finding them can overflow
    let findings ← Fault.overflow.unlessSome findings
    let line : RuleStep := ⟨rule, type, detail, requirements.size, findings.length⟩
    return ((), { g with trace := g.trace ++ [line] })
  else
    return ((), g)

/-- Adds a line for an expression. -/
def recordExpression (rule : Rule) (detail : String) (d : Derivation) : TyperM Derivation := do
  record rule d.type detail d.requirements d.diagnostics?
  return d

/-- Adds a line for a statement. -/
def recordStatement (rule : Rule) (detail : String) (s : Statement) : TyperM Statement := do
  record rule s.type detail s.requirements s.diagnostics?
  return s

/-! ## Expressions -/

/-- Types a name or a literal. -/
def atom (a : Atom) : TyperM Derivation := do
  recordExpression .atomic a.text (← infer (Derivation.ofAtom a))

/-- Types an expression in parentheses. -/
def grouping (inner : Placed Derivation) : TyperM Derivation :=
  recordExpression .grouping "" (.grouping inner)

/-- Types an operator with one operand. -/
def unary (operator : String) (span : Span) (operand : Placed Derivation) :
    TyperM Derivation := do
  recordExpression .unary operator (← fresh (Derivation.ofUnary operator span operand))

/-- Types an operator with two operands. -/
def binary (lhs : Placed Derivation) (operator : String) (span : Span) (rhs : Placed Derivation) :
    TyperM Derivation := do
  recordExpression .binary operator (← fresh (Derivation.ofBinary lhs operator span rhs))

/-- Types a call. -/
def call (callee : Placed Derivation) (arguments : List (Placed Derivation))
    (argumentsSpan : Span) : TyperM Derivation := do
  let (d, steps) ← infer (Derivation.ofCall callee arguments argumentsSpan)
  observe steps
  recordExpression .call callee.item.type.render d

/-- Types what stands for a missing expression. -/
def missing : TyperM Derivation := do
  recordExpression .empty "" (← fresh Derivation.ofMissing)

/-! ## Statements -/

/-- Types a declaration. -/
def declare (name : Ident) (ascription : Option (Located TypeExpr))
    (value : Placed Derivation) : TyperM Statement := do
  let (s, steps) ← infer (Statement.ofDeclaration name ascription value)
  observe steps
  recordStatement .declaration name.render s

/-- Types a statement that returns a value. -/
def ret (value : Placed Derivation) : TyperM Statement :=
  recordStatement .ret "" (.ret value)

end Typer

end CoContextual
