import CoContextual.Inference.Basic
import CoContextual.Derivation.Basic
import CoContextual.Unify.Basic

/-!
# Rules for expressions

One rule per shape of expression, each from the derivations of the parts to that of the whole.

Names and operators are only required to have a type, since their declarations may stand
elsewhere. A call unifies at once, because the type of its callee is at hand. No rule rejects an
expression: a call that does not fit keeps its diagnostics and has an invalid type, so that
everything around it can still be typed.
-/

namespace CoContextual

namespace Derivation

/-- The rule for a name or a literal. A name gets a fresh variable, and is required to have it as
its type. -/
def ofAtom (a : Atom) : Inference Derivation := do
  let (type, requirements) ←
    match a with
    | .name text => do
      let type ← Ty.fresh
      pure (type, Requirements.empty.add (.name text) type)
    | .literal form text => do
      let type ← Ty.newPrimitive (.ofLiteral form text)
      pure (type, Requirements.empty)
  let span ← Inference.unlessSome .overflow (Span.ofText? a.text)
  return .atom type requirements span

/-- The rule for a prefix operator: it is required to take the operand to a fresh result. -/
def ofUnary (operator : String) (span : Span) (operand : Placed Derivation) :
    Fresh Derivation := do
  let type ← Ty.fresh
  let operatorType ← Ty.newArrow operand.item.type type
  let requirements := operand.item.requirements.add (.operator operator) operatorType
  return .unary { type, operatorType, operator, span, requirements } operand

/-- The rule for an infix operator: it is required to take both operands to a fresh result. -/
def ofBinary (lhs : Placed Derivation) (operator : String) (span : Span)
    (rhs : Placed Derivation) : Fresh Derivation := do
  let type ← Ty.fresh
  let operands ← Ty.newProduct [lhs.item.type, rhs.item.type]
  let operatorType ← Ty.newArrow operands type
  let requirements := (lhs.item.requirements ++ rhs.item.requirements).add (.operator operator)
    operatorType
  return .binary { type, operatorType, operator, span, requirements } lhs rhs

/-- What stands for an expression that is missing. -/
def ofMissing : Fresh Derivation := return .missing (.invalid (← freshId))

/-- The places in a part, relative to the whole, where the part's own type comes from; if there
are none, the start of the part. -/
def ownSpans? (part : Placed Derivation) : Option (List Span) := do
  let spans ← spansIn? part part.item.type.id
  if spans.isEmpty then return [← Span.zero.shift? part.offset] else return spans

end Derivation

/-! ## Calls -/

namespace CallSite

/-- A call whose callee fits: the substitution goes into what the parts require, then into the
result, then into the function type. -/
def fitting? (inherited : Requirements) (result expected : Ty) (s : Substitution) :
    Option CallSite := do
  let (requirements, replaced) ← inherited.substitute? s
  let type ← s.applyTo? result
  let functionType ← s.applyTo? expected
  return {
    type := type.type
    functionType := functionType.type
    requirements
    substitution := s
    origins := Origins.ofResolved (replaced ++ [type, functionType])
    diagnostics := [] }

/-- What a call that does not fit is reported as. -/
def message (callee domain : Ty) (e : UnifyError) : String :=
  "cannot call `" ++ callee.render ++ "` with arguments `" ++ domain.render ++ "`: " ++ e.message

/-- A call whose callee does not fit. It is reported wherever the callee's type comes from, with
the arguments as the other place, and its types are invalid under the identities they had. -/
def clashing? (inherited : Requirements) (callee : Placed Derivation) (argumentsSpan : Span)
    (result domain expected : Ty) (e : UnifyError) : Option CallSite := do
  let places ← Derivation.ownSpans? callee
  return {
    type := .invalid result.id
    functionType := .invalid expected.id
    requirements := inherited
    substitution := .empty
    origins := .empty
    diagnostics :=
      Diagnostic.atEach e.category (message callee.item.type domain e) argumentsSpan places }

end CallSite

namespace Derivation

/-- What the parts of a call require: the callee's uses, then those of each argument. -/
def inheritedRequirements (callee : Placed Derivation) (arguments : List (Placed Derivation)) :
    Requirements :=
  arguments.foldl (fun acc argument => acc ++ argument.item.requirements) callee.item.requirements

/-- The rule for a call: the callee's type is unified with a function from the arguments to a
fresh result. The steps of the unification are returned too. -/
def ofCall (callee : Placed Derivation) (arguments : List (Placed Derivation))
    (argumentsSpan : Span) : Inference (Derivation × List Step) := do
  let inherited := inheritedRequirements callee arguments
  -- identities are drawn for the result, then for the argument list, then for the function type
  let result ← Ty.fresh
  let domain ← Ty.ofArguments (arguments.map fun argument => argument.item.type)
  let expected ← Ty.newArrow domain result
  let attempt ← Inference.unlessSome .diverges
    (Substitution.empty.unify? callee.item.type expected)
  let site ←
    match attempt.result with
    | .ok s =>
      Inference.unlessSome .diverges (CallSite.fitting? inherited result expected s)
    -- nothing is learned from a call that does not fit, and its parts keep what they require
    | .error e =>
      Inference.unlessSome .overflow
        (CallSite.clashing? inherited callee argumentsSpan result domain expected e)
  return (.call site callee arguments, attempt.steps)

end Derivation

end CoContextual
