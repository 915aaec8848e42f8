import CoContextual.Inference.Expression
import CoContextual.Derivation.Statement
import CoContextual.TypeExpr
import CoContextual.Ty.Polymorphism

/-!
# Rules for statements

Without an annotation a declaration generalizes the type of its value over all variables that what
it requires does not mention. With one, the annotation is unified with the value's type, and the
name is bound to the annotation, quantified over its variables, whether or not the value fits.
-/

namespace CoContextual

namespace Ty

/-- Quantifies the rigid variables of a type. -/
def quantifyRigid (t : Ty) : Fresh Ty := quantify (t.freeVarSet.filter TyVar.isRigid) t

end Ty

namespace Declaration

/-- A declaration without an annotation. -/
def unannotated (name : Ident) (value : Derivation) : Fresh Declaration := do
  let binding ← value.type.generalize value.requirements.freeFlexible
  return {
    name
    ascription := none
    substitution := .empty
    origins := .empty
    binding
    requirements := value.requirements
    diagnostics := [] }

/-- A declaration whose value fits the annotation. -/
def fitting (name : Ident) (ascription : Located Ty) (value : Derivation) (s : Substitution) :
    Inference Declaration := do
  let declared ← Inference.unlessSome .diverges (s.applyTo? ascription.item)
  let (requirements, replaced) ← Inference.unlessSome .diverges (value.requirements.substitute? s)
  let binding ← declared.type.quantifyRigid
  return {
    name
    ascription := some ascription
    substitution := s
    origins := Origins.ofResolved (declared :: replaced)
    binding
    requirements
    diagnostics := [] }

/-- What a value that does not fit the annotation is reported as. -/
def message (name : Ident) (annotated value : Ty) : String :=
  "`" ++ name.render ++ "` is annotated `" ++ annotated.render ++ "` but its value has type `"
    ++ value.render ++ "`"

/-- A declaration whose value does not fit the annotation. It is reported wherever the value's
type comes from, with the annotation as the other place. -/
def clashing (name : Ident) (ascription : Located Ty) (value : Placed Derivation) :
    Inference Declaration := do
  let places ← Inference.unlessSome .overflow (Derivation.ownSpans? value)
  -- uses of the name are held to the annotation, not to the value
  let binding ← ascription.item.quantifyRigid
  return {
    name
    ascription := some ascription
    substitution := .empty
    origins := .empty
    binding
    requirements := value.item.requirements
    diagnostics :=
      Diagnostic.atEach .annotationMismatch (message name ascription.item value.item.type)
        ascription.span places }

/-- A declaration with an annotation, and the steps of its unification. -/
def annotated (name : Ident) (written : Located TypeExpr) (value : Placed Derivation) :
    Inference (Declaration × List Step) := do
  let type ← written.item.toTy
  let ascription : Located Ty := ⟨type, written.span⟩
  let attempt ← Inference.unlessSome .diverges
    (Substitution.empty.unify? ascription.item value.item.type)
  let declaration ←
    match attempt.result with
    | .ok s => fitting name ascription value.item s
    | .error _ => clashing name ascription value
  return (declaration, attempt.steps)

end Declaration

namespace Statement

/-- The rule for a declaration, with the steps of the unification if there is one. -/
def ofDeclaration (name : Ident) (ascription : Option (Located TypeExpr))
    (value : Placed Derivation) : Inference (Statement × List Step) := do
  match ascription with
  | none =>
    let declaration ← Declaration.unannotated name value.item
    return (.declare declaration value, [])
  | some written =>
    let (declaration, steps) ← Declaration.annotated name written value
    return (.declare declaration value, steps)

end Statement

end CoContextual
