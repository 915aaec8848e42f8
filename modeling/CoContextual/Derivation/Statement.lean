import CoContextual.Derivation.Basic
import CoContextual.Bindings

/-!
# Statements

The typed form of a statement. A declaration binds one name to the type of its value, or to its
annotation; a `return` passes on what its value requires.
-/

namespace CoContextual

/-- What a declaration knows beside its value. -/
structure Declaration where
  /-- The declared identifier. -/
  name : Ident
  /-- The annotation, if there is one, and where it stands. -/
  ascription : Option (Located Ty)
  /-- What unifying the annotation with the value's type implies. -/
  substitution : Substitution
  /-- Which variables the substitution replaced. -/
  origins : Origins
  /-- The type that the name is bound to. -/
  binding : Ty
  /-- What the declaration requires. -/
  requirements : Requirements
  /-- What is wrong with the declaration itself. -/
  diagnostics : List Diagnostic

/-- A typed statement. -/
inductive Statement where
  /-- A declaration of a name. -/
  | declare (declaration : Declaration) (value : Placed Derivation)
  /-- A statement that returns a value. -/
  | ret (value : Placed Derivation)

namespace Declaration

/-- Where the annotation stands, or the empty span at the origin. -/
def ascriptionSpan (d : Declaration) : Span := (d.ascription.map Located.span).getD .zero

/-- The place of the annotation, if its type has the identity `id`. -/
def ownSpans (d : Declaration) (id : NodeId) : List Span :=
  match d.ascription with
  | some ascription => if ascription.item.id = id then [ascription.span] else []
  | none => []

end Declaration

namespace Statement

/-- The value of the statement. -/
def value : Statement → Placed Derivation
  | declare _ value => value
  | ret value => value

/-- The type that stands for the statement: the one bound to its name, or that of its value. -/
def type : Statement → Ty
  | declare declaration _ => declaration.binding
  | ret value => value.item.type

/-- What the statement requires of identifiers it does not declare. -/
def requirements : Statement → Requirements
  | declare declaration _ => declaration.requirements
  | ret value => value.item.requirements

/-- What the statement declares. -/
def bindings : Statement → Bindings
  | declare declaration _ => .single declaration.name declaration.binding
  | ret _ => .empty

/-- The type `t` as seen by the substitution that the statement settled on, if it has one. -/
def resolve? : Statement → Ty → Option Ty
  | declare declaration _, t => declaration.substitution.resolve? t
  | ret _, t => some t

/-- The places, relative to the statement, of the text from which the type node `id` comes. -/
def spansFor? : Statement → NodeId → Option (List Span)
  | declare declaration value, id =>
    throughOrigins declaration.origins (fun id => do
      return declaration.ownSpans id ++ (← Derivation.spansIn? value id)) id
  | ret value, id => Derivation.spansIn? value id

/-- The findings in the statement, relative to it. -/
def diagnostics? : Statement → Option (List Diagnostic)
  | declare declaration value => do
    return declaration.diagnostics ++ (← Derivation.diagnosticsIn? value)
  | ret value => Derivation.diagnosticsIn? value

end Statement

end CoContextual
