import CoContextual.Ty.Basic

/-!
# The text of a type

Arrows and products stand in parentheses, quantifiers are listed after `forall`, and variables
show their sort and identity.
-/

namespace CoContextual

/-- A flexible variable is shown as `t5`, a rigid one as `'u5`. -/
def TyVar.render : TyVar → String
  | flexible id => "t" ++ toString id
  | rigid id => "'u" ++ toString id

namespace Ty

/-- The quantified variables, each after a blank. -/
def renderBound : List TyVar → String
  | [] => ""
  | v :: vs => " " ++ v.render ++ renderBound vs

mutual

/-- The text that messages and traces show for a type. -/
def render : Ty → String
  | primitive _ kind => kind.name
  | arrow _ d c => "(" ++ render d ++ " -> " ++ render c ++ ")"
  | product _ cs => "(" ++ renderComponents cs ++ ")"
  | var v => v.render
  | scheme _ bound body => "forall" ++ renderBound bound ++ ". " ++ render body
  | invalid _ => "<invalid>"

/-- The components of a product with commas between them. -/
def renderComponents : List Ty → String
  | [] => ""
  | t :: ts => render t ++ renderRest ts

/-- The components after the first, each behind a comma. -/
def renderRest : List Ty → String
  | [] => ""
  | t :: ts => ", " ++ render t ++ renderRest ts

end

end Ty

end CoContextual
