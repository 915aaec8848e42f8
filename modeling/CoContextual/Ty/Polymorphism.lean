import CoContextual.Ty.Basic

/-!
# Polymorphic types

A type becomes polymorphic by quantifying variables that nothing outside mentions
(`Ty.generalize`), and every use of a polymorphic type gets an instance of its own, with fresh
variables in the place of the quantified ones (`Ty.instantiate`).
-/

namespace CoContextual

namespace Ty

/-- Quantifies the flexible variables of `t` that are not in `fixed`. -/
def generalize (t : Ty) (fixed : List NodeId) : Fresh Ty :=
  quantify ((t.freeFlexible.filter fun v => v ∉ fixed).map TyVar.flexible) t

mutual

/-- Replaces variables by types. A variable that a scheme inside the type quantifies is left
alone there. -/
def rename (f : TyVar → Ty) : Ty → Ty
  | primitive id kind => .primitive id kind
  | arrow id d c => .arrow id (rename f d) (rename f c)
  | product id cs => .product id (renameAll f cs)
  | var v => f v
  | scheme id bound body =>
    .scheme id bound (rename (fun v => if v ∈ bound then .var v else f v) body)
  | invalid id => .invalid id

/-- Replaces variables by types in several types. -/
def renameAll (f : TyVar → Ty) : List Ty → List Ty
  | [] => []
  | t :: ts => rename f t :: renameAll f ts

end

/-- The body of a scheme with a fresh variable in the place of each quantified one. A type that is
no scheme is its own instance. -/
def instantiate : Ty → Fresh Ty
  | scheme _ bound body => do
    let new ← bound.mapM fun _ => fresh
    let replacement : Table TyVar Ty := .ofList (bound.zip new)
    return body.rename fun v => (replacement.get? v).getD (.var v)
  | t => return t

end Ty

end CoContextual
