import CoContextual.Requirements
import CoContextual.Bindings
import CoContextual.Ty.Polymorphism
import CoContextual.Unify.Basic

/-!
# Discharging requirements

Linking a subtree with declarations found elsewhere: every use of a declared identifier is unified
with an instance of the declared type, made for that use alone. A use that fails is reported and
leaves the substitution as it was; identifiers without a declaration remain required.
-/

namespace CoContextual

/-- A use of a declared identifier. -/
structure Use where
  /-- The identifier. -/
  token : Ident
  /-- The type at which it is used. -/
  required : Ty
  /-- The type with which it is declared. -/
  declared : Ty

/-- A use that does not fit its declaration. -/
structure Failure where
  /-- The use. -/
  use : Use
  /-- Why it does not fit. -/
  error : UnifyError

namespace Failure

/-- What the failure is reported as. -/
def message (f : Failure) : String :=
  "`" ++ f.use.token.render ++ "` is declared as `" ++ f.use.declared.render
    ++ "` but used as `" ++ f.use.required.render ++ "`: " ++ f.error.message

/-- The diagnostics of a failure, one for every place where the used type comes from as `locate`
tells, or one at the origin. -/
def diagnostics? (locate : NodeId → Option (List Span)) (f : Failure) :
    Option (List Diagnostic) := do
  let places ← locate f.use.required.id
  let places := if places.isEmpty then [Span.zero] else places
  return Diagnostic.atEach .requirementMismatch f.message .zero places

end Failure

/-- The outcome of discharging requirements. -/
structure Discharge where
  /-- What the uses imply for their variables. -/
  substitution : Substitution
  /-- The uses of identifiers that are not declared. -/
  remaining : Requirements
  /-- The uses that do not fit, in the order in which they were tried. -/
  failures : List Failure

namespace Discharge

/-- Whether every use of a declared identifier fits. -/
def isClean (d : Discharge) : Bool := d.failures.isEmpty

/-- The diagnostics of all failures, where `locate` tells the places a type comes from. -/
def diagnostics? (d : Discharge) (locate : NodeId → Option (List Span)) :
    Option (List Diagnostic) :=
  (d.failures.mapM (Failure.diagnostics? locate)).map List.flatten

end Discharge

/-- Unifies each use with an instance of its own, from left to right, and collects the failures. -/
def linkUses : List Use → Substitution → IdSource →
    Option (Substitution × List Failure × IdSource)
  | [], s, ids => some (s, [], ids)
  | use :: uses, s, ids => do
    let (type, ids) := use.declared.instantiate.run ids
    match (← s.unify? use.required type).result with
    | .ok s => linkUses uses s ids
    -- the next use starts from the store before this one, but with identities of its own
    | .error error =>
      let (s, failures, ids) ← linkUses uses s ids
      return (s, ⟨use, error⟩ :: failures, ids)

namespace Requirements

/-- The uses of identifiers that `b` declares, identifier by identifier, first use first. -/
def declaredUses (r : Requirements) (b : Bindings) : List Use :=
  r.uses.toList.flatMap fun (token, types) =>
    match b.get? token with
    | some declared => types.map fun required => ⟨token, required, declared⟩
    | none => []

/-- The requirements on identifiers that `b` does not declare. -/
def undeclared (r : Requirements) (b : Bindings) : Requirements :=
  ⟨r.uses.filterKeys fun token => !b.contains token⟩

/-- Discharges the uses of identifiers that `b` declares, on top of the substitution `s`. -/
def discharge? (r : Requirements) (b : Bindings) (s : Substitution) (ids : IdSource) :
    Option (Discharge × IdSource) := do
  let (s, failures, ids) ← linkUses (r.declaredUses b) s ids
  return (⟨s, r.undeclared b, failures⟩, ids)

end Requirements

end CoContextual
