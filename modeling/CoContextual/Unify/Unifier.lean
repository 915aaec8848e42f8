import CoContextual.Unify.Basic

/-!
# Unifiers

A `Unifier` carries a substitution through several unifications. A failure leaves the substitution
as it was before. If tracing is on, the steps are kept, numbered from one; taking the trace starts
the count again.
-/

namespace CoContextual

/-- A step in a trace. -/
structure NumberedStep where
  /-- The place of the step in its trace, counted from one. -/
  number : Nat
  /-- The step. -/
  step : Step

/-- Numbers steps that follow a trace of `length` steps. -/
def numberFrom (length : Nat) : List Step → List NumberedStep
  | [] => []
  | step :: steps => ⟨length + 1, step⟩ :: numberFrom (length + 1) steps

/-- A substitution under extension. -/
structure Unifier where
  /-- The substitution so far. -/
  substitution : Substitution
  /-- Whether steps are kept. -/
  tracing : Bool
  /-- The steps that were kept since the trace was last taken. -/
  trace : List NumberedStep

namespace Unifier

/-- A unifier that starts from `s`, without a trace. -/
def ofSubstitution (s : Substitution) (tracing : Bool) : Unifier := ⟨s, tracing, []⟩

/-- Keeps the steps of an attempt if tracing is on. -/
def observe (u : Unifier) (steps : List Step) : Unifier :=
  if u.tracing then { u with trace := u.trace ++ numberFrom u.trace.length steps } else u

/-- Takes over the substitution of a successful attempt. -/
def commit (u : Unifier) : Except UnifyError Substitution → Except UnifyError Unit × Unifier
  | .ok s => (.ok (), { u with substitution := s })
  | .error e => (.error e, u)

/-- Unifies two types on top of the current substitution. -/
def unify? (u : Unifier) (lhs rhs : Ty) : Option (Except UnifyError Unit × Unifier) :=
  (u.substitution.unify? lhs rhs).map fun a => (u.observe a.steps).commit a.result

/-- The trace so far, and the unifier without it. -/
def takeTrace (u : Unifier) : List NumberedStep × Unifier := (u.trace, { u with trace := [] })

end Unifier

end CoContextual
