import CoContextual.Substitution.Apply
import CoContextual.Diagnostic
import CoContextual.Ty.Printer

/-!
# Unification

Unifying two types extends a substitution so that it makes them equal. The work is recorded as a
list of steps. An attempt that fails has its steps, up to and including the one that tells of the
failure, but no substitution.

There is no occurs check, so on some inputs the search never ends. All types it meets are parts
of the two types and of the types bound at the start, and each extension of the store binds one
more of finitely many variables. A run that ends therefore never meets the same store and the same
two types again further down, and `unifyFuel` is at least the number of such combinations:
`unify?` has no answer exactly where more than that would be needed.
-/

namespace CoContextual

/-- Why two types cannot be unified. -/
inductive UnifyError where
  /-- Their structures differ; both are shown resolved. -/
  | mismatch (expected found : Ty)
  /-- Two products differ in length. -/
  | arity (expected found : Nat)

namespace UnifyError

/-- What the failure is reported as. -/
def message : UnifyError → String
  | mismatch expected found =>
    "type mismatch: expected `" ++ expected.render ++ "`, found `" ++ found.render ++ "`"
  | arity expected found =>
    "arity mismatch: expected " ++ toString expected ++ " components, found " ++ toString found

/-- The category of a diagnostic about the failure. -/
def category : UnifyError → Category
  | mismatch _ _ => .typeMismatch
  | arity _ _ => .arityMismatch

end UnifyError

/-- What a unification step does. -/
inductive Action where
  /-- The types are alike already. -/
  | identity
  /-- An unbound variable is bound to a type. -/
  | bind
  /-- An unbound variable is made to stand for another. -/
  | redirect
  /-- Two arrows are taken apart. -/
  | decomposeArrow
  /-- Two products are taken apart. -/
  | decomposeProduct
  /-- An invalid type swallows the other side. -/
  | absorb
  /-- Two products differ in length. -/
  | arityError
  /-- The structures differ. -/
  | structureError
deriving DecidableEq

namespace Action

/-- The name under which a trace lists the action. -/
def name : Action → String
  | identity => "identity"
  | bind => "bind"
  | redirect => "redirect"
  | decomposeArrow => "decompose"
  | decomposeProduct => "decompose"
  | absorb => "absorb"
  | arityError => "error"
  | structureError => "error"

/-- The remark that a trace makes on the action. -/
def detail : Action → String
  | identity => "types already equal"
  | bind => "bind representative"
  | redirect => "bind representative"
  | decomposeArrow => "unify domains, then codomains"
  | decomposeProduct => "unify components left to right"
  | absorb => "invalid type unifies with anything"
  | arityError => "product arity differs"
  | structureError => "incompatible types"

/-- Whether the action ends an attempt in failure. -/
def isError : Action → Bool
  | arityError => true
  | structureError => true
  | _ => false

end Action

/-- One step of a unification. -/
structure Step where
  /-- What was done. -/
  action : Action
  /-- The left type. -/
  left : Ty
  /-- The right type. -/
  right : Ty

/-- The course of a unification and what came of it. -/
structure Attempt where
  /-- The steps, first to last. -/
  steps : List Step
  /-- The extended substitution, or why there is none. -/
  result : Except UnifyError Substitution

namespace Attempt

/-- An attempt that ends with one step. -/
def single (action : Action) (left right : Ty) (result : Except UnifyError Substitution) :
    Attempt :=
  ⟨[⟨action, left, right⟩], result⟩

/-- Continues a successful attempt; the steps add up, and a failure stays. -/
def andThen (a : Attempt) (next : Substitution → Option Attempt) : Option Attempt :=
  match a.result with
  | .error _ => some a
  | .ok s => (next s).map fun b => ⟨a.steps ++ b.steps, b.result⟩

/-- An attempt with one more step in front. -/
def after (action : Action) (left right : Ty) (a : Attempt) : Attempt :=
  ⟨⟨action, left, right⟩ :: a.steps, a.result⟩

end Attempt

namespace Substitution

/-- Makes the unbound variable `v` stand for `target`. -/
def bindTo (s : Substitution) (v : NodeId) (target : Ty) : Attempt :=
  let action :=
    match target with
    | .var (.flexible _) => Action.redirect
    | _ => Action.bind
  .single action (.flexible v) target (.ok (s.assign v target))

/-- What an unbound variable is bound to when it meets `other`: the representative of a variable
or the type it is bound to, and any other type itself. -/
def target? (s : Substitution) (other : Ty) : Option Ty :=
  match other with
  | .var (.flexible w) =>
    (s.find? w).map fun
      | .unbound representative => .flexible representative
      -- the type itself, although an alias of the bound variable would do
      | .bound t => t
  | _ => some other

/-- Unifies the variable `v` with `other`. If `v` is bound, `recur` unifies `other` with what it
is bound to. -/
def unifyVar (recur : Substitution → Ty → Ty → Option Attempt) (s : Substitution) (v : NodeId)
    (other : Ty) : Option Attempt :=
  match s.find? v with
  | none => none
  -- the sides change places if `v` stands on the left
  | some (.bound t) => recur s other t
  | some (.unbound representative) => (s.target? other).map (s.bindTo representative)

/-- Unifies two lists of types place by place, each with what the one before it yields. -/
def unifyAll (recur : Substitution → Ty → Ty → Option Attempt) (s : Substitution) :
    List Ty → List Ty → Option Attempt
  | l :: ls, r :: rs => do (← recur s l r).andThen fun s => unifyAll recur s ls rs
  | _, _ => some ⟨[], .ok s⟩

/-- Two types whose structures differ. -/
def clash (s : Substitution) (lhs rhs : Ty) : Option Attempt := do
  let expected ← s.resolve? lhs
  let found ← s.resolve? rhs
  return .single .structureError lhs rhs (.error (.mismatch expected found))

/-- Unifies two types, with `recur` for their parts. -/
def unifyStep (recur : Substitution → Ty → Ty → Option Attempt) (s : Substitution)
    (lhs rhs : Ty) : Option Attempt :=
  if lhs.alike rhs then
    some (.single .identity lhs rhs (.ok s))
  else
    match lhs, rhs with
    -- of two variables the left one is bound
    | .var (.flexible v), _ => s.unifyVar recur v rhs
    | _, .var (.flexible v) => s.unifyVar recur v lhs
    -- an invalid type was reported where it arose, and is not reported again
    | .invalid _, _ => some (.single .absorb lhs rhs (.ok s))
    | _, .invalid _ => some (.single .absorb lhs rhs (.ok s))
    | .arrow _ d c, .arrow _ d' c' => do
      let parts ← (← recur s d d').andThen fun s => recur s c c'
      return parts.after .decomposeArrow lhs rhs
    | .product _ ls, .product _ rs =>
      if ls.length = rs.length then
        (s.unifyAll recur ls rs).map (·.after .decomposeProduct lhs rhs)
      else
        some (.single .arityError lhs rhs (.error (.arity ls.length rs.length)))
    | _, _ => s.clash lhs rhs

/-- Unifies two types with at most `fuel` levels of descent. -/
def unifyWithin : Nat → Substitution → Ty → Ty → Option Attempt
  | 0 => fun _ _ _ => none
  | fuel + 1 => unifyStep (unifyWithin fuel)

/-- The nodes in a store: those of its bound types, its variables, and their aliases. -/
def weight (s : Substitution) : Nat := s.entries.values.foldr (fun e n => e.size + n) 0

/-- How many levels of descent a unification that ends can need. -/
def unifyFuel (s : Substitution) (lhs rhs : Ty) : Nat :=
  let nodes := lhs.size + rhs.size + s.weight + 1
  -- pairs of nodes, for each number of variables that are still unbound
  nodes * nodes * nodes

/-- The course of unifying `lhs` with `rhs` on top of `s`. -/
def unify? (s : Substitution) (lhs rhs : Ty) : Option Attempt :=
  unifyWithin (s.unifyFuel lhs rhs) s lhs rhs

end Substitution

end CoContextual
