import CoContextual.Substitution.Basic

/-!
# Applying a substitution

Applying a substitution replaces every bound variable by its type, all the way down, and every
alias by its representative. Each replacement leaves a record: the identity of what took the
place of the variable, and the variable. Source positions of a replaced type are found through
these records.

On a cyclic store the replacement never ends. In the expansion of a variable no bound variable is
met twice on a path unless the store is cyclic, so one more expansion than there are entries is
enough; `Substitution.applyTo?` has no answer where that does not suffice.
-/

namespace CoContextual

/-- Where replaced types came from: the identity of a type and what it replaced. -/
abbrev Origins := Table NodeId Ty

/-- A type after replacement, with the records of what was replaced, in order. -/
structure Resolved where
  /-- The type. -/
  type : Ty
  /-- The replacements: the identity of the new type, and the variable it stands for. -/
  origins : List (NodeId × Ty)

namespace TyVar

/-- Inserts a variable in front of the first one with no smaller identity. -/
def insertById (v : TyVar) : List TyVar → List TyVar
  | [] => [v]
  | w :: ws => if v.id ≤ w.id then v :: w :: ws else w :: insertById v ws

/-- Sorts variables by identity; variables with the same identity keep their order. -/
def sortById : List TyVar → List TyVar
  | [] => []
  | v :: vs => insertById v (sortById vs)

/-- Drops every variable that repeats the one before it. -/
def dropRepeats : List TyVar → List TyVar
  | [] => []
  | [v] => [v]
  | v :: w :: rest => if v = w then dropRepeats (w :: rest) else v :: dropRepeats (w :: rest)

end TyVar

namespace Ty

/-- Replaces one variable; rigid variables stay. -/
def applyVar (replace : NodeId → Option Resolved) : TyVar → Option Resolved
  | .flexible v => replace v
  | .rigid v => some ⟨.var (.rigid v), []⟩

/-- The quantifier list that is left when the variables have been replaced: those that are still
variables, sorted by identity and without repeats. -/
def remainingBound (replaced : List Resolved) : List TyVar :=
  TyVar.dropRepeats (TyVar.sortById (replaced.filterMap fun r => r.type.asVar?))

mutual

/-- Replaces every flexible variable as `replace` says. Quantified variables are replaced too;
a scheme whose variables are all gone is its body. -/
def applyWith (replace : NodeId → Option Resolved) : Ty → Option Resolved
  | primitive id kind => some ⟨.primitive id kind, []⟩
  | arrow id d c => do
    let d ← applyWith replace d
    let c ← applyWith replace c
    return ⟨.arrow id d.type c.type, d.origins ++ c.origins⟩
  | product id cs => do
    let cs ← applyAllWith replace cs
    return ⟨.product id (cs.map Resolved.type), cs.flatMap Resolved.origins⟩
  | var v => applyVar replace v
  | scheme id bound body => do
    let vars ← bound.mapM (applyVar replace)
    let body ← applyWith replace body
    let origins := vars.flatMap Resolved.origins ++ body.origins
    -- what became of the quantified variables is recorded even if none of them is left
    match remainingBound vars with
    | [] => return ⟨body.type, origins⟩
    | vs => return ⟨.scheme id vs body.type, origins⟩
  | invalid id => some ⟨.invalid id, []⟩

/-- Replaces the variables of several types, from left to right. -/
def applyAllWith (replace : NodeId → Option Resolved) : List Ty → Option (List Resolved)
  | [] => some []
  | t :: ts => do
    let t ← applyWith replace t
    let ts ← applyAllWith replace ts
    return t :: ts

end

end Ty

namespace Substitution

/-- What takes the place of `v`, with at most `fuel` bindings expanded inside one another. -/
def expand (s : Substitution) : Nat → NodeId → Option Resolved
  | 0, _ => none
  | fuel + 1, v =>
    match s.find? v with
    | none => none
    | some (.unbound w) =>
      some ⟨.flexible w, if w = v then [] else [(w, .flexible v)]⟩
    | some (.bound t) => do
      let inner ← t.applyWith (s.expand fuel)
      -- the record of the whole comes after those of its parts
      return ⟨inner.type, inner.origins ++ [(inner.type.id, .flexible v)]⟩

/-- The type `t` with all variables of `s` replaced, and the record of the replacements. -/
def applyTo? (s : Substitution) (t : Ty) : Option Resolved := t.applyWith (s.expand (s.size + 1))

/-- Several types with all variables of `s` replaced. -/
def applyToAll? (s : Substitution) (ts : List Ty) : Option (List Resolved) :=
  Ty.applyAllWith (s.expand (s.size + 1)) ts

/-- The type `t` with all variables of `s` replaced. -/
def resolve? (s : Substitution) (t : Ty) : Option Ty := (s.applyTo? t).map Resolved.type

end Substitution

/-- The records of several replacements as a table; of two records with one identity the later
one counts. -/
def Origins.ofResolved (rs : List Resolved) : Origins :=
  Table.ofList (rs.flatMap Resolved.origins)

end CoContextual
