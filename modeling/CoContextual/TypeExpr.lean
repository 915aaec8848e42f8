import CoContextual.Ty.Basic

/-!
# Written types

A type as it is written after a name. Reading one into a type takes the names of primitive types
for what they are and every other name for a rigid variable, the same one for every occurrence of
the name in the annotation.
-/

namespace CoContextual

/-- A written type. -/
inductive TypeExpr where
  /-- A primitive type, or a variable. -/
  | named (name : String)
  /-- A function type. -/
  | arrow (domain codomain : TypeExpr)
  /-- A product. -/
  | product (components : List TypeExpr)

namespace TypeExpr

/-- The rigid variables that the names met so far stand for. -/
abbrev Names := Table String Ty

/-- The variable that a name stands for, a fresh one when it is met for the first time. -/
def rigidFor (name : String) (names : Names) : Fresh (Ty × Names) :=
  match names.get? name with
  | some known => return (known, names)
  | none => do
    let new ← Ty.freshRigid
    return (new, names.insert name new)

mutual

/-- The type that an annotation denotes, given the names met so far; parts come before their
whole and left before right. -/
def toTyWith : TypeExpr → Names → Fresh (Ty × Names)
  | named name, names =>
    match Primitive.ofName? name with
    | some kind => return (← Ty.newPrimitive kind, names)
    | none => rigidFor name names
  | arrow d c, names => do
    let (domain, names) ← toTyWith d names
    let (codomain, names) ← toTyWith c names
    return (← Ty.newArrow domain codomain, names)
  | product cs, names => do
    let (components, names) ← toTysWith cs names
    return (← Ty.newProduct components, names)

/-- The types that several annotations denote, from left to right. -/
def toTysWith : List TypeExpr → Names → Fresh (List Ty × Names)
  | [], names => return ([], names)
  | a :: as, names => do
    let (t, names) ← toTyWith a names
    let (ts, names) ← toTysWith as names
    return (t :: ts, names)

end

/-- The type that an annotation denotes. -/
def toTy (a : TypeExpr) : Fresh Ty := return (← a.toTyWith .empty).1

end TypeExpr

end CoContextual
