import CoContextual.Typer

/-!
# Sample programs of any size

Families of programs and types that grow with a number, built the way a reader of source text
would build them: parts first, positions relative to the whole.
-/

namespace CoContextual

namespace Family

/-- The name of the `i`-th summand. -/
def summand (i : Nat) : String := "x" ++ toString i

/-- The position in column `n` of the first line, if the number fits. -/
def column (n : Nat) : TyperM Offset :=
  Typer.infer (Inference.unlessSome .overflow
    (if n < UInt32.size then some ⟨0, n.toUInt32⟩ else none))

/-- Adds `count` summands from number `i` on to a sum whose text is `width` columns wide. -/
def extendSum : (count i width : Nat) → Derivation → TyperM Derivation
  | 0, _, _, sum => return sum
  | count + 1, i, width, sum => do
    let name := summand i
    let rhs ← Typer.atom (.name name)
    let span : Span := ⟨← column (width + 1), ← column (width + 2)⟩
    let sum ← Typer.binary (.atOrigin sum) "+" span ⟨← column (width + 3), rhs⟩
    let width := width + 3 + name.length
    -- the whole line has to fit, also behind the last summand
    let _ ← column width
    extendSum count (i + 1) width sum

/-- The sum `x0 + x1 + ...` of `terms` names on one line, nested to the left; at least `x0`. -/
def sumChain (terms : Nat) : TyperM Derivation := do
  extendSum (terms - 1) 1 2 (← Typer.atom (.name (summand 0)))

/-- Calls of `f` inside one another, `depth` deep, around the literal `1`. -/
def nestedCalls : (depth : Nat) → TyperM Derivation
  | 0 => Typer.atom (.literal .int "1")
  | depth + 1 => do
    let argument ← nestedCalls depth
    let callee ← Typer.atom (.name "f")
    Typer.call (.atOrigin callee) [⟨⟨0, 2⟩, argument⟩] ⟨⟨0, 1⟩, ⟨0, 3⟩⟩

/-- A function type of `arity` arguments, one after the other, with `leaf` at every end. -/
def curried (leaf : Fresh Ty) : (arity : Nat) → Fresh Ty
  | 0 => leaf
  | arity + 1 => do
    let codomain ← curried leaf arity
    let domain ← leaf
    Ty.newArrow domain codomain

/-- The curried function type over `i32`. -/
def curriedArrow (arity : Nat) : Fresh Ty := curried (Ty.newPrimitive .i32) arity

/-- The curried function type with a fresh variable at every end. -/
def curriedPattern (arity : Nat) : Fresh Ty := curried Ty.fresh arity

/-- Declares `count` summands from number `i` on, each as `i32`. -/
def declareSummands : (count i : Nat) → Bindings → Fresh Bindings
  | 0, _, b => return b
  | count + 1, i, b => do
    declareSummands count (i + 1) (b.add (.name (summand i)) (← Ty.newPrimitive .i32))

/-- Declarations that fit the sum of `terms` names: the names are `i32`, and `+` takes two of them
to a third. -/
def sumChainBindings (terms : Nat) : Fresh Bindings := do
  let names ← declareSummands terms 0 .empty
  let lhs ← Ty.newPrimitive .i32
  let rhs ← Ty.newPrimitive .i32
  let operands ← Ty.newProduct [lhs, rhs]
  let result ← Ty.newPrimitive .i32
  return names.add (.operator "+") (← Ty.newArrow operands result)

end Family

end CoContextual
