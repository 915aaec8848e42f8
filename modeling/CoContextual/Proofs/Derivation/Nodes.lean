import CoContextual.Derivation.Statement

/-!
# Nodes and parts

- `Derivation.parts`: the parts of an expression, whatever its kind, and induction on them
  (`Derivation.ind_parts`);
- `Derivation.nodes`: all nodes of an expression, before their parts and from left to right, each
  with the offsets that lead to it.
-/

namespace CoContextual

/-- Something inside a whole, and the offsets that lead to it, the outermost first. -/
structure Nested (α : Type) where
  /-- The offsets of the parts that hold it, each relative to the part around it. -/
  path : List Offset
  /-- What is there. -/
  item : α

/-- The same seen from a whole that has the present one as a part at `offset`. -/
def Nested.under {α : Type} (offset : Offset) (n : Nested α) : Nested α :=
  ⟨offset :: n.path, n.item⟩

namespace Derivation

/-- The parts of an expression, from left to right. -/
def parts : Derivation → List (Placed Derivation)
  | atom _ _ _ => []
  | grouping inner => [inner]
  | unary _ operand => [operand]
  | binary _ lhs rhs => [lhs, rhs]
  | call _ callee arguments => callee :: arguments
  | missing _ => []

mutual

/-- All nodes of an expression, a node before its parts and the parts from left to right. -/
def nodes : Derivation → List (Nested Derivation)
  | atom type requirements span => [⟨[], atom type requirements span⟩]
  | grouping inner => ⟨[], grouping inner⟩ :: nodesIn inner
  | unary operation operand => ⟨[], unary operation operand⟩ :: nodesIn operand
  | binary operation lhs rhs => ⟨[], binary operation lhs rhs⟩ :: (nodesIn lhs ++ nodesIn rhs)
  | call site callee arguments =>
    ⟨[], call site callee arguments⟩ :: (nodesIn callee ++ nodesInAll arguments)
  | missing type => [⟨[], missing type⟩]

/-- All nodes of a part, seen from the whole. -/
def nodesIn : Placed Derivation → List (Nested Derivation)
  | ⟨offset, part⟩ => (nodes part).map (·.under offset)

/-- All nodes of several parts, seen from the whole. -/
def nodesInAll : List (Placed Derivation) → List (Nested Derivation)
  | [] => []
  | part :: parts => nodesIn part ++ nodesInAll parts

end

/-- Induction on expressions, with the same step for all kinds of node. -/
theorem ind_parts {P : Derivation → Prop} (step : ∀ d, (∀ p ∈ d.parts, P p.item) → P d)
    (d : Derivation) : P d := by
  induction d using ind with
  | atom type requirements span => exact step _ (by simp [parts])
  | grouping inner ih => exact step _ (by simpa [parts] using ih)
  | unary operation operand ih => exact step _ (by simpa [parts] using ih)
  | binary operation lhs rhs ih ih' => exact step _ (by simpa [parts] using ⟨ih, ih'⟩)
  | call site callee arguments ih ihs => exact step _ (by simpa [parts] using ⟨ih, ihs⟩)
  | missing type => exact step _ (by simp [parts])

theorem nodesInAll_eq (parts : List (Placed Derivation)) :
    nodesInAll parts = parts.flatMap nodesIn := by
  induction parts with
  | nil => rw [nodesInAll, List.flatMap_nil]
  | cons part parts ih => rw [nodesInAll, ih, List.flatMap_cons]

theorem nodes_eq (d : Derivation) : d.nodes = ⟨[], d⟩ :: d.parts.flatMap nodesIn := by
  cases d <;> simp [nodes, parts, nodesInAll_eq]

end Derivation

end CoContextual
