import CoContextual.Proofs.Supply
import CoContextual.Typer

/-!
# Expressions and sessions

An `Expr` is an expression as a reader of source text sees it. A session types expressions from the
leaves up with one typer: each step applies a rule to derivations that earlier steps made, in any
order, and uses them up. Whatever else the typer does in between draws identities and leaves the
derivations alone.

`Session g₀ g trees` says that a session which found the typer in the state `g₀` left it in the
state `g`, with the derivations in `trees` not yet used.
-/

namespace CoContextual

/-- An expression. -/
inductive Expr where
  /-- A name or a literal. -/
  | atom (a : Atom)
  /-- An operand that is missing. -/
  | missing
  /-- An expression in parentheses. -/
  | grouping (inner : Placed Expr)
  /-- An operator with one operand; the span is the operator's. -/
  | unary (operator : String) (span : Span) (operand : Placed Expr)
  /-- An operator with two operands; the span is the operator's. -/
  | binary (lhs : Placed Expr) (operator : String) (span : Span) (rhs : Placed Expr)
  /-- A call; the span is that of the argument list. -/
  | call (callee : Placed Expr) (arguments : List (Placed Expr)) (argumentsSpan : Span)

namespace Placed

/-- Changes the part and keeps its place. -/
def map {α β : Type} (f : α → β) (p : Placed α) : Placed β := ⟨p.offset, f p.item⟩

end Placed

/-- The typed expressions that a session has at hand. -/
inductive Session (g₀ : Typer) : Typer → List (Expr × Derivation) → Prop
  | start : Session g₀ g₀ []
  | other {g g' : Typer} {trees : List (Expr × Derivation)} (h : Session g₀ g trees)
      (hids : g.ids.Reaches g'.ids) : Session g₀ g' trees
  | atom {g g' : Typer} {trees : List (Expr × Derivation)} {d : Derivation} (a : Atom)
      (h : Session g₀ g trees) (hd : Typer.atom a g = .ok (d, g')) :
      Session g₀ g' ((.atom a, d) :: trees)
  | missing {g g' : Typer} {trees : List (Expr × Derivation)} {d : Derivation}
      (h : Session g₀ g trees) (hd : Typer.missing g = .ok (d, g')) :
      Session g₀ g' ((.missing, d) :: trees)
  | grouping {g g' : Typer} {trees rest : List (Expr × Derivation)} {d : Derivation}
      (inner : Placed (Expr × Derivation)) (h : Session g₀ g trees)
      (hpick : trees.Perm (inner.item :: rest))
      (hd : Typer.grouping (inner.map Prod.snd) g = .ok (d, g')) :
      Session g₀ g' ((.grouping (inner.map Prod.fst), d) :: rest)
  | unary {g g' : Typer} {trees rest : List (Expr × Derivation)} {d : Derivation}
      (operator : String) (span : Span) (operand : Placed (Expr × Derivation))
      (h : Session g₀ g trees) (hpick : trees.Perm (operand.item :: rest))
      (hd : Typer.unary operator span (operand.map Prod.snd) g = .ok (d, g')) :
      Session g₀ g' ((.unary operator span (operand.map Prod.fst), d) :: rest)
  | binary {g g' : Typer} {trees rest : List (Expr × Derivation)} {d : Derivation}
      (lhs : Placed (Expr × Derivation)) (operator : String) (span : Span)
      (rhs : Placed (Expr × Derivation)) (h : Session g₀ g trees)
      (hpick : trees.Perm (lhs.item :: rhs.item :: rest))
      (hd : Typer.binary (lhs.map Prod.snd) operator span (rhs.map Prod.snd) g = .ok (d, g')) :
      Session g₀ g' ((.binary (lhs.map Prod.fst) operator span (rhs.map Prod.fst), d) :: rest)
  | call {g g' : Typer} {trees rest : List (Expr × Derivation)} {d : Derivation}
      (callee : Placed (Expr × Derivation)) (arguments : List (Placed (Expr × Derivation)))
      (span : Span) (h : Session g₀ g trees)
      (hpick : trees.Perm (callee.item :: (arguments.map Placed.item ++ rest)))
      (hd : Typer.call (callee.map Prod.snd) (arguments.map (Placed.map Prod.snd)) span g
        = .ok (d, g')) :
      Session g₀ g'
        ((.call (callee.map Prod.fst) (arguments.map (Placed.map Prod.fst)) span, d) :: rest)

end CoContextual
