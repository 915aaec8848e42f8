import CoContextual.Substitution.Apply
import CoContextual.Token

/-!
# Bindings

What a statement declares for the statements around it: one type per identifier.
-/

namespace CoContextual

/-- The identifiers that a statement declares, with their types. -/
structure Bindings where
  /-- The declared types by identifier. -/
  types : Table Ident Ty

namespace Bindings

/-- No declarations. -/
def empty : Bindings := ⟨.empty⟩

/-- The single declaration of `token`. -/
def single (token : Ident) (type : Ty) : Bindings := ⟨.singleton token type⟩

/-- The type that `token` is declared with. -/
def get? (b : Bindings) (token : Ident) : Option Ty := b.types.get? token

/-- Whether `token` is declared. -/
def contains (b : Bindings) (token : Ident) : Bool := b.types.contains token

/-- The number of declared identifiers. -/
def size (b : Bindings) : Nat := b.types.size

/-- Whether nothing is declared. -/
def isEmpty (b : Bindings) : Bool := b.types.isEmpty

/-- Declares `token`, in the place of an earlier declaration. -/
def add (b : Bindings) (token : Ident) (type : Ty) : Bindings := ⟨b.types.insert token type⟩

theorem get?_add (b : Bindings) (token other : Ident) (type : Ty) :
    (b.add token type).get? other = if other = token then some type else b.get? other :=
  Table.get?_insert b.types token other type

theorem get?_single (token other : Ident) (type : Ty) :
    (single token type).get? other = if other = token then some type else none :=
  Table.get?_insert .empty token other type

/-- The declarations of both; on a common identifier the right one counts. -/
def append (b c : Bindings) : Bindings := ⟨b.types ++ c.types⟩

instance : Append Bindings := ⟨append⟩

theorem get?_append (b c : Bindings) (token : Ident) :
    (b ++ c).get? token = (c.get? token).or (b.get? token) :=
  Table.get?_union b.types c.types token

/-- Goes through the declarations in ascending order of their identifiers. -/
def fold {α : Type} (b : Bindings) (f : α → Ident → Ty → α) (start : α) : α :=
  b.types.toList.foldl (fun acc e => f acc e.1 e.2) start

/-- The declarations with all variables of `s` replaced, and the replacements that were made. -/
def substitute? (b : Bindings) (s : Substitution) : Option (Bindings × List Resolved) :=
  (b.types.traverse s.applyTo?).map fun resolved =>
    (⟨resolved.map Resolved.type⟩, resolved.values)

end Bindings

end CoContextual
