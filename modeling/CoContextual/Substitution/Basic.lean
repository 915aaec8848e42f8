import CoContextual.Ty.Basic

/-!
# Substitutions

A substitution records, for some flexible variables, the type a variable is bound to or the
variable it stands for. It is a value: extending one leaves the old one as it was.

Nothing keeps a variable from being bound to a type that contains it, so a store can be cyclic.
Following aliases ends when no alias is met twice, and a chain of distinct aliases is at most as
long as the store; `Substitution.find?` has no answer on a chain that is longer.
-/

namespace CoContextual

/-- What a substitution says of a variable. -/
inductive Entry where
  /-- The variable is bound to a type. -/
  | bound (type : Ty)
  /-- The variable stands for another variable. -/
  | redirect (target : NodeId)

namespace Entry

/-- Whether two entries are the same but for node identities. -/
def alike : Entry → Entry → Bool
  | bound t, bound u => t.alike u
  | redirect v, redirect w => v = w
  | _, _ => false

/-- A measure of an entry: its nodes and the variable it belongs to. -/
def size : Entry → Nat
  | bound t => t.size + 1
  | redirect _ => 2

end Entry

/-- What following the aliases of a variable leads to. -/
inductive Lookup where
  /-- A variable without an entry, which represents all variables that lead to it. -/
  | unbound (representative : NodeId)
  /-- The type to which the last variable is bound. -/
  | bound (type : Ty)

/-- A store of variable bindings. -/
structure Substitution where
  /-- The entries by variable. -/
  entries : Table NodeId Entry

namespace Substitution

/-- The substitution that says nothing. -/
def empty : Substitution := ⟨.empty⟩

/-- The number of variables with an entry. -/
def size (s : Substitution) : Nat := s.entries.size

/-- Whether no variable has an entry. -/
def isEmpty (s : Substitution) : Bool := s.entries.isEmpty

/-- The entry of a variable. -/
def get? (s : Substitution) (v : NodeId) : Option Entry := s.entries.get? v

/-- All entries of both; on a common variable the right one wins. -/
def union (s t : Substitution) : Substitution := ⟨s.entries ++ t.entries⟩

instance : Append Substitution := ⟨union⟩

/-- Whether two listings of entries are the same but for node identities. -/
def alikeEntries : List (NodeId × Entry) → List (NodeId × Entry) → Bool
  | [], [] => true
  | (v, e) :: es, (w, f) :: fs => v = w && e.alike f && alikeEntries es fs
  | _, _ => false

/-- Whether two substitutions are the same but for node identities. -/
def alike (s t : Substitution) : Bool := alikeEntries s.entries.toList t.entries.toList

/-- The substitution that maps `v` to `target`: as an alias if the target is another flexible
variable, and unchanged if it is `v` itself. -/
def assign (s : Substitution) (v : NodeId) (target : Ty) : Substitution :=
  match target with
  -- an alias of itself would keep every lookup from ending
  | .var (.flexible w) => if w = v then s else ⟨s.entries.insert v (.redirect w)⟩
  | _ => ⟨s.entries.insert v (.bound target)⟩

/-- Assigning to `v` changes what is known of `v` and of no other variable. -/
theorem get?_assign_of_ne (s : Substitution) {v w : NodeId} (target : Ty) (h : w ≠ v) :
    (s.assign v target).get? w = s.get? w := by
  unfold assign
  split
  · split
    · rfl
    · exact Table.get?_upsert_of_ne s.entries _ h
  · exact Table.get?_upsert_of_ne s.entries _ h

/-- Follows at most `fuel` entries from `v`. -/
def findWithin (s : Substitution) : Nat → NodeId → Option Lookup
  | 0, _ => none
  | fuel + 1, v =>
    match s.get? v with
    | none => some (.unbound v)
    | some (.bound t) => some (.bound t)
    | some (.redirect w) => s.findWithin fuel w

/-- What the aliases from `v` lead to; there is no answer if they run in a circle. -/
def find? (s : Substitution) (v : NodeId) : Option Lookup := s.findWithin (s.size + 1) v

end Substitution

end CoContextual
