import CoContextual.Substitution.Apply
import CoContextual.Token

/-!
# Requirements

An expression is typed without its surroundings. What it uses but does not declare is listed in its
`Requirements`, one type per use.
-/

namespace CoContextual

/-- The types at which free identifiers are used, one entry per use, first use first. -/
structure Requirements where
  /-- The uses by identifier. -/
  uses : Table Ident (List Ty)

namespace Requirements

/-- No uses. -/
def empty : Requirements := ⟨.empty⟩

/-- The types at which `token` is used. -/
def get (r : Requirements) (token : Ident) : List Ty := (r.uses.get? token).getD []

/-- Whether `token` is used. -/
def contains (r : Requirements) (token : Ident) : Bool := r.uses.contains token

/-- The identifiers that are used, in ascending order. -/
def tokens (r : Requirements) : List Ident := r.uses.keys

/-- The number of identifiers that are used. -/
def size (r : Requirements) : Nat := r.uses.size

/-- Whether nothing is used. -/
def isEmpty (r : Requirements) : Bool := r.uses.isEmpty

/-- Adds uses of `token` after those it has. -/
def addAll (r : Requirements) (token : Ident) (types : List Ty) : Requirements :=
  ⟨r.uses.upsert token fun known => known.getD [] ++ types⟩

/-- Adds one more use of `token`. -/
def add (r : Requirements) (token : Ident) (type : Ty) : Requirements := r.addAll token [type]

/-- The uses of both; for each identifier those of the left come first. -/
def append (r s : Requirements) : Requirements :=
  s.uses.toList.foldl (fun acc e => acc.addAll e.1 e.2) r

instance : Append Requirements := ⟨append⟩

theorem get_addAll (r : Requirements) (token other : Ident) (types : List Ty) :
    (r.addAll token types).get other =
      if other = token then r.get token ++ types else r.get other := by
  rw [get, addAll, Table.get?_upsert]
  split <;> rfl

/-- The uses of an identifier in both are those in the left, then those in the right. -/
theorem get_append (r s : Requirements) (token : Ident) :
    (r ++ s).get token = r.get token ++ s.get token := by
  obtain ⟨⟨l, sorted⟩⟩ := s
  show (l.foldl (fun acc e => acc.addAll e.1 e.2) r).get token
    = r.get token ++ (Table.lookup token l).getD []
  induction l generalizing r with
  | nil => simp [Table.lookup]
  | cons e rest ih =>
    have hcons := List.pairwise_cons.1 sorted
    rw [List.foldl_cons, ih _ hcons.2, get_addAll, Table.lookup]
    by_cases h : token = e.1
    · -- no later entry speaks of the same identifier
      subst h
      simp [Table.lookup_eq_none_of_lt hcons.1]
    · have : compare token e.1 ≠ .eq := fun hc => h (Std.LawfulEqOrd.eq_of_compare hc)
      simp [h, this]

/-- The flexible variables that are free in some use, each once, in ascending order. -/
def freeFlexible (r : Requirements) : List NodeId :=
  (Table.ofList ((r.uses.values.flatten.flatMap Ty.freeFlexible).map (·, ()))).keys

/-- The uses with all variables of `s` replaced, and the replacements that were made. -/
def substitute? (r : Requirements) (s : Substitution) : Option (Requirements × List Resolved) :=
  (r.uses.traverse s.applyToAll?).map fun resolved =>
    (⟨resolved.map fun rs => rs.map Resolved.type⟩, resolved.values.flatten)

end Requirements

end CoContextual
