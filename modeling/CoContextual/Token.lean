/-!
# Tokens

What the reader of source text hands over: identifiers that can be declared, and the atoms that
form an expression of their own.
-/

namespace CoContextual

/-- An identifier that a declaration can bind and a use can require. -/
inductive Ident where
  /-- A plain name. -/
  | name (text : String)
  /-- An operator. -/
  | operator (text : String)
deriving DecidableEq

namespace Ident

/-- The identifier as it is written in an expression. -/
def text : Ident → String
  | name text => text
  | operator text => text

/-- Whether the identifier is an operator. -/
def isOperator : Ident → Bool
  | name _ => false
  | operator _ => true

/-- Every name comes before every operator; within a kind the texts decide, by code point. -/
instance : Ord Ident := ⟨compareLex (compareOn isOperator) (compareOn text)⟩

instance : Std.TransOrd Ident :=
  inferInstanceAs (Std.TransCmp (compareLex (compareOn isOperator) (compareOn text)))

instance : Std.LawfulEqOrd Ident where
  eq_of_compare {a b} h := by
    have h : compareLex (compareOn isOperator) (compareOn text) a b = .eq := h
    rw [compareLex_eq_eq] at h
    have kind : a.isOperator = b.isOperator := Std.LawfulEqOrd.eq_of_compare h.1
    have same : a.text = b.text := Std.LawfulEqOrd.eq_of_compare h.2
    cases a <;> cases b <;> simp_all [isOperator, text]

/-- The identifier as messages show it: an operator stands in parentheses. -/
def render : Ident → String
  | name text => text
  | operator text => "(" ++ text ++ ")"

end Ident

/-- The kinds of literal. A broken literal is one whose end or content is malformed. -/
inductive LiteralForm where
  | int
  | float
  | char
  | string
  | brokenChar
  | brokenString
deriving DecidableEq

/-- A token that is an expression on its own. -/
inductive Atom where
  /-- A use of a name. -/
  | name (text : String)
  /-- A literal with its raw text, suffixes and quotes included. -/
  | literal (form : LiteralForm) (text : String)
deriving DecidableEq

/-- The text of the token. -/
def Atom.text : Atom → String
  | name text => text
  | literal _ text => text

end CoContextual
