/-!
# Relative positions

An `Offset` counts lines and columns from an origin, a `Span` is a range of offsets, and every
syntax node measures from its own start. `Offset.add?` places one offset after another; it is
checked, because line and column are 32-bit words. A part keeps its positions wherever it is put:
`Placed` pairs it with the offset at which it starts inside its whole.
-/

namespace CoContextual

/-- The sum of two words, if it fits a word. -/
def checkedAdd (a b : UInt32) : Option UInt32 :=
  if a.toNat + b.toNat < UInt32.size then some (a + b) else none

/-- A position relative to some origin. -/
structure Offset where
  /-- How many lines below the origin. -/
  line : UInt32
  /-- The column, counted from the origin on its own line and from the margin below it. -/
  column : UInt32
deriving DecidableEq

namespace Offset

/-- The origin itself. -/
def zero : Offset := ⟨0, 0⟩

/-- Offsets are ordered by line, then by column. -/
instance : Ord Offset := ⟨compareLex (compareOn line) (compareOn column)⟩

/-- The position that lies `b` after `a`: on the line of `a` the columns add up, and a lower line
keeps the column of `b`. There is none if the sum that is taken does not fit. -/
def add? (a b : Offset) : Option Offset :=
  -- the line of `a` is not checked, since `b` stays on it
  if b.line = 0 then
    (checkedAdd a.column b.column).map fun column => ⟨a.line, column⟩
  else
    (checkedAdd a.line b.line).map fun line => ⟨line, b.column⟩

/-- How far reading one character moves: a line feed to the margin of the next line, any other
character by one column. -/
def ofChar (c : Char) : Offset := if c = '\n' then ⟨1, 0⟩ else ⟨0, 1⟩

/-- The offset reached by reading `text` from the origin. -/
def ofText? (text : String) : Option Offset :=
  text.toList.foldlM (fun reached c => reached.add? (ofChar c)) zero

/-- Line and column with a colon between them. -/
def render (o : Offset) : String :=
  toString o.line.toNat ++ ":" ++ toString o.column.toNat

end Offset

/-- A range of text relative to some origin. -/
structure Span where
  /-- Where the range starts. -/
  start : Offset
  /-- Where the range stops. -/
  stop : Offset
deriving DecidableEq

namespace Span

/-- The empty range at the origin. -/
def zero : Span := ⟨.zero, .zero⟩

/-- Spans are ordered by their start, then by their stop. -/
instance : Ord Span := ⟨compareLex (compareOn start) (compareOn stop)⟩

/-- The range that `text` covers when it is read from the origin. -/
def ofText? (text : String) : Option Span := (Offset.ofText? text).map fun stop => ⟨.zero, stop⟩

/-- The same range seen from an origin that lies `offset` earlier. -/
def shift? (s : Span) (offset : Offset) : Option Span := do
  return ⟨← offset.add? s.start, ← offset.add? s.stop⟩

/-- Several ranges seen from an origin that lies `offset` earlier. -/
def shiftAll? (spans : List Span) (offset : Offset) : Option (List Span) :=
  spans.mapM fun s => s.shift? offset

/-- Whether the range covers nothing. -/
def isEmpty (s : Span) : Bool := s.start = s.stop

/-- Start and stop with a dash between them. -/
def render (s : Span) : String := s.start.render ++ "-" ++ s.stop.render

end Span

/-- A value and the range of text it was written in. -/
structure Located (α : Type) where
  /-- The value. -/
  item : α
  /-- Where it was written. -/
  span : Span

/-- Changes the value and keeps its place. -/
def Located.map {α β : Type} (f : α → β) (l : Located α) : Located β := ⟨f l.item, l.span⟩

/-- A part of some whole and the offset at which it starts there. -/
structure Placed (α : Type) where
  /-- Where the part starts, relative to the whole. -/
  offset : Offset
  /-- The part, with positions of its own. -/
  item : α

/-- A part that starts where its whole starts. -/
def Placed.atOrigin {α : Type} (a : α) : Placed α := ⟨.zero, a⟩

end CoContextual
