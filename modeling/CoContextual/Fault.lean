/-!
# Faults

An operation that yields no answer says why: a position outgrew its word, or the chain of
bindings it follows never ends.
-/

namespace CoContextual

/-- Why an operation has no answer. -/
inductive Fault where
  /-- A line or column number does not fit its word. -/
  | overflow
  /-- Following the bindings of a cyclic store never ends. -/
  | diverges
deriving DecidableEq

namespace Fault

/-- The text reported for a fault. -/
def message : Fault → String
  | overflow => "attempt to add with overflow"
  | diverges => "the bindings are cyclic"

/-- The value of an optional result, or the fault that its absence stands for. -/
def unlessSome {α : Type} (fault : Fault) : Option α → Except Fault α
  | some a => .ok a
  | none => .error fault

end Fault

end CoContextual
