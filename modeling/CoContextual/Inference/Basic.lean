import CoContextual.Fault
import CoContextual.NodeId

/-!
# Inference computations

Rules draw fresh identities and may run into a fault; `Inference` is the monad for both.
-/

namespace CoContextual

/-- Computations that draw fresh identities and may run into a fault. -/
abbrev Inference := StateT IdSource (Except Fault)

instance : MonadLift Fresh Inference := ⟨fun f ids => .ok (f.run ids)⟩

namespace Inference

/-- The value of an optional result, or the fault that its absence stands for. -/
def unlessSome {α : Type} (fault : Fault) (a : Option α) : Inference α := fun ids =>
  (fault.unlessSome a).map (·, ids)

end Inference

end CoContextual
