import Effectful.Program.Interpretation
/-!
# Immediate execution

The target whose programs are actions. Chaining nests them, one inside the other.
-/
namespace Effectful.Target

def immediate (R W : Type) [View W R] : Context R (Action W) where
  name := "Thunk"
  lift := Action.answer
  sequence := Action.sequence

end Effectful.Target
