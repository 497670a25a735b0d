/-
# PTEditor.Theory.LastWrite -- registers that keep what was last written

Actions of which some write a register: `writes` says what an action writes.  A register
that every step leaves as the action writes it, or as it was, ends a run with what the last
writing action wrote.
-/
import PTEditor.Theory.Runs

namespace PTEditor.Theory.LastWrite

open PTEditor.Theory.Runs

set_option autoImplicit false

variable {State Action Value : Type} {step : Action → State → State}

/-- What the last writing action writes; the first value if none does. -/
def lastWrite (writes : Action → Option Value) : List Action → Value → Value
  | [], value => value
  | action :: rest, value => lastWrite writes rest ((writes action).getD value)

end PTEditor.Theory.LastWrite
