import KeyPath.Accept

/-!
Shifting a path: a spec is matched against the keys of an input path, and every output path is rendered
from what was captured.
-/
namespace KeyPath
set_option autoImplicit false

variable [Engine]

/-- Renders outputs one after the other; a fault in one leaves the others alone. -/
def renderOutputs (t : Trail) : List Text → Logged (List (Except Fault Text))
  | [] => pure []
  | output :: outputs => do
    let rendered ← (Spec.renderOutput t output).attempt
    (rendered.map Text.dotted :: ·) <$> renderOutputs t outputs

def shift (spec keys outputs : List Text) : Logged (Option (List (Except Fault Text))) := do
  let levels ← Spec.ofKeys spec
  match ← levels.accept keys with
  | none => return none
  | some t => some <$> renderOutputs t outputs

end KeyPath
