import KeyPath.Pattern.OfKey

/-!
Specs: one pattern for each level of a path. An output path is written with full stops between its
levels; the empty levels at its end do not count.
-/
namespace KeyPath
set_option autoImplicit false

/-- One pattern for each level of a path, the root first. -/
abbrev Spec := List Pattern

namespace Spec

variable [Engine]

def ofKeys : List Text → Logged Spec
  | [] => pure []
  | key :: keys => do
    let p ← Pattern.ofKey key
    (p :: ·) <$> ofKeys keys

/-- The levels of an output path, which may hold no sign that only an input can match. -/
def ofOutput (output : Text) : Logged Spec :=
  if output.contains '@' || output.contains '*' then Logged.fail (.inputSignInOutput output)
  else ofKeys output.properSegments

end Spec
end KeyPath
