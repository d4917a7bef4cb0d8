import KeyPath.Pattern
import KeyPath.Template.Reader

/-!
Why a key is refused, or why a pattern cannot be matched or rendered. Each constructor is one cause
with what it is about; `Fault.message` has the wording.
-/
namespace KeyPath
set_option autoImplicit false

/-- What only some kinds of patterns can do. -/
inductive Demand where
  | render
  | capture
deriving DecidableEq, Repr

def Demand.name : Demand → Text
  | .render => "render_output".toList
  | .capture => "sub_key".toList

inductive Fault where
  | mixedSigns (key : Text)
  | malformed (key : Text) (flaw : Flaw)
  | unsupported (demand : Demand) (kind : Kind) (key : Text)
  | inputSignInOutput (output : Text)
  | noSuchLevel (distance depth : Nat)
  | noSuchCapture (key : Text) (index available : Nat)
  | notAnIndex (captured : Text)
  | refusedGlob (key reason : Text)
deriving DecidableEq, Repr

namespace Fault

def message : Fault → Text
  | mixedSigns key => "Can't mix '*' with '&' or '[]' in key ".toList ++ key.quoted
  | malformed key flaw => "Malformed reference in key ".toList ++ key.quoted ++ ": ".toList ++ flaw.reason
  | unsupported demand kind key =>
    "Don't call ".toList ++ demand.name ++ " on the ".toList ++ kind.name ++ " key ".toList ++ key.quoted
  | inputSignInOutput output => "Output key ".toList ++ output.quoted ++ " can not contain '@' or '*'".toList
  | noSuchLevel distance depth =>
    "Reference walks ".toList ++ Numeral.write distance ++ " level(s) up but only ".toList ++
      Numeral.write depth ++ " ancestor(s) are matched".toList
  | noSuchCapture key index available =>
    "Sub-key ".toList ++ Numeral.write index ++ " requested from ".toList ++ key.quoted ++
      " which has ".toList ++ Numeral.write available ++ " sub-key(s)".toList
  | notAnIndex captured => "Captured text ".toList ++ captured.quoted ++ " is not a valid array index".toList
  | refusedGlob key reason => "Wildcard key ".toList ++ key.quoted ++ " failed to compile: ".toList ++ reason

/-- The message followed by the cause behind it, where there is one. -/
def fullMessage : Fault → Text
  | refusedGlob key reason => message (refusedGlob key reason) ++ ": ".toList ++ reason
  | fault => message fault

end Fault
end KeyPath
