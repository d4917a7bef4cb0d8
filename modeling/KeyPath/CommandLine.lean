import KeyPath.CommandLine.Arguments
import KeyPath.Shift

/-!
The command line as a function from arguments to a report. A run that finds no match says so and ends
with code 1; a fault ends it with code 2, after the lines that were written before it.
-/
namespace KeyPath.CommandLine
set_option autoImplicit false

/-- What is left when a run ends: its code, the lines it wrote, and its complaint, if it has one. -/
structure Report where
  code : Nat
  lines : List Text
  complaint : Text
deriving DecidableEq, Repr

namespace Report

/-- The report of a run that wrote other lines first. -/
def after (lines : List Text) (r : Report) : Report := ⟨r.code, lines ++ r.lines, r.complaint⟩

def written (r : Report) : Text := r.lines.flatMap (· ++ ['\n'])

def failure (action subject : Text) (fault : Fault) : Report :=
  ⟨2, [], "Failed to ".toList ++ action ++ subject.quoted ++ ": ".toList ++ fault.fullMessage ++ ['\n']⟩

end Report

/-- What a node of the trail has captured. -/
def captureLine : Pattern → Text
  | .leaf (.exact key groups) => key ++ ": ".toList ++ ", ".toList.intercalate groups
  | p => p.key ++ ": (no sub-keys)".toList

variable [Engine]

def reportOutputs (t : Trail) : List Text → Report
  | [] => ⟨0, [], []⟩
  | output :: outputs =>
    match (Spec.ofOutput output).outcome with
    | .error fault => .failure "compile output key ".toList output fault
    | .ok levels =>
      match levels.render t with
      | .error fault => .failure "render output key ".toList output fault
      | .ok parts => (reportOutputs t outputs).after [Text.dotted parts]

def Request.report (r : Request) : Report :=
  match (Spec.ofKeys r.spec.segments).outcome with
  | .error fault => .failure "compile spec ".toList r.spec fault
  | .ok levels =>
    match (levels.accept r.input.segments).outcome with
    | .error fault => .failure "match ".toList r.input fault
    | .ok none => ⟨1, [r.input ++ " does not match ".toList ++ r.spec], []⟩
    | .ok (some t) =>
      (reportOutputs t r.outputs).after (if r.captures then t.toList.map captureLine else [])

def version : Text := "keyshift 0.1.0".toList

/-- The texts about the usage are left out: help has no lines, and all misuse has one word for its complaint. -/
def Command.report : Command → Report
  | run request => request.report
  | version => ⟨0, [CommandLine.version], []⟩
  | help => ⟨0, [], []⟩
  | misuse => ⟨2, [], "usage".toList⟩

def report (arguments : List Text) : Report := (Command.ofArguments arguments).report

end KeyPath.CommandLine
