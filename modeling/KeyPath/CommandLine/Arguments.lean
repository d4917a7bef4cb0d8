import KeyPath.Text

/-!
Arguments of the command line. `-s`/`--spec` and `-o`/`--output` take a value, which stands behind
them, behind an equals sign, or right behind the letter; `-c`, `-V` and `-h` take none and may share a
dash. A lone dash is an ordinary word, and behind `--` all arguments are. What goes wrong first, or a
question for version or help in front of it, decides. Why arguments are refused is left out: all misuse is one
command.
-/
namespace KeyPath.CommandLine
set_option autoImplicit false

structure Request where
  input : Text
  spec : Text
  outputs : List Text
  captures : Bool
deriving DecidableEq, Repr

inductive Command where
  | run (request : Request)
  | version
  | help
  | misuse
deriving DecidableEq, Repr

/-- The options that take a value. -/
inductive Valued where
  | spec
  | output
deriving DecidableEq, Repr

inductive Opt where
  | valued (o : Valued)
  | captures
  | version
  | help
deriving DecidableEq, Repr

def Opt.ofLetter? (c : Char) : Option Opt :=
  if c = 's' then some (.valued .spec)
  else if c = 'o' then some (.valued .output)
  else if c = 'c' then some .captures
  else if c = 'V' then some .version
  else if c = 'h' then some .help
  else none

def Opt.ofWord? (w : Text) : Option Opt :=
  if w = "spec".toList then some (.valued .spec)
  else if w = "output".toList then some (.valued .output)
  else if w = "captures".toList then some .captures
  else if w = "version".toList then some .version
  else if w = "help".toList then some .help
  else none

/-! ## What was read so far -/

structure Draft where
  input : Option Text
  spec : Option Text
  outputs : List Text
  captures : Bool

namespace Draft

def empty : Draft := ⟨none, none, [], false⟩

/-- There is one input. -/
def addWord (d : Draft) (w : Text) : Option Draft :=
  if d.input.isNone then some ⟨some w, d.spec, d.outputs, d.captures⟩ else none

/-- There is one spec and any number of outputs. -/
def addValue (d : Draft) : Valued → Text → Option Draft
  | .spec, v => if d.spec.isNone then some ⟨d.input, some v, d.outputs, d.captures⟩ else none
  | .output, v => some ⟨d.input, d.spec, d.outputs ++ [v], d.captures⟩

def addCaptures (d : Draft) : Option Draft :=
  if d.captures then none else some ⟨d.input, d.spec, d.outputs, true⟩

def finish (d : Draft) : Command :=
  match d.input, d.spec with
  | some input, some spec => .run ⟨input, spec, d.outputs, d.captures⟩
  | _, _ => .misuse

end Draft

/-! ## One argument -/

/-- An argument by its form. -/
inductive Form where
  | word (w : Text)
  | separator
  | long (name : Text) (value : Option Text)
  | short (letters : Text)

def Form.of : Text → Form
  | ['-', '-'] => .separator
  | '-' :: '-' :: s =>
    .long (s.takeWhile (· != '=')) (if '=' ∈ s then some (s.dropWhile (· != '=')).tail else none)
  | '-' :: c :: s => .short (c :: s)
  | w => .word w

/-- Where reading stands after one argument. -/
inductive Progress where
  | go (d : Draft)
  | needValue (d : Draft) (o : Valued)
  | stop (c : Command)

def Progress.ofDraft? : Option Draft → Progress
  | some d => .go d
  | none => .stop .misuse

def Draft.addLong (d : Draft) (name : Text) (value : Option Text) : Progress :=
  match Opt.ofWord? name, value with
  | some (.valued o), some v => .ofDraft? (d.addValue o v)
  | some (.valued o), none => .needValue d o
  | some .captures, none => .ofDraft? d.addCaptures
  | some .version, none => .stop .version
  | some .help, none => .stop .help
  | _, _ => .stop .misuse

/-- A value right behind its letter may have an equals sign in front. -/
def attachedValue : Text → Text
  | '=' :: v => v
  | v => v

def Draft.addShort (d : Draft) : Text → Progress
  | [] => .go d
  | c :: s =>
    match Opt.ofLetter? c with
    | some (.valued o) => if s = [] then .needValue d o else .ofDraft? (d.addValue o (attachedValue s))
    | some .captures =>
      match d.addCaptures with
      | some d => d.addShort s
      | none => .stop .misuse
    | some .version => .stop .version
    | some .help => .stop .help
    | none => .stop .misuse

/-! ## All arguments -/

def readWords (d : Draft) : List Text → Command
  | [] => d.finish
  | w :: ws =>
    match d.addWord w with
    | some d => readWords d ws
    | none => .misuse

mutual
def readArguments (d : Draft) : List Text → Command
  | [] => d.finish
  | a :: as =>
    match Form.of a with
    | .word w =>
      match d.addWord w with
      | some d => readArguments d as
      | none => .misuse
    | .separator => readWords d as
    | .long name value =>
      match d.addLong name value with
      | .go d => readArguments d as
      | .needValue d o => readValue d o as
      | .stop c => c
    | .short letters =>
      match d.addShort letters with
      | .go d => readArguments d as
      | .needValue d o => readValue d o as
      | .stop c => c

/-- The value of an option is the next argument, if that has the form of a word. -/
def readValue (d : Draft) (o : Valued) : List Text → Command
  | [] => .misuse
  | a :: as =>
    match Form.of a with
    | .word v =>
      match d.addValue o v with
      | some d => readArguments d as
      | none => .misuse
    | _ => .misuse
end

def Command.ofArguments (arguments : List Text) : Command := readArguments .empty arguments

end KeyPath.CommandLine
