import KeyPath.CommandLine.Arguments

/-!
Arguments that are read back. Every request can be asked for (`Request.arguments`): a value behind an equals sign and
an input behind the separator may be any texts, also such as look like options.
-/
namespace KeyPath.CommandLine
set_option autoImplicit false

/-- The word that an option with a value goes by. -/
def Valued.word : Valued → Text
  | .spec => "spec".toList
  | .output => "output".toList

/-- The option and its value as one argument. -/
def Valued.argument (o : Valued) (v : Text) : Text := '-' :: '-' :: (o.word ++ '=' :: v)

def Request.arguments (r : Request) : List Text :=
  Valued.spec.argument r.spec :: r.outputs.map Valued.output.argument ++
    (if r.captures then ["--captures".toList] else []) ++ ["--".toList, r.input]

/-! ## One option -/

theorem Form.of_long {name value : Text} (hname : '=' ∉ name) :
    Form.of ('-' :: '-' :: (name ++ '=' :: value)) = .long name (some value) := by
  have hsign : ∀ c ∈ name, (c != '=') = true := by
    intro c hc
    rw [bne_iff_ne]
    rintro rfl
    exact hname hc
  have hform : Form.of ('-' :: '-' :: (name ++ '=' :: value)) =
      .long ((name ++ '=' :: value).takeWhile (· != '='))
        (if '=' ∈ name ++ '=' :: value then some ((name ++ '=' :: value).dropWhile (· != '=')).tail else none) := by
    cases name <;> rfl
  rw [hform, List.takeWhile_append_of_pos hsign, List.dropWhile_append_of_pos hsign]
  simp

theorem Valued.form_argument (o : Valued) (v : Text) : Form.of (o.argument v) = .long o.word (some v) := by
  apply Form.of_long
  cases o <;> decide

theorem Valued.ofWord?_word (o : Valued) : Opt.ofWord? o.word = some (.valued o) := by
  cases o <;> decide

theorem readArguments_argument {d next : Draft} {o : Valued} {v : Text} (h : d.addValue o v = some next)
    (as : List Text) : readArguments d (o.argument v :: as) = readArguments next as := by
  have hlong : d.addLong o.word (some v) = .go next := by
    simp only [Draft.addLong, o.ofWord?_word, h, Progress.ofDraft?]
  simp only [readArguments, o.form_argument, hlong]

/-! ## All options -/

theorem readArguments_outputs (input spec : Option Text) (done outputs : List Text) (captures : Bool) (as : List Text) :
    readArguments ⟨input, spec, done, captures⟩ (outputs.map Valued.output.argument ++ as) =
      readArguments ⟨input, spec, done ++ outputs, captures⟩ as := by
  induction outputs generalizing done with
  | nil => rw [List.map_nil, List.nil_append, List.append_nil]
  | cons output outputs ih =>
    have hadd : Draft.addValue ⟨input, spec, done, captures⟩ .output output =
        some ⟨input, spec, done ++ [output], captures⟩ := rfl
    rw [List.map_cons, List.cons_append, readArguments_argument hadd, ih, List.append_assoc, List.singleton_append]

/-- The arguments of a request are read as that request. -/
theorem ofArguments_arguments (r : Request) : Command.ofArguments r.arguments = .run r := by
  have hspec : Draft.empty.addValue .spec r.spec = some ⟨none, some r.spec, [], false⟩ := rfl
  unfold Command.ofArguments Request.arguments
  rw [List.append_assoc, List.cons_append, readArguments_argument hspec, readArguments_outputs, List.nil_append]
  obtain ⟨input, spec, outputs, captures⟩ := r
  cases captures with
  | true => rfl
  | false => rfl

end KeyPath.CommandLine
