import KeyPath.CommandLine
import KeyPath.Proofs.Arguments
import KeyPath.Proofs.Compiled
import KeyPath.Proofs.ReadBack
import KeyPath.Regex.Tabled

/-!
What a run reports. Spec and input are settled before any output is looked at, and what they come to does not
depend on the outputs (`Request.report_cases`). The outputs are then written one line each, up to the first one
that fails (`reportOutputs_cases`). So more outputs only add to what is written, and add nothing to a run that
has failed or found no match (`report_by_stages`).
-/
namespace KeyPath.CommandLine
set_option autoImplicit false

/-! ## Reports behind lines -/

namespace Report
variable {lines : List Text} {r : Report}

@[simp] theorem lines_after : (r.after lines).lines = lines ++ r.lines := rfl

theorem after_nil (r : Report) : r.after [] = r := rfl

theorem after_after (above lines : List Text) (r : Report) :
    (r.after lines).after above = r.after (above ++ lines) := by
  rw [after, after, after, List.append_assoc]

theorem written_prefix_of_lines {r s : Report} (h : r.lines <+: s.lines) : r.written <+: s.written := by
  obtain ⟨more, hmore⟩ := h
  rw [written, written, ← hmore, List.flatMap_append]
  exact List.prefix_append _ _

theorem complaint_failure_ne_nil (action subject : Text) (fault : Fault) :
    (failure action subject fault).complaint ≠ [] := by
  simp [failure]

end Report

/-! ## Outputs one after the other -/

section
variable [Engine]

/-- The line that an output is written as. -/
def outputLine (t : Trail) (output : Text) : Except Fault Text :=
  (Spec.renderOutput t output).outcome.map Text.dotted

section
variable {t : Trail} {output : Text} {outputs : List Text}

theorem reportOutputs_of_line {line : Text} (h : outputLine t output = .ok line) (outputs : List Text) :
    reportOutputs t (output :: outputs) = (reportOutputs t outputs).after [line] := by
  rw [outputLine, Spec.renderOutput, Logged.outcome_bind] at h
  match hlevels : (Spec.ofOutput output).outcome, h with
  | .ok levels, h =>
    change (levels.render t).map Text.dotted = .ok line at h
    match hparts : levels.render t, h with
    | .ok parts, h =>
      obtain rfl := Except.ok.inj h
      simp only [reportOutputs, hlevels, hparts]

theorem reportOutputs_of_fault {fault : Fault} (h : outputLine t output = .error fault) :
    ∃ action, ∀ outputs, reportOutputs t (output :: outputs) = .failure action output fault := by
  rw [outputLine, Spec.renderOutput, Logged.outcome_bind] at h
  match hlevels : (Spec.ofOutput output).outcome, h with
  | .error fault', h =>
    obtain rfl := Except.error.inj h
    exact ⟨_, fun outputs => by simp only [reportOutputs, hlevels]; rfl⟩
  | .ok levels, h =>
    change (levels.render t).map Text.dotted = .error fault at h
    match hparts : levels.render t, h with
    | .error fault', h =>
      obtain rfl := Except.error.inj h
      exact ⟨_, fun outputs => by simp only [reportOutputs, hlevels, hparts]; rfl⟩

theorem reportOutputs_of_lines {lines : List Text}
    (h : List.Forall₂ (fun output line => outputLine t output = .ok line) outputs lines) (behind : List Text) :
    reportOutputs t (outputs ++ behind) = (reportOutputs t behind).after lines := by
  induction h with
  | nil => exact (Report.after_nil _).symm
  | @cons output line outputs lines hline _ ih =>
    rw [List.cons_append, reportOutputs_of_line hline, ih, Report.after_after, List.singleton_append]

/-- All outputs are written, or those in front of the first one that fails, whatever stands behind it. -/
theorem reportOutputs_cases (t : Trail) (outputs : List Text) :
    (∃ lines, List.Forall₂ (fun output line => outputLine t output = .ok line) outputs lines ∧
        reportOutputs t outputs = ⟨0, lines, []⟩) ∨
      ∃ before output behind lines fault action, outputs = before ++ output :: behind ∧
        List.Forall₂ (fun output line => outputLine t output = .ok line) before lines ∧
        outputLine t output = .error fault ∧
        ∀ more, reportOutputs t (before ++ output :: more) = (Report.failure action output fault).after lines := by
  obtain ⟨lines, hlines⟩ | ⟨before, output, behind, lines, fault, rfl, hlines, hfault⟩ :=
    exists_results_or_first_fault (outputLine t) outputs
  · refine .inl ⟨lines, hlines, ?_⟩
    have hall := reportOutputs_of_lines hlines []
    rw [List.append_nil] at hall
    rw [hall, Report.after, reportOutputs, List.append_nil]
  · obtain ⟨action, haction⟩ := reportOutputs_of_fault hfault
    refine .inr ⟨before, output, behind, lines, fault, action, rfl, hlines, hfault, fun more => ?_⟩
    rw [reportOutputs_of_lines hlines, haction]

theorem complaint_reportOutputs_iff (t : Trail) (outputs : List Text) :
    (reportOutputs t outputs).complaint ≠ [] ↔ (reportOutputs t outputs).code = 2 := by
  obtain ⟨lines, -, hreport⟩ | ⟨before, output, behind, lines, fault, action, rfl, -, -, hreport⟩ :=
    reportOutputs_cases t outputs
  · rw [hreport]
    simp
  · rw [hreport behind]
    exact iff_of_true (Report.complaint_failure_ne_nil action output fault) rfl

/-- More outputs are written behind the lines that were written, or not at all. -/
theorem reportOutputs_append (t : Trail) (outputs more : List Text) :
    (reportOutputs t outputs).lines <+: (reportOutputs t (outputs ++ more)).lines ∧
      ((reportOutputs t outputs).code ≠ 0 → reportOutputs t (outputs ++ more) = reportOutputs t outputs) := by
  obtain ⟨lines, hlines, hreport⟩ | ⟨before, output, behind, lines, fault, action, rfl, -, -, hreport⟩ :=
    reportOutputs_cases t outputs
  · rw [hreport, reportOutputs_of_lines hlines]
    exact ⟨List.prefix_append _ _, fun h => absurd rfl h⟩
  · rw [List.append_assoc, List.cons_append, hreport behind, hreport (behind ++ more)]
    exact ⟨List.prefix_refl _, fun _ => rfl⟩

end

/-! ## The stages of a run -/

namespace Request

/-- What is written of the matched path in front of the outputs. -/
def entries (r : Request) (t : Trail) : List Text := if r.captures then t.toList.map captureLine else []

section
variable {r : Request} {fault : Fault} {levels : Spec}

theorem report_of_bad_spec (h : (Spec.ofKeys r.spec.segments).outcome = .error fault) :
    r.report = .failure "compile spec ".toList r.spec fault := by
  rw [report, h]

theorem report_of_bad_match (hspec : (Spec.ofKeys r.spec.segments).outcome = .ok levels)
    (h : (levels.accept r.input.segments).outcome = .error fault) :
    r.report = .failure "match ".toList r.input fault := by
  simp only [report, hspec, h]

theorem report_of_no_match (hspec : (Spec.ofKeys r.spec.segments).outcome = .ok levels)
    (h : (levels.accept r.input.segments).outcome = .ok none) :
    r.report = ⟨1, [r.input ++ " does not match ".toList ++ r.spec], []⟩ := by
  simp only [report, hspec, h]

theorem report_of_match (hspec : (Spec.ofKeys r.spec.segments).outcome = .ok levels) {t : Trail}
    (h : (levels.accept r.input.segments).outcome = .ok (some t)) :
    r.report = (reportOutputs t r.outputs).after (r.entries t) := by
  simp only [report, hspec, h, entries]

end

/-- Without a match the report is the same for all outputs; with one, the outputs are reported behind the same
entries. -/
theorem report_cases (r : Request) :
    (∃ action subject fault, ∀ outputs : List Text,
        Request.report { r with outputs := outputs } = .failure action subject fault) ∨
      (∃ lines, ∀ outputs : List Text, Request.report { r with outputs := outputs } = ⟨1, lines, []⟩) ∨
      ∃ t, ∀ outputs : List Text,
        Request.report { r with outputs := outputs } = (reportOutputs t outputs).after (r.entries t) := by
  cases hspec : (Spec.ofKeys r.spec.segments).outcome with
  | error fault => exact .inl ⟨_, _, fault, fun _ => report_of_bad_spec hspec⟩
  | ok levels =>
    match hmatch : (levels.accept r.input.segments).outcome with
    | .error fault => exact .inl ⟨_, _, fault, fun _ => report_of_bad_match hspec hmatch⟩
    | .ok none =>
      refine .inr (.inl ⟨[r.input ++ " does not match ".toList ++ r.spec], fun outputs => ?_⟩)
      exact report_of_no_match hspec hmatch
    | .ok (some t) => exact .inr (.inr ⟨t, fun outputs => report_of_match (r := { r with outputs }) hspec hmatch⟩)

theorem complaint_report_iff (r : Request) : r.report.complaint ≠ [] ↔ r.report.code = 2 := by
  obtain ⟨action, subject, fault, h⟩ | ⟨lines, h⟩ | ⟨t, h⟩ := r.report_cases
  · rw [h r.outputs]
    exact iff_of_true (Report.complaint_failure_ne_nil action subject fault) rfl
  · rw [h r.outputs]
    simp
  · rw [h r.outputs]
    exact complaint_reportOutputs_iff t r.outputs

theorem report_append (r : Request) (more : List Text) :
    r.report.lines <+: (Request.report { r with outputs := r.outputs ++ more }).lines ∧
      (r.report.code ≠ 0 → Request.report { r with outputs := r.outputs ++ more } = r.report) := by
  obtain ⟨action, subject, fault, h⟩ | ⟨lines, h⟩ | ⟨t, h⟩ := r.report_cases
  · rw [h r.outputs, h (r.outputs ++ more)]
    exact ⟨List.prefix_refl _, fun _ => rfl⟩
  · rw [h r.outputs, h (r.outputs ++ more)]
    exact ⟨List.prefix_refl _, fun _ => rfl⟩
  · obtain ⟨hlines, hstop⟩ := reportOutputs_append t r.outputs more
    rw [h r.outputs, h (r.outputs ++ more)]
    refine ⟨(List.prefix_append_right_inj _).mpr hlines, fun hcode => ?_⟩
    rw [hstop hcode]

end Request

theorem report_arguments (r : Request) : report r.arguments = r.report := by
  rw [report, ofArguments_arguments, Command.report]

/-- Every request is what some arguments ask for. A spec that does not compile and an input that cannot be matched
end the run with code 2 before anything is written, and an input that does not match with code 1 and the one line
that says so. Otherwise the entries of the levels are written, if they are asked for, and one line for each output
up to the first one that fails; the code is 2 if one fails and 0 if none does. There is a complaint exactly with
code 2. More outputs at the end only add to what is written, and change nothing of a run that ended with code 1
or 2. -/
theorem report_by_stages (r : Request) :
    report r.arguments = r.report ∧
      (∀ fault, (Spec.ofKeys r.spec.segments).outcome = .error fault → r.report.code = 2 ∧ r.report.written = []) ∧
      (∀ levels, (Spec.ofKeys r.spec.segments).outcome = .ok levels →
        (∀ fault, (levels.accept r.input.segments).outcome = .error fault →
            r.report.code = 2 ∧ r.report.written = []) ∧
          ((levels.accept r.input.segments).outcome = .ok none →
            r.report.code = 1 ∧ r.report.written = r.input ++ " does not match ".toList ++ r.spec ++ ['\n']) ∧
          ∀ t, (levels.accept r.input.segments).outcome = .ok (some t) →
            t.toList.length = levels.length ∧
              List.Forall₂ (fun x node => Pattern.Keeps x.1 x.2 node) (levels.zip r.input.segments) t.toList ∧
              ((∃ lines, List.Forall₂ (fun output line => outputLine t output = .ok line) r.outputs lines ∧
                  r.report.lines = r.entries t ++ lines ∧ r.report.code = 0) ∨
                ∃ before output behind lines fault, r.outputs = before ++ output :: behind ∧
                  List.Forall₂ (fun output line => outputLine t output = .ok line) before lines ∧
                  outputLine t output = .error fault ∧
                  r.report.lines = r.entries t ++ lines ∧ r.report.code = 2)) ∧
      (r.report.complaint ≠ [] ↔ r.report.code = 2) ∧
      ∀ more, r.report.written <+: (Request.report { r with outputs := r.outputs ++ more }).written ∧
        (r.report.code = 1 ∨ r.report.code = 2 →
          Request.report { r with outputs := r.outputs ++ more } = r.report) := by
  refine ⟨report_arguments r, ?bad_spec, ?good_spec, r.complaint_report_iff, ?more⟩
  case bad_spec =>
    intro fault hspec
    rw [Request.report_of_bad_spec hspec]
    exact ⟨rfl, rfl⟩
  case good_spec =>
    intro levels hspec
    refine ⟨?_, ?_, ?_⟩
    · intro fault hmatch
      rw [Request.report_of_bad_match hspec hmatch]
      exact ⟨rfl, rfl⟩
    · intro hmatch
      rw [Request.report_of_no_match hspec hmatch]
      exact ⟨rfl, by simp [Report.written]⟩
    · intro t hmatch
      have hlen : t.toList.length = levels.length := by rw [Trail.length_toList, Spec.depth_of_accept hmatch]
      refine ⟨hlen, Spec.keeps_of_accept hmatch, ?_⟩
      rw [Request.report_of_match hspec hmatch]
      obtain ⟨lines, hlines, hreport⟩ | ⟨before, output, behind, lines, fault, action, houtputs, hlines, hfault,
        hreport⟩ := reportOutputs_cases t r.outputs
      · rw [hreport]
        exact .inl ⟨lines, hlines, rfl, rfl⟩
      · rw [houtputs, hreport behind]
        refine .inr ⟨before, output, behind, lines, fault, rfl, hlines, hfault, ?_, rfl⟩
        rw [Report.lines_after, Report.lines_after, Report.failure, List.append_nil]
  case more =>
    intro more
    obtain ⟨hlines, hstop⟩ := r.report_append more
    refine ⟨Report.written_prefix_of_lines hlines, fun hcode => hstop ?_⟩
    obtain hcode | hcode := hcode <;> rw [hcode] <;> decide

end

open scoped Tabled

/-- The second output asks for a sub-key that is not there, so the third one is not looked at. -/
theorem report_by_stages_late :
    (Request.mk "a-b".toList "*-*".toList ["&(1)".toList, "&(3)".toList, "&(2)".toList] true).report =
      ⟨2, ["a-b: a, b".toList, ['a']],
        "Failed to render output key '&(3)': Sub-key 3 requested from 'a-b' which has 3 sub-key(s)\n".toList⟩ := by
  have hstop : (Request.mk "a-b".toList "*-*".toList ["&(1)".toList, "&(3)".toList] true).report =
      ⟨2, ["a-b: a, b".toList, ['a']],
        "Failed to render output key '&(3)': Sub-key 3 requested from 'a-b' which has 3 sub-key(s)\n".toList⟩ := by
    decide +kernel
  exact (((report_by_stages _).2.2.2.2 ["&(2)".toList]).2 (.inr (by rw [hstop]))).trans hstop

end KeyPath.CommandLine
