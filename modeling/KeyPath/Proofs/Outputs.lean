import KeyPath.Proofs.Nodes
import KeyPath.Proofs.Template.Rendering

/-!
Which outputs compile, and to what. An output without at-signs and stars is cut into segments once the full stops
at its end are gone. It is refused only for a branch that cannot be read, the first one of the first segment that
has one (`Spec.outcome_ofKeys_eq_error_iff_firstFlaw`), and otherwise it has one level for each segment. The levels
are written as the output is, less the full stops at its end, and no node of theirs is a glob or a marker
(`ofOutput_by_segments`).
-/
namespace KeyPath
set_option autoImplicit false

/-! ## Keys that are refused -/

theorem exists_ok_iff_forall_ne_error {α : Type} {x : Except Fault α} :
    (∃ a, x = .ok a) ↔ ∀ fault, x ≠ .error fault := by
  cases x <;> simp

/-- The first key that is refused gives the fault. -/
theorem Spec.outcome_ofKeys_eq_error_iff [Engine] {keys : List Text} {fault : Fault} :
    (ofKeys keys).outcome = .error fault ↔ ∃ before key behind, keys = before ++ key :: behind ∧
      (∀ k ∈ before, ∃ p, (Pattern.ofKey k).outcome = .ok p) ∧ (Pattern.ofKey key).outcome = .error fault := by
  constructor
  · intro h
    obtain ⟨ps, hps⟩ | ⟨before, key, behind, ps, found, rfl, hps, hkey⟩ :=
      exists_results_or_first_fault (fun key => (Pattern.ofKey key).outcome) keys
    · rw [outcome_ofKeys_of_forall₂ hps] at h
      cases h
    · obtain rfl := Except.error.inj ((outcome_ofKeys_of_first_fault hps hkey).symm.trans h)
      exact ⟨before, key, behind, rfl, exists_ofKeys_iff.mp ⟨ps, outcome_ofKeys_of_forall₂ hps⟩, hkey⟩
  · rintro ⟨before, key, behind, rfl, hbefore, hkey⟩
    obtain ⟨ps, hps⟩ := exists_ofKeys_iff.mpr hbefore
    exact outcome_ofKeys_of_first_fault (forall₂_of_ofKeys hps) hkey

theorem Spec.outcome_ofKeys_singleton [Engine] (key : Text) :
    (ofKeys [key]).outcome = (Pattern.ofKey key).outcome.map fun p => [p] := by
  rw [ofKeys, Logged.outcome_bind]
  cases (Pattern.ofKey key).outcome <;> rfl

/-- Where no signs are mixed, a key is refused as its branches are. -/
theorem Pattern.outcome_ofKey_eq_error_iff_branches [Engine] {key : Text} (hmix : key.mixesSigns = false)
    {fault : Fault} :
    (ofKey key).outcome = .error fault ↔ (Spec.ofKeys (key.splitOn '|')).outcome = .error fault := by
  by_cases hbar : '|' ∈ key
  · rw [outcome_ofKey_of_bar hbar hmix]
    cases (Spec.ofKeys (key.splitOn '|')).outcome <;> simp [Except.map]
  · rw [List.splitOn_eq_singleton hbar, Spec.outcome_ofKeys_singleton]
    cases (ofKey key).outcome <;> simp [Except.map]

/-! ## Branches that cannot be read -/

/-- Every branch of the key can be read. -/
def Text.Readable (key : Text) : Prop := ∀ branch ∈ key.splitOn '|', ∃ ps, Template.read branch = .ok ps

/-- The first branch of the key that cannot be read, and why. -/
def Text.FirstFlaw (key branch : Text) (flaw : Flaw) : Prop :=
  ∃ before behind, key.splitOn '|' = before ++ branch :: behind ∧ (∀ b ∈ before, ∃ ps, Template.read b = .ok ps) ∧
    Template.read branch = .error flaw

namespace Pattern
variable {key : Text}

theorem exists_ofKey_iff_read [Engine] (hbar : '|' ∉ key) (hstar : '*' ∉ key) :
    (∃ p, (ofKey key).outcome = .ok p) ↔ ∃ ps, Template.read key = .ok ps := by
  have hfault : ∀ fault, (ofKey key).outcome = .error fault ↔
      ∃ flaw, Template.read key = .error flaw ∧ fault = .malformed key flaw :=
    fun _ => outcome_ofKey_eq_error_iff hbar hstar
  simp only [exists_ok_iff_forall_ne_error, ne_eq, hfault]
  cases Template.read key <;> simp

theorem bar_star_not_mem_of_mem_splitOn (hstar : '*' ∉ key) {branch : Text} (hbranch : branch ∈ key.splitOn '|') :
    '|' ∉ branch ∧ '*' ∉ branch :=
  ⟨Text.not_mem_of_mem_splitOn hbranch, fun hc => hstar (Text.mem_of_mem_splitOn hbranch hc)⟩

theorem outcome_ofKey_eq_error_iff_firstFlaw [Engine] (hstar : '*' ∉ key) {fault : Fault} :
    (ofKey key).outcome = .error fault ↔ ∃ branch flaw, key.FirstFlaw branch flaw ∧ fault = .malformed branch flaw := by
  have hfree : ∀ b ∈ key.splitOn '|', '|' ∉ b ∧ '*' ∉ b := fun _ => bar_star_not_mem_of_mem_splitOn hstar
  rw [outcome_ofKey_eq_error_iff_branches (Text.mixesSigns_eq_false_of_star hstar), Spec.outcome_ofKeys_eq_error_iff]
  constructor
  · rintro ⟨before, branch, behind, hsplit, hbefore, hfault⟩
    rw [hsplit] at hfree
    obtain ⟨hbar, hstar⟩ := hfree branch (by simp)
    obtain ⟨flaw, hread, rfl⟩ := (outcome_ofKey_eq_error_iff hbar hstar).mp hfault
    refine ⟨branch, flaw, ⟨before, behind, hsplit, fun b hb => ?_, hread⟩, rfl⟩
    obtain ⟨hbar, hstar⟩ := hfree b (List.mem_append_left _ hb)
    exact (exists_ofKey_iff_read hbar hstar).mp (hbefore b hb)
  · rintro ⟨branch, flaw, ⟨before, behind, hsplit, hbefore, hread⟩, rfl⟩
    rw [hsplit] at hfree
    obtain ⟨hbar, hstar⟩ := hfree branch (by simp)
    refine ⟨before, branch, behind, hsplit, fun b hb => ?_, ?_⟩
    · obtain ⟨hbar, hstar⟩ := hfree b (List.mem_append_left _ hb)
      exact (exists_ofKey_iff_read hbar hstar).mpr (hbefore b hb)
    · exact (outcome_ofKey_eq_error_iff hbar hstar).mpr ⟨flaw, hread, rfl⟩

/-- Without stars a key compiles if and only if all its branches can be read. -/
theorem exists_ofKey_iff_readable [Engine] (hstar : '*' ∉ key) : (∃ p, (ofKey key).outcome = .ok p) ↔ key.Readable := by
  have hbranches : (∃ p, (ofKey key).outcome = .ok p) ↔ ∃ ps, (Spec.ofKeys (key.splitOn '|')).outcome = .ok ps := by
    simp only [exists_ok_iff_forall_ne_error, ne_eq,
      outcome_ofKey_eq_error_iff_branches (Text.mixesSigns_eq_false_of_star hstar)]
  rw [hbranches, Spec.exists_ofKeys_iff]
  refine forall₂_congr fun b hb => ?_
  obtain ⟨hbar, hstar⟩ := bar_star_not_mem_of_mem_splitOn hstar hb
  exact exists_ofKey_iff_read hbar hstar

end Pattern

/-- Keys without stars are refused for the first branch that cannot be read, of the first key that has one. -/
theorem Spec.outcome_ofKeys_eq_error_iff_firstFlaw [Engine] {keys : List Text} (hstar : ∀ key ∈ keys, '*' ∉ key)
    {fault : Fault} : (ofKeys keys).outcome = .error fault ↔ ∃ before key behind branch flaw,
      keys = before ++ key :: behind ∧ (∀ k ∈ before, k.Readable) ∧ key.FirstFlaw branch flaw ∧
        fault = .malformed branch flaw := by
  rw [outcome_ofKeys_eq_error_iff]
  constructor
  · rintro ⟨before, key, behind, rfl, hbefore, hfault⟩
    obtain ⟨branch, flaw, hflaw, rfl⟩ := (Pattern.outcome_ofKey_eq_error_iff_firstFlaw (hstar key (by simp))).mp hfault
    refine ⟨before, key, behind, branch, flaw, rfl, fun k hk => ?_, hflaw, rfl⟩
    exact (Pattern.exists_ofKey_iff_readable (hstar k (List.mem_append_left _ hk))).mp (hbefore k hk)
  · rintro ⟨before, key, behind, branch, flaw, rfl, hbefore, hflaw, rfl⟩
    refine ⟨before, key, behind, rfl, fun k hk => ?_, ?_⟩
    · exact (Pattern.exists_ofKey_iff_readable (hstar k (List.mem_append_left _ hk))).mpr (hbefore k hk)
    · exact (Pattern.outcome_ofKey_eq_error_iff_firstFlaw (hstar key (by simp))).mpr ⟨branch, flaw, hflaw, rfl⟩

/-! ## Outputs -/

namespace Spec
variable [Engine] {output : Text} {levels : Spec}

theorem ofOutput_of_sign (hsign : '@' ∈ output ∨ '*' ∈ output) :
    ofOutput output = Logged.fail (.inputSignInOutput output) := by
  rw [ofOutput, if_pos]
  rw [Bool.or_eq_true, List.contains_iff_mem, List.contains_iff_mem]
  exact hsign

/-- The full stops at the end make no difference, not even to the journal. -/
theorem ofOutput_rdropWhile (hat : '@' ∉ output) (hstar : '*' ∉ output) :
    ofOutput (output.rdropWhile (· == '.')) = ofOutput output := by
  have hsub : output.rdropWhile (· == '.') ⊆ output := (List.rdropWhile_prefix (· == '.') output).subset
  have hat' : '@' ∉ output.rdropWhile (· == '.') := fun hc => hat (hsub hc)
  have hstar' : '*' ∉ output.rdropWhile (· == '.') := fun hc => hstar (hsub hc)
  rw [ofOutput_of_no_sign hat' hstar', ofOutput_of_no_sign hat hstar, Text.properSegments_eq,
    Text.properSegments_eq, List.rdropWhile_idempotent]

/-- The levels are written as the keys that they are compiled from. -/
theorem map_key_of_forall₂ {keys : List Text}
    (h : List.Forall₂ (fun key p => (Pattern.ofKey key).outcome = .ok p) keys levels) :
    levels.map Pattern.key = keys := by
  induction h with
  | nil => rfl
  | cons hp _ ih => rw [List.map_cons, Pattern.key_of_ofKey hp, ih]

/-- No node of an output is a glob or a marker. -/
theorem kind_of_mem_nodes_of_ofOutput (h : (ofOutput output).outcome = .ok levels) {p q : Pattern} (hp : p ∈ levels)
    (hq : q ∈ p.nodes) : q.kind ≠ .glob ∧ q.kind ≠ .marker := by
  obtain ⟨⟨hat, hstar⟩, hcompiled⟩ := forall₂_of_ofOutput h
  obtain ⟨key, hkey, hpkey⟩ := exists_of_mem_forall₂ hcompiled hp
  have hsub : ∀ {c}, c ∉ output → c ∉ key := fun hc hmem => hc (Text.mem_of_mem_properSegments hkey hmem)
  obtain ⟨hglob, hmarker⟩ := Pattern.kind_of_mem_nodes hpkey hq
  exact ⟨hglob (hsub hstar), hmarker (hsub hat)⟩

end Spec

/-- An output with an at-sign or a star is refused for that, whatever else there is to it. Any other output
compiles as the segments of what is left of it without the full stops at its end, and as that text does. It is
refused only for a branch that cannot be read, the first one of the first segment that has one. Otherwise the
levels are written as the segments are, and put together again they are the text without the full stops at its end,
which compiles to the same levels. The last level is not empty, and no node of any level is a glob or a marker. -/
theorem ofOutput_by_segments [Engine] (output : Text) :
    let trimmed : Text := output.rdropWhile (· == '.')
    let segments : List Text := if trimmed = [] then [] else trimmed.segments
    ('@' ∈ output ∨ '*' ∈ output → Spec.ofOutput output = Logged.fail (.inputSignInOutput output)) ∧
      ('@' ∉ output → '*' ∉ output →
        Spec.ofOutput output = Spec.ofKeys segments ∧
        Spec.ofOutput output = Spec.ofOutput trimmed ∧
        (∀ fault, (Spec.ofOutput output).outcome = .error fault ↔ ∃ before segment behind branch flaw,
          segments = before ++ segment :: behind ∧ (∀ s ∈ before, s.Readable) ∧ segment.FirstFlaw branch flaw ∧
            fault = .malformed branch flaw) ∧
        ∀ levels, (Spec.ofOutput output).outcome = .ok levels →
          levels.map Pattern.key = segments ∧
          Text.dotted (levels.map Pattern.key) = trimmed ∧
          (∀ p, levels.getLast? = some p → p.key ≠ []) ∧
          (∀ p ∈ levels, ∀ q ∈ p.nodes, q.kind ≠ .glob ∧ q.kind ≠ .marker) ∧
          (Spec.ofOutput (Text.dotted (levels.map Pattern.key))).outcome = .ok levels) := by
  intro trimmed segments
  have hsegments : output.properSegments = segments := Text.properSegments_eq output
  refine ⟨Spec.ofOutput_of_sign, fun hat hstar => ?_⟩
  have hkeys : Spec.ofOutput output = Spec.ofKeys segments :=
    (Spec.ofOutput_of_no_sign hat hstar).trans (congrArg Spec.ofKeys hsegments)
  have htrimmed : Spec.ofOutput trimmed = Spec.ofOutput output := Spec.ofOutput_rdropWhile hat hstar
  refine ⟨hkeys, htrimmed.symm, ?fault, fun levels hlevels => ?levels⟩
  case fault =>
    intro fault
    have hfree : ∀ s ∈ segments, '*' ∉ s := by
      intro s hs hmem
      rw [← hsegments] at hs
      exact hstar (Text.mem_of_mem_properSegments hs hmem)
    rw [hkeys, Spec.outcome_ofKeys_eq_error_iff_firstFlaw hfree]
  case levels =>
    have hwritten : levels.map Pattern.key = output.properSegments :=
      Spec.map_key_of_forall₂ (Spec.forall₂_of_ofOutput hlevels).2
    have hdotted : Text.dotted (levels.map Pattern.key) = trimmed := by
      rw [hwritten, Text.dotted_properSegments]
    refine ⟨hwritten.trans hsegments, hdotted, ?_, ?_, ?_⟩
    · intro p hp
      apply Text.getLast?_properSegments
      rw [← hwritten, List.getLast?_map, hp, Option.map_some]
    · exact fun p hp q hq => Spec.kind_of_mem_nodes_of_ofOutput hlevels hp hq
    · rw [hdotted, htrimmed, hlevels]

end KeyPath
