import KeyPath.Proofs.Outputs
import KeyPath.Regex.Tabled

/-!
What the journal of a compilation tells. A key without bars makes one entry if it compiles and none if it fails. A key
with bars has the entries of its branches in front of its own, and if it fails only those of the branches in front of
the one that fails, since mixed signs are found before any branch is looked at. A list of keys leaves the entries of
its keys one after the other, up to the first one that fails (`Spec.entries_ofKeys_of_first_fault`), and an output
leaves those of its segments without the empty ones at its end. All of this is put together in
`journal_of_compilation`.
-/
namespace KeyPath
set_option autoImplicit false

section
variable [Engine]

/-! ## Lists of keys -/

namespace Spec
variable {key : Text} {before : List Text}

theorem entries_ofKeys_cons_of_ok {p : Pattern} (h : (Pattern.ofKey key).outcome = .ok p) (keys : List Text) :
    (ofKeys (key :: keys)).entries = (Pattern.ofKey key).entries ++ (ofKeys keys).entries := by
  rw [ofKeys, Logged.entries_bind_ok h, Logged.entries_map]

theorem entries_ofKeys_cons_of_error {fault : Fault} (h : (Pattern.ofKey key).outcome = .error fault)
    (keys : List Text) : (ofKeys (key :: keys)).entries = (Pattern.ofKey key).entries := by
  rw [ofKeys, Logged.entries_bind_error h]

/-- Keys that compile leave their entries in front of those of the keys behind them. -/
theorem entries_ofKeys_append (h : ∀ k ∈ before, ∃ p, (Pattern.ofKey k).outcome = .ok p) (behind : List Text) :
    (ofKeys (before ++ behind)).entries =
      before.flatMap (fun k => (Pattern.ofKey k).entries) ++ (ofKeys behind).entries := by
  induction before with
  | nil => rfl
  | cons k before ih =>
    obtain ⟨⟨p, hp⟩, hbefore⟩ := List.forall_mem_cons.mp h
    rw [List.cons_append, entries_ofKeys_cons_of_ok hp, ih hbefore, List.flatMap_cons, List.append_assoc]

theorem entries_ofKeys_of_ok {keys : List Text} {levels : Spec} (h : (ofKeys keys).outcome = .ok levels) :
    (ofKeys keys).entries = keys.flatMap fun k => (Pattern.ofKey k).entries := by
  have happend := entries_ofKeys_append (exists_ofKeys_iff.mp ⟨levels, h⟩) []
  simpa [ofKeys] using happend

/-- The first key that fails leaves the last entries. -/
theorem entries_ofKeys_of_first_fault (hbefore : ∀ k ∈ before, ∃ p, (Pattern.ofKey k).outcome = .ok p)
    {fault : Fault} (hkey : (Pattern.ofKey key).outcome = .error fault) (behind : List Text) :
    (ofKeys (before ++ key :: behind)).entries =
      before.flatMap (fun k => (Pattern.ofKey k).entries) ++ (Pattern.ofKey key).entries := by
  rw [entries_ofKeys_append hbefore, entries_ofKeys_cons_of_error hkey]

end Spec

/-! ## Keys without bars -/

/-- The entries of keys that were compiled to patterns: each names the kind of its own pattern. -/
def compiledEntries (keys : List Text) (ps : List Pattern) : List Entry :=
  List.zipWith (fun key p => .compiled key p.kind) keys ps

namespace Pattern
variable {key : Text} {fault : Fault}

theorem entries_ofKey_of_no_bar {p : Pattern} (hbar : '|' ∉ key) (h : (ofKey key).outcome = .ok p) :
    (ofKey key).entries = [.compiled key p.kind] := by
  obtain ⟨l, rfl, hl⟩ := exists_leaf_of_no_bar hbar h
  have hleaf : (Logged.ofExcept (Leaf.ofKey key)).outcome = .ok l := Leaf.ofKey_eq_ok_iff.mpr hl
  rw [ofKey_of_no_bar hbar, branchOfKey, Logged.entries_bind_ok hleaf]
  rfl

theorem entries_ofKey_of_no_bar_of_error (hbar : '|' ∉ key) (h : (ofKey key).outcome = .error fault) :
    (ofKey key).entries = [] := by
  have hleaf : (Logged.ofExcept (Leaf.ofKey key)).outcome = .error fault := fault_of_ofKey_of_no_bar hbar h
  rw [ofKey_of_no_bar hbar, branchOfKey, Logged.entries_bind_error hleaf, Logged.entries_ofExcept]

theorem flatMap_entries_ofKey {keys : List Text} {ps : List Pattern} (hbar : ∀ k ∈ keys, '|' ∉ k)
    (h : List.Forall₂ (fun key p => (ofKey key).outcome = .ok p) keys ps) :
    keys.flatMap (fun k => (ofKey k).entries) = compiledEntries keys ps := by
  induction h with
  | nil => rfl
  | @cons k p keys ps hp _ ih =>
    obtain ⟨hk, hkeys⟩ := List.forall_mem_cons.mp hbar
    rw [List.flatMap_cons, entries_ofKey_of_no_bar hk hp, ih hkeys]
    rfl

/-! ## Keys with bars -/

theorem entries_ofKey_of_mixesSigns (hmix : key.mixesSigns = true) : (ofKey key).entries = [] := by
  by_cases hbar : '|' ∈ key
  · rw [ofKey, if_pos (List.contains_iff_mem.mpr hbar), if_pos hmix, Logged.entries_fail]
  · exact entries_ofKey_of_no_bar_of_error hbar (outcome_ofKey_of_mixesSigns hmix)

theorem entries_ofKey_of_bar {ps : List Pattern} (hbar : '|' ∈ key) (hmix : key.mixesSigns = false)
    (h : List.Forall₂ (fun key p => (ofKey key).outcome = .ok p) (key.splitOn '|') ps) :
    (ofKey key).entries = compiledEntries (key.splitOn '|') ps ++ [.compiled key .choice] := by
  have hps : (Spec.ofKeys (key.splitOn '|')).outcome = .ok ps := Spec.outcome_ofKeys_of_forall₂ h
  rw [ofKey_of_bar hbar hmix, Logged.entries_bind_ok hps, Spec.entries_ofKeys_of_ok hps,
    flatMap_entries_ofKey (fun _ => Text.not_mem_of_mem_splitOn) h]
  rfl

/-- A key that fails at a branch has the entries of its branches and none of its own. -/
theorem entries_ofKey_of_error (hmix : key.mixesSigns = false) (h : (ofKey key).outcome = .error fault) :
    (ofKey key).entries = (Spec.ofKeys (key.splitOn '|')).entries := by
  by_cases hbar : '|' ∈ key
  · have hbranches := (outcome_ofKey_eq_error_iff_branches hmix).mp h
    rw [ofKey_of_bar hbar hmix, Logged.entries_bind_error hbranches]
  · rw [List.splitOn_eq_singleton hbar, Spec.entries_ofKeys_cons_of_error h]

/-- A key compiles with all its branches, which make their entries first. -/
theorem exists_branches_of_ofKey {p : Pattern} (h : (ofKey key).outcome = .ok p) :
    ∃ ps, List.Forall₂ (fun key p => (ofKey key).outcome = .ok p) (key.splitOn '|') ps ∧
      (2 ≤ (key.splitOn '|').length → p = choice ps) ∧
      (ofKey key).entries = (if 2 ≤ (key.splitOn '|').length then compiledEntries (key.splitOn '|') ps else []) ++
        [.compiled key p.kind] := by
  by_cases hbar : '|' ∈ key
  · obtain ⟨hmix, ps, rfl, hps⟩ := exists_branches_of_bar hbar h
    refine ⟨ps, hps, fun _ => rfl, ?_⟩
    rw [if_pos (Text.two_le_length_splitOn hbar)]
    exact entries_ofKey_of_bar hbar hmix hps
  · rw [List.splitOn_eq_singleton hbar, entries_ofKey_of_no_bar hbar h]
    exact ⟨[p], .cons h .nil, by simp, by simp⟩

/-- A key fails at the first branch that fails, behind branches that made their entries. -/
theorem exists_branches_of_error (hmix : key.mixesSigns = false) (h : (ofKey key).outcome = .error fault) :
    ∃ before branch behind ps, key.splitOn '|' = before ++ branch :: behind ∧
      List.Forall₂ (fun key p => (ofKey key).outcome = .ok p) before ps ∧
      (ofKey branch).outcome = .error fault ∧ (ofKey key).entries = compiledEntries before ps := by
  have hbranches := (outcome_ofKey_eq_error_iff_branches hmix).mp h
  obtain ⟨before, branch, behind, hsplit, hbefore, hbranch⟩ := Spec.outcome_ofKeys_eq_error_iff.mp hbranches
  have hbar : ∀ b ∈ before ++ branch :: behind, '|' ∉ b := hsplit ▸ fun _ => Text.not_mem_of_mem_splitOn
  obtain ⟨ps, hps⟩ := Spec.exists_ofKeys_iff.mpr hbefore
  have hcompiled := Spec.forall₂_of_ofKeys hps
  refine ⟨before, branch, behind, ps, hsplit, hcompiled, hbranch, ?_⟩
  -- The branch that fails has no bar, so it has no branches of its own that could have left an entry.
  rw [entries_ofKey_of_error hmix h, hsplit, Spec.entries_ofKeys_of_first_fault hbefore hbranch,
    flatMap_entries_ofKey (fun b hb => hbar b (List.mem_append_left _ hb)) hcompiled,
    entries_ofKey_of_no_bar_of_error (hbar branch (by simp)) hbranch, List.append_nil]

end Pattern

/-! ## Journals -/

/-- The journal of a compilation names the keys that compiled, each with the kind of its pattern, and a key with bars
behind its branches. A key with mixed signs makes no entry. A key that fails otherwise does so as its first branch that
fails, and has the entries of the branches in front of that one and no others. A list of keys has the entries of its
keys one after the other; those of the first key that fails are the last ones. An output that is refused for its signs
makes no entry, and any other one has the entries of its segments without the empty ones at its end. -/
theorem journal_of_compilation (key : Text) (keys : List Text) (output : Text) :
    let branches := key.splitOn '|'
    ((∀ p, (Pattern.ofKey key).outcome = .ok p → ∃ ps,
        List.Forall₂ (fun branch q => (Pattern.ofKey branch).outcome = .ok q) branches ps ∧
        (2 ≤ branches.length → p = .choice ps) ∧
        (Pattern.ofKey key).entries =
          (if 2 ≤ branches.length then compiledEntries branches ps else []) ++ [.compiled key p.kind]) ∧
      (∀ whole, (Pattern.ofKey key).outcome = .error (.mixedSigns whole) → (Pattern.ofKey key).entries = []) ∧
      ∀ fault, (Pattern.ofKey key).outcome = .error fault → fault ≠ .mixedSigns key →
        ∃ before branch behind ps, branches = before ++ branch :: behind ∧
          List.Forall₂ (fun branch q => (Pattern.ofKey branch).outcome = .ok q) before ps ∧
          (Pattern.ofKey branch).outcome = .error fault ∧
          (Pattern.ofKey key).entries = compiledEntries before ps) ∧
    ((∀ levels, (Spec.ofKeys keys).outcome = .ok levels →
        (Spec.ofKeys keys).entries = keys.flatMap fun k => (Pattern.ofKey k).entries) ∧
      ∀ fault, (Spec.ofKeys keys).outcome = .error fault → ∃ before k behind, keys = before ++ k :: behind ∧
        (∀ j ∈ before, ∃ p, (Pattern.ofKey j).outcome = .ok p) ∧ (Pattern.ofKey k).outcome = .error fault ∧
        (Spec.ofKeys keys).entries = (before ++ [k]).flatMap fun j => (Pattern.ofKey j).entries) ∧
    ('@' ∈ output ∨ '*' ∈ output → (Spec.ofOutput output).entries = []) ∧
    ('@' ∉ output → '*' ∉ output → ∃ kept dropped, output.segments = kept ++ List.replicate dropped [] ∧
      (∀ s, kept.getLast? = some s → s ≠ []) ∧ (Spec.ofOutput output).entries = (Spec.ofKeys kept).entries) := by
  intro branches
  refine ⟨⟨fun p hp => Pattern.exists_branches_of_ofKey hp, ?mixed, ?failed⟩, ⟨fun levels hlevels => ?all, ?first⟩,
    fun hsign => ?refused, fun hat hstar => ?kept⟩
  case mixed =>
    intro whole h
    obtain ⟨-, hmix⟩ := Pattern.outcome_ofKey_eq_mixedSigns_iff.mp h
    exact Pattern.entries_ofKey_of_mixesSigns hmix
  case failed =>
    intro fault h hother
    have hmix : key.mixesSigns = false := by
      rw [Bool.eq_false_iff]
      intro hmix
      rw [Pattern.outcome_ofKey_of_mixesSigns hmix] at h
      exact hother (Except.error.inj h).symm
    exact Pattern.exists_branches_of_error hmix h
  case all => exact Spec.entries_ofKeys_of_ok hlevels
  case first =>
    intro fault h
    obtain ⟨before, k, behind, rfl, hbefore, hk⟩ := Spec.outcome_ofKeys_eq_error_iff.mp h
    refine ⟨before, k, behind, rfl, hbefore, hk, ?_⟩
    rw [Spec.entries_ofKeys_of_first_fault hbefore hk, List.flatMap_append, List.flatMap_singleton]
  case refused => rw [Spec.ofOutput_of_sign hsign, Logged.entries_fail]
  case kept =>
    obtain ⟨dropped, hdropped⟩ := Text.exists_segments_eq_properSegments_append output
    refine ⟨output.properSegments, dropped, hdropped, fun s => Text.getLast?_properSegments, ?_⟩
    rw [Spec.ofOutput_of_no_sign hat hstar]

end

open scoped Tabled

/-- The second key mixes signs though none of its branches does, so it makes no entry, and the third is not reached. -/
example : (Spec.ofKeys ["a|*".toList, "*|[0]".toList, ['c']]).entries =
    [.compiled ['a'] .exact, .compiled ['*'] .glob, .compiled "a|*".toList .choice] := rfl

end KeyPath
