import KeyPath.Proofs.Compiled
import KeyPath.Proofs.Segments
import KeyPath.Regex.Tabled

/-!
Keys with bars. Such a key is cut at its bars and every branch compiled as a key of its own
(`Pattern.outcome_ofKey_of_bar`), after the key as a whole was asked for signs that do not go together. So
branches joined by bars compile to the choice of what they compile to, or fail as the first of them fails, and
a fault about mixed signs always names the whole key (`ofKey_of_joined_keys`).
-/
namespace KeyPath
set_option autoImplicit false

/-! ## Mixed signs -/

theorem Text.mixesSigns_iff {key : Text} : key.mixesSigns = true ↔ '*' ∈ key ∧ ('&' ∈ key ∨ '[' ∈ key) := by
  rw [mixesSigns, Bool.and_eq_true, List.contains_iff_mem, hasTemplateSign_iff]

/-- What is mixed in a branch is mixed in the whole key. -/
theorem Text.mixesSigns_intercalate {sep key : Text} {keys : List Text} (hkey : key ∈ keys)
    (h : key.mixesSigns = true) : Text.mixesSigns (sep.intercalate keys) = true := by
  obtain ⟨hstar, hsign⟩ := mixesSigns_iff.mp h
  exact mixesSigns_iff.mpr ⟨mem_intercalate hkey hstar, hsign.imp (mem_intercalate hkey) (mem_intercalate hkey)⟩

theorem Text.bar_mem_intercalate {keys : List Text} (hlen : 2 ≤ keys.length) : '|' ∈ ['|'].intercalate keys := by
  match keys, hlen with
  | k :: k' :: keys, _ =>
    rw [List.intercalate_cons_cons]
    simp

section
variable [Engine]

/-! ## Faults of a key without bars -/

/-- The fault names the key. -/
theorem Leaf.fault_of_ofKey {key : Text} {fault : Fault} (h : Leaf.ofKey key = .error fault) :
    (key.mixesSigns = true ∧ fault = .mixedSigns key) ∨
      key.mixesSigns = false ∧ ((∃ flaw, fault = .malformed key flaw) ∨ ∃ reason, fault = .refusedGlob key reason) := by
  unfold Leaf.ofKey at h
  cases hmix : key.mixesSigns with
  | true =>
    rw [hmix, if_pos rfl] at h
    exact .inl ⟨rfl, (Except.error.inj h).symm⟩
  | false =>
    refine .inr ⟨rfl, ?_⟩
    rw [hmix, if_neg Bool.false_ne_true] at h
    split at h
    · cases hread : Template.read key with
      | ok pieces =>
        rw [hread] at h
        cases h
      | error flaw =>
        rw [hread] at h
        exact .inl ⟨flaw, (Except.error.inj h).symm⟩
    · split at h
      · cases htaken : Engine.refusal? (Glob.ofKey key).regex with
        | none =>
          simp only [htaken] at h
          cases h
        | some reason =>
          simp only [htaken] at h
          exact .inr ⟨reason, (Except.error.inj h).symm⟩
      · split at h <;> cases h

namespace Pattern

theorem fault_of_ofKey_of_no_bar {key : Text} {fault : Fault} (hbar : '|' ∉ key)
    (h : (ofKey key).outcome = .error fault) : Leaf.ofKey key = .error fault := by
  rw [outcome_ofKey_of_no_bar hbar] at h
  match hl : Leaf.ofKey key, h with
  | .error fault', h => rw [← Except.error.inj h]

/-! ## Keys with bars -/

theorem ofKey_of_no_bar {key : Text} (hbar : '|' ∉ key) : ofKey key = branchOfKey key := by
  rw [ofKey, if_neg (by rwa [List.contains_iff_mem])]

/-- Branches are compiled as any other keys are, and leave the same entries. -/
theorem branchesOfKeys_eq_ofKeys {keys : List Text} (hbar : ∀ key ∈ keys, '|' ∉ key) :
    branchesOfKeys keys = Spec.ofKeys keys := by
  induction keys with
  | nil => rfl
  | cons key keys ih =>
    obtain ⟨hkey, hkeys⟩ := List.forall_mem_cons.mp hbar
    rw [branchesOfKeys, Spec.ofKeys, ofKey_of_no_bar hkey, ih hkeys]

theorem outcome_ofKey_of_mixesSigns {key : Text} (hmix : key.mixesSigns = true) :
    (ofKey key).outcome = .error (.mixedSigns key) := by
  by_cases hbar : '|' ∈ key
  · rw [ofKey, if_pos (by rwa [List.contains_iff_mem]), if_pos hmix]
    rfl
  · rw [outcome_ofKey_of_no_bar hbar, Leaf.ofKey, if_pos hmix]
    rfl

/-- The branches are compiled as a list of keys, and then the key makes its own entry. -/
theorem ofKey_of_bar {key : Text} (hbar : '|' ∈ key) (hmix : key.mixesSigns = false) :
    ofKey key = do
      let branches ← Spec.ofKeys (key.splitOn '|')
      Logged.note (.compiled key .choice)
      return choice branches := by
  have hbranches : branchesOfKeys (key.splitOn '|') = Spec.ofKeys (key.splitOn '|') :=
    branchesOfKeys_eq_ofKeys fun _ => Text.not_mem_of_mem_splitOn
  rw [ofKey, if_pos (by rwa [List.contains_iff_mem]), hmix, if_neg Bool.false_ne_true, hbranches]

theorem outcome_ofKey_of_bar {key : Text} (hbar : '|' ∈ key) (hmix : key.mixesSigns = false) :
    (ofKey key).outcome = (Spec.ofKeys (key.splitOn '|')).outcome.map choice := by
  rw [ofKey_of_bar hbar hmix, Logged.outcome_bind]
  cases (Spec.ofKeys (key.splitOn '|')).outcome <;> rfl

theorem outcome_ofKey_intercalate {keys : List Text} (hlen : 2 ≤ keys.length) (hbar : ∀ key ∈ keys, '|' ∉ key)
    (hmix : Text.mixesSigns (['|'].intercalate keys) = false) :
    (ofKey (['|'].intercalate keys)).outcome = (Spec.ofKeys keys).outcome.map choice := by
  have hne : keys ≠ [] := List.length_pos_iff.mp (Nat.lt_of_lt_of_le Nat.two_pos hlen)
  rw [outcome_ofKey_of_bar (Text.bar_mem_intercalate hlen) hmix, List.splitOn_intercalate '|' hbar hne]

theorem exists_branches_of_bar {key : Text} {p : Pattern} (hbar : '|' ∈ key) (h : (ofKey key).outcome = .ok p) :
    key.mixesSigns = false ∧ ∃ ps, p = choice ps ∧
      List.Forall₂ (fun key p => (ofKey key).outcome = .ok p) (key.splitOn '|') ps := by
  cases hmix : key.mixesSigns with
  | true =>
    rw [outcome_ofKey_of_mixesSigns hmix] at h
    cases h
  | false =>
    rw [outcome_ofKey_of_bar hbar hmix] at h
    match hps : (Spec.ofKeys (key.splitOn '|')).outcome, h with
    | .ok ps, h => exact ⟨rfl, ps, (Except.ok.inj h).symm, Spec.forall₂_of_ofKeys hps⟩

/-- Every leaf of a compiled key is the leaf of a key without bars. -/
theorem exists_key_of_mem_leaves {key : Text} {p : Pattern} (h : (ofKey key).outcome = .ok p) {l : Leaf}
    (hl : l ∈ p.leaves) : ∃ own, '|' ∉ own ∧ Leaf.OfKey own l := by
  by_cases hbar : '|' ∈ key
  · obtain ⟨-, ps, rfl, hps⟩ := exists_branches_of_bar hbar h
    rw [leaves, leavesAll_eq_flatMap, List.mem_flatMap] at hl
    obtain ⟨q, hq, hlq⟩ := hl
    obtain ⟨own, hown, hqown⟩ := exists_of_mem_forall₂ hps hq
    have hfree : '|' ∉ own := Text.not_mem_of_mem_splitOn hown
    obtain ⟨l', rfl, hl'⟩ := exists_leaf_of_no_bar hfree hqown
    obtain rfl := List.mem_singleton.mp hlq
    exact ⟨own, hfree, hl'⟩
  · obtain ⟨l', rfl, hl'⟩ := exists_leaf_of_no_bar hbar h
    obtain rfl := List.mem_singleton.mp hl
    exact ⟨key, hbar, hl'⟩

/-! ## The written form -/

end Pattern

theorem Leaf.OfKey.key_eq {key : Text} {l : Leaf} (h : Leaf.OfKey key l) : l.key = key := by
  cases h with
  | template _ _ _ => rfl
  | glob _ _ _ => exact Glob.key_ofKey key
  | marker _ _ _ => rfl
  | exact _ _ _ => rfl

namespace Pattern

theorem key_of_ofKey_of_no_bar {key : Text} {p : Pattern} (hbar : '|' ∉ key) (h : (ofKey key).outcome = .ok p) :
    p.key = key := by
  obtain ⟨l, rfl, hl⟩ := exists_leaf_of_no_bar hbar h
  exact hl.key_eq

theorem keys_of_forall₂ {keys : List Text} {ps : List Pattern} (hbar : ∀ key ∈ keys, '|' ∉ key)
    (h : List.Forall₂ (fun key p => (ofKey key).outcome = .ok p) keys ps) : Pattern.keys ps = keys := by
  induction h with
  | nil => rfl
  | @cons key p keys ps hp _ ih =>
    obtain ⟨hkey, hkeys⟩ := List.forall_mem_cons.mp hbar
    rw [Pattern.keys, key_of_ofKey_of_no_bar hkey hp, ih hkeys]

/-- The written form of a compiled key is the key. -/
theorem key_of_ofKey {key : Text} {p : Pattern} (h : (ofKey key).outcome = .ok p) : p.key = key := by
  by_cases hbar : '|' ∈ key
  · obtain ⟨-, ps, rfl, hps⟩ := exists_branches_of_bar hbar h
    rw [Pattern.key, keys_of_forall₂ (fun _ => Text.not_mem_of_mem_splitOn) hps, List.intercalate_splitOn]
  · exact key_of_ofKey_of_no_bar hbar h

/-! ## The first branch that fails -/

/-- Where the whole key does not mix signs, no branch does, so a branch fails for a reason of its own. -/
theorem fault_of_branch {keys : List Text} {key : Text} {fault : Fault} (hkey : key ∈ keys) (hbar : '|' ∉ key)
    (hmix : Text.mixesSigns (['|'].intercalate keys) = false) (h : (ofKey key).outcome = .error fault) :
    (∃ flaw, fault = .malformed key flaw) ∨ ∃ reason, fault = .refusedGlob key reason := by
  obtain ⟨hkeymix, -⟩ | ⟨-, hfault⟩ := Leaf.fault_of_ofKey (fault_of_ofKey_of_no_bar hbar h)
  · rw [Text.mixesSigns_intercalate hkey hkeymix] at hmix
    cases hmix
  · exact hfault

/-- All branches compile, and the key to their choice, or the key fails as the first branch that fails. -/
theorem ofKey_intercalate_cases {keys : List Text} (hlen : 2 ≤ keys.length) (hbar : ∀ key ∈ keys, '|' ∉ key)
    (hmix : Text.mixesSigns (['|'].intercalate keys) = false) :
    (∃ ps, List.Forall₂ (fun key p => (ofKey key).outcome = .ok p) keys ps ∧
        (ofKey (['|'].intercalate keys)).outcome = .ok (choice ps)) ∨
      ∃ before key behind ps fault, keys = before ++ key :: behind ∧
        List.Forall₂ (fun key p => (ofKey key).outcome = .ok p) before ps ∧
        (ofKey key).outcome = .error fault ∧ (ofKey (['|'].intercalate keys)).outcome = .error fault ∧
        ((∃ flaw, fault = .malformed key flaw) ∨ ∃ reason, fault = .refusedGlob key reason) := by
  rw [outcome_ofKey_intercalate hlen hbar hmix]
  obtain ⟨ps, hps⟩ | ⟨before, key, behind, ps, fault, rfl, hps, hkey⟩ :=
    exists_results_or_first_fault (fun key => (ofKey key).outcome) keys
  · refine .inl ⟨ps, hps, ?_⟩
    rw [Spec.outcome_ofKeys_of_forall₂ hps]
    rfl
  · have hmem : key ∈ before ++ key :: behind := List.mem_append_right before List.mem_cons_self
    refine .inr ⟨before, key, behind, ps, fault, rfl, hps, hkey, ?_, fault_of_branch hmem (hbar key hmem) hmix hkey⟩
    rw [Spec.outcome_ofKeys_of_first_fault hps hkey]
    rfl

/-- A fault about mixed signs is about the key as a whole. -/
theorem outcome_ofKey_eq_mixedSigns_iff {key whole : Text} :
    (ofKey key).outcome = .error (.mixedSigns whole) ↔ whole = key ∧ key.mixesSigns = true := by
  constructor
  · intro h
    cases hmix : key.mixesSigns with
    | true =>
      rw [outcome_ofKey_of_mixesSigns hmix] at h
      cases h
      exact ⟨rfl, rfl⟩
    | false =>
      by_cases hbar : '|' ∈ key
      · have hjoin : ['|'].intercalate (key.splitOn '|') = key := List.intercalate_splitOn '|'
        rw [← hjoin] at h hmix
        obtain ⟨ps, -, hok⟩ | ⟨_, k, _, _, fault, -, -, -, herror, hfault⟩ := ofKey_intercalate_cases
          (Text.two_le_length_splitOn hbar) (fun _ => Text.not_mem_of_mem_splitOn) hmix
        · rw [hok] at h
          cases h
        · rw [herror] at h
          obtain ⟨flaw, rfl⟩ | ⟨reason, rfl⟩ := hfault <;> cases h
      · obtain ⟨hkeymix, -⟩ | ⟨-, hfault⟩ := Leaf.fault_of_ofKey (fault_of_ofKey_of_no_bar hbar h)
        · rw [hmix] at hkeymix
          cases hkeymix
        · obtain ⟨flaw, hflaw⟩ | ⟨reason, hrefused⟩ := hfault
          · cases hflaw
          · cases hrefused
  · rintro ⟨rfl, hmix⟩
    exact outcome_ofKey_of_mixesSigns hmix

end Pattern

/-- Two or more keys without bars, joined by bars. If a star and a sign of a template stand anywhere in the
joined key, it is refused as a whole. Otherwise it compiles to the choice of what its branches compile to, with
the joined key as the written form, or it fails as the first branch that fails, for a reason that names that
branch. No key at all is refused for mixed signs under another name than its own. -/
theorem ofKey_of_joined_keys {keys : List Text} (hlen : 2 ≤ keys.length) (hbar : ∀ key ∈ keys, '|' ∉ key) :
    let joined : Text := ['|'].intercalate keys
    ('*' ∈ joined ∧ ('&' ∈ joined ∨ '[' ∈ joined) → (Pattern.ofKey joined).outcome = .error (.mixedSigns joined)) ∧
      (¬ ('*' ∈ joined ∧ ('&' ∈ joined ∨ '[' ∈ joined)) →
        (∃ ps, List.Forall₂ (fun key p => (Pattern.ofKey key).outcome = .ok p) keys ps ∧
            (Pattern.ofKey joined).outcome = .ok (.choice ps) ∧ (Pattern.choice ps).key = joined) ∨
          ∃ before key behind ps fault, keys = before ++ key :: behind ∧
            List.Forall₂ (fun key p => (Pattern.ofKey key).outcome = .ok p) before ps ∧
            (Pattern.ofKey key).outcome = .error fault ∧ (Pattern.ofKey joined).outcome = .error fault ∧
            ((∃ flaw, fault = .malformed key flaw) ∨ ∃ reason, fault = .refusedGlob key reason)) ∧
      ∀ key whole, (Pattern.ofKey key).outcome = .error (.mixedSigns whole) ↔
        whole = key ∧ '*' ∈ key ∧ ('&' ∈ key ∨ '[' ∈ key) := by
  intro joined
  simp only [← Text.mixesSigns_iff, Bool.not_eq_true]
  refine ⟨Pattern.outcome_ofKey_of_mixesSigns, ?_, fun key whole => Pattern.outcome_ofKey_eq_mixedSigns_iff⟩
  intro hmix
  refine (Pattern.ofKey_intercalate_cases hlen hbar hmix).imp_left ?_
  rintro ⟨ps, hps, hjoined⟩
  exact ⟨ps, hps, hjoined, Pattern.key_of_ofKey hjoined⟩

end

open scoped Tabled

/-- A star and a bracket in two branches are refused as one key; without the star the later branch is refused. -/
theorem ofKey_of_joined_keys_pair :
    (Pattern.ofKey "a*|&(".toList).outcome = .error (.mixedSigns "a*|&(".toList) ∧
      (Pattern.ofKey "a|&(".toList).outcome = .error (.malformed "&(".toList .badReference) := by
  have hbar : ∀ key ∈ ["a*".toList, "&(".toList], '|' ∉ key := by decide
  have hbar' : ∀ key ∈ [['a'], "&(".toList], '|' ∉ key := by decide
  refine ⟨(ofKey_of_joined_keys (by decide) hbar).1 (by decide), ?_⟩
  have hread : Template.read "&(".toList = .error .badReference := by decide +kernel
  have hsecond : (Pattern.ofKey "&(".toList).outcome = .error (.malformed "&(".toList .badReference) := by
    rw [Pattern.outcome_ofKey_of_no_bar (by decide), Leaf.ofKey_template rfl (by decide), hread]
    rfl
  obtain ⟨ps, hps, -⟩ | ⟨before, key, behind, ps, fault, hkeys, -, hkey, hjoined, -⟩ :=
    (ofKey_of_joined_keys (by decide) hbar').2.1 (by decide)
  · obtain _ | ⟨-, _ | ⟨hp, -⟩⟩ := hps
    rw [hsecond] at hp
    cases hp
  · have hmem : key ∈ [['a'], "&(".toList] := by
      rw [hkeys]
      exact List.mem_append_right before List.mem_cons_self
    obtain rfl | rfl := List.mem_pair.mp hmem
    · cases hkey
    · exact hjoined.trans (hkey.symm.trans hsecond)

end KeyPath
