import KeyPath.Spec
import Mathlib.Data.List.Forall2

/-!
What the compiled keys look like. `Leaf.OfKey` lists the four ways in which a key without bars becomes a
leaf, each with the signs it has and has not; a key without bars compiles to that leaf, and a spec to one
pattern for each key.
-/
namespace KeyPath
set_option autoImplicit false

/-! ## Leaves -/

/-- The leaves that come from a key, with what is asked of the key. -/
inductive Leaf.OfKey [Engine] (key : Text) : Leaf → Prop
  | template {pieces : Template} (hsign : key.hasTemplateSign = true) (hstar : '*' ∉ key)
      (hread : Template.read key = .ok pieces) : OfKey key (.template key pieces)
  | glob (hsign : key.hasTemplateSign = false) (hstar : '*' ∈ key)
      (htaken : Engine.refusal? (Glob.ofKey key).regex = none) : OfKey key (.glob (Glob.ofKey key))
  | marker (hsign : key.hasTemplateSign = false) (hstar : '*' ∉ key) (hat : '@' ∈ key) :
      OfKey key (.marker key)
  | exact (hsign : key.hasTemplateSign = false) (hstar : '*' ∉ key) (hat : '@' ∉ key) :
      OfKey key (.exact key [])

theorem Text.hasTemplateSign_iff {key : Text} : key.hasTemplateSign = true ↔ '&' ∈ key ∨ '[' ∈ key := by
  rw [hasTemplateSign, Bool.or_eq_true, List.contains_iff_mem, List.contains_iff_mem]

theorem Text.not_sign_of_hasTemplateSign {key : Text} (hsign : key.hasTemplateSign = false) :
    ∀ c ∈ key, c ≠ '&' ∧ c ≠ '[' := by
  have hnone : ¬ ('&' ∈ key ∨ '[' ∈ key) := by
    rw [← hasTemplateSign_iff, hsign]
    exact Bool.false_ne_true
  intro c hc
  constructor
  · rintro rfl
    exact hnone (.inl hc)
  · rintro rfl
    exact hnone (.inr hc)

theorem Text.mixesSigns_eq_false_of_star {key : Text} (hstar : '*' ∉ key) : key.mixesSigns = false := by
  rw [mixesSigns, Bool.and_eq_false_iff]
  left
  rw [Bool.eq_false_iff, ne_eq, List.contains_iff_mem]
  exact hstar

theorem Text.mixesSigns_eq_false_of_sign {key : Text} (hsign : key.hasTemplateSign = false) :
    key.mixesSigns = false := by
  rw [mixesSigns, hsign, Bool.and_false]

theorem Text.star_not_mem_of_template {key : Text} (hmix : key.mixesSigns = false)
    (hsign : key.hasTemplateSign = true) : '*' ∉ key := by
  rw [mixesSigns, hsign, Bool.and_true] at hmix
  intro hstar
  rw [List.contains_iff_mem.mpr hstar] at hmix
  cases hmix

theorem Leaf.ofKey_template [Engine] {key : Text} (hsign : key.hasTemplateSign = true) (hstar : '*' ∉ key) :
    Leaf.ofKey key = match Template.read key with
      | .ok pieces => .ok (.template key pieces)
      | .error flaw => .error (.malformed key flaw) := by
  rw [Leaf.ofKey, Text.mixesSigns_eq_false_of_star hstar, hsign]
  rfl

theorem Leaf.ofKey_eq_ok_iff [Engine] {key : Text} {l : Leaf} : Leaf.ofKey key = .ok l ↔ Leaf.OfKey key l := by
  constructor
  · intro h
    unfold Leaf.ofKey at h
    cases hmix : key.mixesSigns with
    | true => rw [hmix, if_pos rfl] at h; cases h
    | false =>
      rw [hmix, if_neg Bool.false_ne_true] at h
      cases hsign : key.hasTemplateSign with
      | true =>
        rw [hsign, if_pos rfl] at h
        cases hread : Template.read key with
        | error flaw => rw [hread] at h; cases h
        | ok pieces =>
          rw [hread] at h
          cases h
          exact .template hsign (Text.star_not_mem_of_template hmix hsign) hread
      | false =>
        rw [hsign, if_neg Bool.false_ne_true] at h
        simp only [List.contains_iff_mem] at h
        by_cases hstar : '*' ∈ key
        · rw [if_pos hstar] at h
          cases htaken : Engine.refusal? (Glob.ofKey key).regex with
          | none =>
            simp only [htaken] at h
            cases h
            exact .glob hsign hstar htaken
          | some reason =>
            simp only [htaken] at h
            cases h
        · rw [if_neg hstar] at h
          by_cases hat : '@' ∈ key
          · rw [if_pos hat] at h
            cases h
            exact .marker hsign hstar hat
          · rw [if_neg hat] at h
            cases h
            exact .exact hsign hstar hat
  · intro h
    cases h with
    | template hsign hstar hread => rw [Leaf.ofKey_template hsign hstar, hread]
    | glob hsign hstar htaken =>
      rw [Leaf.ofKey, Text.mixesSigns_eq_false_of_sign hsign, hsign]
      simp [hstar, htaken]
    | marker hsign hstar hat =>
      rw [Leaf.ofKey, Text.mixesSigns_eq_false_of_sign hsign, hsign]
      simp [hstar, hat]
    | exact hsign hstar hat =>
      rw [Leaf.ofKey, Text.mixesSigns_eq_false_of_sign hsign, hsign]
      simp [hstar, hat]

/-! ## Patterns -/

namespace Pattern

/-- An exact key without captures, or a template: the patterns that match the one key that they render to. -/
def Plain (p : Pattern) : Prop :=
  (∃ key, p = leaf (.exact key [])) ∨ ∃ key pieces, p = leaf (.template key pieces)

theorem Plain.kind_ne {p : Pattern} (hp : p.Plain) : p.kind ≠ .glob ∧ p.kind ≠ .marker := by
  obtain ⟨own, rfl⟩ | ⟨own, pieces, rfl⟩ := hp <;> simp [kind, Leaf.kind]

variable [Engine]

theorem outcome_branchOfKey (key : Text) : (branchOfKey key).outcome = (Leaf.ofKey key).map Pattern.leaf := by
  rw [branchOfKey, Logged.outcome_bind, Logged.outcome_ofExcept]
  cases Leaf.ofKey key <;> rfl

theorem outcome_ofKey_of_no_bar {key : Text} (hbar : '|' ∉ key) :
    (ofKey key).outcome = (Leaf.ofKey key).map Pattern.leaf := by
  rw [ofKey, if_neg (by rwa [List.contains_iff_mem]), outcome_branchOfKey]

theorem outcome_ofKey_template {key : Text} {pieces : Template} (hsign : key.hasTemplateSign = true)
    (hbar : '|' ∉ key) (hstar : '*' ∉ key) (hread : Template.read key = .ok pieces) :
    (ofKey key).outcome = .ok (.leaf (.template key pieces)) := by
  rw [outcome_ofKey_of_no_bar hbar, Leaf.ofKey_template hsign hstar, hread]
  rfl

theorem exists_choice_of_bar {key : Text} {p : Pattern} (hbar : '|' ∈ key) (h : (ofKey key).outcome = .ok p) :
    ∃ branches, p = choice branches := by
  rw [ofKey, if_pos (by rwa [List.contains_iff_mem])] at h
  cases hmix : key.mixesSigns with
  | true => rw [hmix, if_pos rfl] at h; cases h
  | false =>
    rw [hmix, if_neg Bool.false_ne_true, Logged.outcome_bind] at h
    match hbranches : (branchesOfKeys (key.splitOn '|')).outcome, h with
    | .ok branches, h => exact ⟨branches, (Except.ok.inj h).symm⟩

theorem exists_leaf_of_no_bar {key : Text} {p : Pattern} (hbar : '|' ∉ key) (h : (ofKey key).outcome = .ok p) :
    ∃ l, p = leaf l ∧ Leaf.OfKey key l := by
  rw [outcome_ofKey_of_no_bar hbar] at h
  match hl : Leaf.ofKey key, h with
  | .ok l, h => exact ⟨l, (Except.ok.inj h).symm, Leaf.ofKey_eq_ok_iff.mp hl⟩

/-- A key that compiles to a glob has stars, no other sign of a pattern, and an expression that the engine takes. -/
theorem glob_of_ofKey {key : Text} {p : Pattern} (h : (ofKey key).outcome = .ok p) (hkind : p.kind = .glob) :
    ('|' ∉ key ∧ key.hasTemplateSign = false ∧ '*' ∈ key) ∧ Engine.refusal? (Glob.ofKey key).regex = none ∧
      p = leaf (.glob (Glob.ofKey key)) := by
  by_cases hbar : '|' ∈ key
  · obtain ⟨branches, rfl⟩ := exists_choice_of_bar hbar h
    cases hkind
  · obtain ⟨l, rfl, hl⟩ := exists_leaf_of_no_bar hbar h
    cases hl with
    | glob hsign hstar htaken => exact ⟨⟨hbar, hsign, hstar⟩, htaken, rfl⟩
    | template _ _ _ => cases hkind
    | marker _ _ _ => cases hkind
    | exact _ _ _ => cases hkind

theorem eq_glob_of_ofKey {key : Text} {p : Pattern} (h : (ofKey key).outcome = .ok p) (hkind : p.kind = .glob) :
    p = leaf (.glob (Glob.ofKey key)) :=
  (glob_of_ofKey h hkind).2.2

end Pattern

/-! ## Lists element by element -/

theorem exists_of_mem_forall₂ {α β : Type} {R : α → β → Prop} {xs : List α} {ys : List β}
    (h : List.Forall₂ R xs ys) {y : β} (hy : y ∈ ys) : ∃ x ∈ xs, R x y := by
  induction h with
  | nil => cases hy
  | @cons x z xs ys hz _ ih =>
    obtain rfl | hy := List.mem_cons.mp hy
    · exact ⟨x, List.mem_cons_self, hz⟩
    · obtain ⟨x', hx', hy⟩ := ih hy
      exact ⟨x', List.mem_cons_of_mem x hx', hy⟩

/-- Every element has a result, or there is a first one that fails. -/
theorem exists_results_or_first_fault {α β : Type} (f : α → Except Fault β) (xs : List α) :
    (∃ ys, List.Forall₂ (fun x y => f x = .ok y) xs ys) ∨
      ∃ before x behind ys fault, xs = before ++ x :: behind ∧
        List.Forall₂ (fun x y => f x = .ok y) before ys ∧ f x = .error fault := by
  induction xs with
  | nil => exact .inl ⟨[], .nil⟩
  | cons x xs ih =>
    cases hx : f x with
    | error fault => exact .inr ⟨[], x, xs, [], fault, rfl, .nil, hx⟩
    | ok y =>
      obtain ⟨ys, hys⟩ | ⟨before, z, behind, ys, fault, rfl, hys, hz⟩ := ih
      · exact .inl ⟨y :: ys, .cons hx hys⟩
      · exact .inr ⟨x :: before, z, behind, y :: ys, fault, rfl, .cons hx hys, hz⟩

/-! ## Specs -/

namespace Spec

variable [Engine]

theorem forall₂_of_ofKeys {keys : List Text} {levels : Spec} (h : (ofKeys keys).outcome = .ok levels) :
    List.Forall₂ (fun key p => (Pattern.ofKey key).outcome = .ok p) keys levels := by
  induction keys generalizing levels with
  | nil =>
    obtain rfl : levels = [] := (Except.ok.inj h).symm
    exact .nil
  | cons key keys ih =>
    rw [ofKeys, Logged.outcome_bind] at h
    match hp : (Pattern.ofKey key).outcome, h with
    | .ok p, h =>
      change (ofKeys keys).outcome.map (p :: ·) = .ok levels at h
      match hps : (ofKeys keys).outcome, h with
      | .ok ps, h =>
        obtain rfl : levels = p :: ps := (Except.ok.inj h).symm
        exact .cons hp (ih hps)

theorem outcome_ofKeys_of_forall₂ {keys : List Text} {levels : Spec}
    (h : List.Forall₂ (fun key p => (Pattern.ofKey key).outcome = .ok p) keys levels) :
    (ofKeys keys).outcome = .ok levels := by
  induction h with
  | nil => rfl
  | @cons key p keys ps hp _ ih =>
    rw [ofKeys, Logged.outcome_bind, hp]
    change (ofKeys keys).outcome.map (p :: ·) = _
    rw [ih]
    rfl

/-- The first key that fails decides, whatever stands behind it. -/
theorem outcome_ofKeys_of_first_fault {before behind : List Text} {key : Text} {ps : Spec} {fault : Fault}
    (hbefore : List.Forall₂ (fun key p => (Pattern.ofKey key).outcome = .ok p) before ps)
    (h : (Pattern.ofKey key).outcome = .error fault) :
    (ofKeys (before ++ key :: behind)).outcome = .error fault := by
  induction hbefore with
  | nil =>
    rw [List.nil_append, ofKeys, Logged.outcome_bind, h]
    rfl
  | @cons k p before ps hp _ ih =>
    rw [List.cons_append, ofKeys, Logged.outcome_bind, hp]
    change (ofKeys (before ++ key :: behind)).outcome.map (p :: ·) = _
    rw [ih]
    rfl

theorem exists_ofKeys_iff {keys : List Text} :
    (∃ levels, (ofKeys keys).outcome = .ok levels) ↔ ∀ key ∈ keys, ∃ p, (Pattern.ofKey key).outcome = .ok p := by
  constructor
  · rintro ⟨levels, h⟩ key hkey
    obtain ⟨n, hn, rfl⟩ := List.mem_iff_getElem.mp hkey
    have hforall := forall₂_of_ofKeys h
    have hn' : n < levels.length := hforall.length_eq ▸ hn
    exact ⟨levels[n], hforall.get hn hn'⟩
  · intro h
    induction keys with
    | nil => exact ⟨[], rfl⟩
    | cons key keys ih =>
      obtain ⟨p, hp⟩ := h key List.mem_cons_self
      obtain ⟨ps, hps⟩ := ih fun key' hkey' => h key' (List.mem_cons_of_mem key hkey')
      exact ⟨p :: ps, outcome_ofKeys_of_forall₂ (.cons hp (forall₂_of_ofKeys hps))⟩

/-- Keys without bars compile to leaves. -/
theorem exists_leaf_of_ofKeys {keys : List Text} {levels : Spec} (hbar : ∀ key ∈ keys, '|' ∉ key)
    (h : (ofKeys keys).outcome = .ok levels) {p : Pattern} (hp : p ∈ levels) : ∃ l, p = .leaf l := by
  obtain ⟨key, hkey, hpkey⟩ := exists_of_mem_forall₂ (forall₂_of_ofKeys h) hp
  obtain ⟨l, hl, -⟩ := Pattern.exists_leaf_of_no_bar (hbar key hkey) hpkey
  exact ⟨l, hl⟩

/-- Keys without bars, stars and at-signs compile to plain patterns. -/
theorem exact_or_template_of_forall₂ {keys : List Text} {levels : Spec}
    (hfree : ∀ key ∈ keys, '|' ∉ key ∧ '*' ∉ key ∧ '@' ∉ key)
    (h : List.Forall₂ (fun key p => (Pattern.ofKey key).outcome = .ok p) keys levels) {p : Pattern}
    (hp : p ∈ levels) : p.Plain := by
  obtain ⟨key, hkey, hpkey⟩ := exists_of_mem_forall₂ h hp
  obtain ⟨hbar, hstar, hat⟩ := hfree key hkey
  obtain ⟨l, rfl, hl⟩ := Pattern.exists_leaf_of_no_bar hbar hpkey
  cases hl with
  | template _ _ _ => exact .inr ⟨_, _, rfl⟩
  | glob _ hstar' _ => exact absurd hstar' hstar
  | marker _ _ hat' => exact absurd hat' hat
  | exact _ _ _ => exact .inl ⟨_, rfl⟩

theorem ofOutput_of_no_sign {output : Text} (hat : '@' ∉ output) (hstar : '*' ∉ output) :
    ofOutput output = ofKeys output.properSegments := by
  unfold ofOutput
  rw [if_neg]
  rw [Bool.or_eq_true, not_or, List.contains_iff_mem, List.contains_iff_mem]
  exact ⟨hat, hstar⟩

/-- An output compiles segment by segment, and has no sign that only an input can match. -/
theorem forall₂_of_ofOutput {output : Text} {levels : Spec} (h : (ofOutput output).outcome = .ok levels) :
    ('@' ∉ output ∧ '*' ∉ output) ∧
      List.Forall₂ (fun key p => (Pattern.ofKey key).outcome = .ok p) output.properSegments levels := by
  unfold ofOutput at h
  by_cases hsign : (output.contains '@' || output.contains '*') = true
  · rw [if_pos hsign] at h
    cases h
  · rw [if_neg hsign] at h
    rw [Bool.or_eq_true, not_or, List.contains_iff_mem, List.contains_iff_mem] at hsign
    exact ⟨hsign, forall₂_of_ofKeys h⟩

end Spec

/-! ## Outputs -/

theorem Text.mem_intercalate {sep s : Text} {ss : List Text} (hs : s ∈ ss) {c : Char} (hc : c ∈ s) :
    c ∈ sep.intercalate ss := by
  induction ss with
  | nil => cases hs
  | cons u ss ih =>
    cases ss with
    | nil =>
      obtain rfl := List.mem_singleton.mp hs
      rw [List.intercalate_singleton]
      exact hc
    | cons v ss =>
      rw [List.intercalate_cons_cons]
      rcases List.mem_cons.mp hs with rfl | hs
      · exact List.mem_append_left _ (List.mem_append_left _ hc)
      · exact List.mem_append_right _ (ih hs)

/-- The pieces of a key that is cut at a sign hold no text but its own. -/
theorem Text.mem_of_mem_splitOn {x : Char} {key s : Text} (hs : s ∈ key.splitOn x) {c : Char} (hc : c ∈ s) :
    c ∈ key := by
  have hjoined : [x].intercalate (key.splitOn x) = key := List.intercalate_splitOn x
  rw [← hjoined]
  exact mem_intercalate hs hc

theorem Text.mem_segments_of_mem_properSegments {path s : Text} (hs : s ∈ path.properSegments) :
    s ∈ path.segments := by
  unfold properSegments at hs
  exact List.mem_reverse.mp ((List.dropWhile_suffix List.isEmpty).subset (List.mem_reverse.mp hs))

theorem Text.mem_of_mem_properSegments {path s : Text} (hs : s ∈ path.properSegments) {c : Char} (hc : c ∈ s) :
    c ∈ path := by
  rw [← dotted_segments path]
  exact mem_intercalate (mem_segments_of_mem_properSegments hs) hc

theorem Spec.exact_or_template_of_ofOutput [Engine] {output : Text} {levels : Spec} (hbar : '|' ∉ output)
    (h : (ofOutput output).outcome = .ok levels) : ∀ p ∈ levels, p.Plain := by
  obtain ⟨⟨hat, hstar⟩, hcompiled⟩ := forall₂_of_ofOutput h
  have hseg : ∀ key ∈ output.properSegments, ∀ c, c ∉ output → c ∉ key :=
    fun key hkey c hc hmem => hc (Text.mem_of_mem_properSegments hkey hmem)
  intro p hp
  refine exact_or_template_of_forall₂ ?_ hcompiled hp
  exact fun key hkey => ⟨hseg key hkey '|' hbar, hseg key hkey '*' hstar, hseg key hkey '@' hat⟩

end KeyPath
