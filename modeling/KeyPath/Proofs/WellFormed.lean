import KeyPath.Proofs.Choice
import KeyPath.Proofs.Decision
import KeyPath.Proofs.Glob.Captures
import KeyPath.Proofs.Template.Writing

/-!
Well-formed patterns. Each kind of leaf has the sign that makes it and none of the signs that would have made
another kind of it; a glob captures as many texts as it has stars, and a template has a piece that is no text.
A choice has two branches or more, none of them a choice, and never a glob beside a template. Every compiled
key is well-formed and has the key as its written form (`compiled_key_is_wellFormed`).
-/
namespace KeyPath
set_option autoImplicit false

/-! ## What is asked of a pattern -/

/-- None of the signs stands in the key. -/
def Text.Lacks (key : Text) (signs : List Char) : Prop := ∀ c ∈ signs, c ∉ key

def Leaf.WellFormed [Engine] : Leaf → Prop
  | exact key groups => key.Lacks ['|', '&', '[', '*', '@'] ∧ groups = []
  | marker key => '@' ∈ key ∧ key.Lacks ['|', '&', '[', '*']
  | glob g =>
    '*' ∈ g.key ∧ g.key.Lacks ['|', '&', '['] ∧ g.stars = g.key.count '*' ∧
      ∀ (key : Text) (t : Trail) (m : Leaf), (Pattern.accept key t (.leaf (.glob g))).outcome = .ok (some m) →
        ∃ groups, m = .exact key groups ∧ groups.length = g.stars
  | template key pieces => ('&' ∈ key ∨ '[' ∈ key) ∧ key.Lacks ['|', '*'] ∧ ∃ q ∈ pieces, ∀ s, q ≠ .text s

/-- The branches of a choice are the compiled forms of their own keys. -/
inductive Pattern.WellFormed [Engine] : Pattern → Prop
  | leaf {l : Leaf} (hl : l.WellFormed) : WellFormed (.leaf l)
  | choice {ps : List Pattern} (hlen : 2 ≤ ps.length)
      (hbranch : ∀ p ∈ ps, (∃ l, p = .leaf l ∧ l.WellFormed) ∧ (Pattern.ofKey p.key).outcome = .ok p)
      (hkinds : ¬ ((∃ p ∈ ps, p.kind = .glob) ∧ ∃ p ∈ ps, p.kind = .template)) : WellFormed (.choice ps)

/-! ## Leaves -/

/-- A template that was read from a key with a sign is not all text. -/
theorem Template.exists_not_text_of_read {key : Text} {pieces : Template} (hsign : key.hasTemplateSign = true)
    (hread : Template.read key = .ok pieces) : ∃ q ∈ pieces, ∀ s, q ≠ .text s := by
  by_contra hnone
  push Not at hnone
  have hproper := (canonical_of_read hread).proper
  have hfree : ∀ c ∈ pieces.write, c ≠ '&' ∧ c ≠ '[' := by
    intro c hc
    obtain ⟨q, hq, hcq⟩ := List.mem_flatMap.mp hc
    obtain ⟨s, rfl⟩ := hnone q hq
    exact (hproper _ hq).2 c hcq
  obtain hamp | hopen := Text.hasTemplateSign_iff.mp (hasTemplateSign_write hsign hread)
  · exact (hfree '&' hamp).1 rfl
  · exact (hfree '[' hopen).2 rfl

theorem Leaf.OfKey.wellFormed [Engine] [Engine.LeftmostFirst] {key : Text} {l : Leaf} (h : Leaf.OfKey key l)
    (hbar : '|' ∉ key) : l.WellFormed := by
  have hlacks : key.hasTemplateSign = false → '&' ∉ key ∧ '[' ∉ key := fun hsign =>
    ⟨fun hc => (Text.not_sign_of_hasTemplateSign hsign _ hc).1 rfl,
      fun hc => (Text.not_sign_of_hasTemplateSign hsign _ hc).2 rfl⟩
  cases h with
  | template hsign hstar hread =>
    refine ⟨Text.hasTemplateSign_iff.mp hsign, ?_, Template.exists_not_text_of_read hsign hread⟩
    simp [Text.Lacks, hbar, hstar]
  | glob hsign hstar hsize =>
    obtain ⟨hamp, hopen⟩ := hlacks hsign
    rw [Leaf.WellFormed, Glob.key_ofKey]
    refine ⟨hstar, by simp [Text.Lacks, hbar, hamp, hopen], Glob.stars_ofKey key, ?_⟩
    intro real t m hm
    rw [Pattern.outcome_accept_leaf, Leaf.accept_eq_some_iff] at hm
    cases hm with
    | @glob _ cs hcs => exact ⟨cs, rfl, (Glob.fills_of_groups? hcs).1⟩
  | marker hsign hstar hat =>
    obtain ⟨hamp, hopen⟩ := hlacks hsign
    exact ⟨hat, by simp [Text.Lacks, hbar, hamp, hopen, hstar]⟩
  | exact hsign hstar hat =>
    obtain ⟨hamp, hopen⟩ := hlacks hsign
    exact ⟨by simp [Text.Lacks, hbar, hamp, hopen, hstar, hat], rfl⟩

/-! ## Choices -/

namespace Pattern
variable {key : Text} {ps : List Pattern}

theorem sign_mem_of_kind [Engine] {p : Pattern} (hbar : '|' ∉ key) (h : (ofKey key).outcome = .ok p)
    (hkind : p.kind = .template) : '&' ∈ key ∨ '[' ∈ key := by
  obtain ⟨l, rfl, hl⟩ := exists_leaf_of_no_bar hbar h
  cases hl with
  | template hsign _ _ => exact Text.hasTemplateSign_iff.mp hsign
  | glob _ _ _ => cases hkind
  | marker _ _ _ => cases hkind
  | exact _ _ _ => cases hkind

/-- A glob beside a template would have mixed the signs of the whole key. -/
theorem not_glob_and_template [Engine] (hmix : key.mixesSigns = false)
    (hps : List.Forall₂ (fun key p => (ofKey key).outcome = .ok p) (key.splitOn '|') ps) :
    ¬ ((∃ p ∈ ps, p.kind = .glob) ∧ ∃ p ∈ ps, p.kind = .template) := by
  rintro ⟨⟨p, hp, hglob⟩, q, hq, htemplate⟩
  obtain ⟨k, hk, hpk⟩ := exists_of_mem_forall₂ hps hp
  obtain ⟨j, hj, hqj⟩ := exists_of_mem_forall₂ hps hq
  have hstar : '*' ∈ key := Text.mem_of_mem_splitOn hk (glob_of_ofKey hpk hglob).1.2.2
  have hsign : '&' ∈ j ∨ '[' ∈ j := sign_mem_of_kind (Text.not_mem_of_mem_splitOn hj) hqj htemplate
  have hwhole : '&' ∈ key ∨ '[' ∈ key := hsign.imp (Text.mem_of_mem_splitOn hj) (Text.mem_of_mem_splitOn hj)
  rw [Text.mixesSigns_iff.mpr ⟨hstar, hwhole⟩] at hmix
  cases hmix

theorem wellFormed_choice [Engine] [Engine.LeftmostFirst] (hbar : '|' ∈ key) (hmix : key.mixesSigns = false)
    (hps : List.Forall₂ (fun key p => (ofKey key).outcome = .ok p) (key.splitOn '|') ps) :
    (choice ps).WellFormed := by
  refine .choice ?_ ?_ (not_glob_and_template hmix hps)
  · rw [← hps.length_eq]
    exact Text.two_le_length_splitOn hbar
  · intro p hp
    obtain ⟨k, hk, hpk⟩ := exists_of_mem_forall₂ hps hp
    have hfree : '|' ∉ k := Text.not_mem_of_mem_splitOn hk
    obtain ⟨l, rfl, hl⟩ := exists_leaf_of_no_bar hfree hpk
    rw [key_of_ofKey hpk]
    exact ⟨⟨l, rfl, hl.wellFormed hfree⟩, hpk⟩

end Pattern

/-- A compiled key is well-formed and has the key as its written form, which for a choice is the written forms
of the branches joined by bars. -/
theorem compiled_key_is_wellFormed [Engine] [Engine.LeftmostFirst] {key : Text} {p : Pattern}
    (h : (Pattern.ofKey key).outcome = .ok p) :
    p.key = key ∧ p.WellFormed ∧ ∀ ps, p = .choice ps → key = ['|'].intercalate (ps.map Pattern.key) := by
  have hkey := Pattern.key_of_ofKey h
  refine ⟨hkey, ?_, ?_⟩
  · by_cases hbar : '|' ∈ key
    · obtain ⟨hmix, ps, rfl, hps⟩ := Pattern.exists_branches_of_bar hbar h
      exact Pattern.wellFormed_choice hbar hmix hps
    · obtain ⟨l, rfl, hl⟩ := Pattern.exists_leaf_of_no_bar hbar h
      exact .leaf (hl.wellFormed hbar)
  · rintro ps rfl
    rw [← hkey, Pattern.key, Pattern.keys_eq_map]

open scoped Tabled

/-- A glob whose text between the stars is an at-sign, beside a marker. -/
theorem compiled_key_is_wellFormed_pair :
    (Pattern.ofKey "*@*|@".toList).outcome =
        .ok (.choice [.leaf (.glob ⟨[], [['@'], []]⟩), .leaf (.marker ['@'])]) ∧
      Pattern.WellFormed (.choice [.leaf (.glob ⟨[], [['@'], []]⟩), .leaf (.marker ['@'])]) := by
  have hkey : (Pattern.ofKey "*@*|@".toList).outcome =
      .ok (.choice [.leaf (.glob ⟨[], [['@'], []]⟩), .leaf (.marker ['@'])]) := rfl
  exact ⟨hkey, (compiled_key_is_wellFormed hkey).2.1⟩

end KeyPath
