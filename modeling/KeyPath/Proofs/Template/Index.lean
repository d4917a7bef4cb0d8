import KeyPath.Proofs.Template.Resolution
import KeyPath.Proofs.Template.Writing
import KeyPath.Regex.Tabled

/-!
Indices in brackets. An index is written into the key, or it is read from a sub-key. Both are rendered as the
decimal of the number (`Numeral.decimal_iff`), whatever zeros it was given with, and both take the same texts but
for one: a sub-key may have a plus sign in front (`captured_index_agrees_with_written`).
-/
namespace KeyPath
set_option autoImplicit false

/-! ## Decimals -/

namespace Numeral

/-- The numeral of a number that has no zero in front. -/
def Decimal (s : Text) (n : Nat) : Prop := Denotes s n ∧ (s.head? = some '0' → s = ['0'])

theorem toNat_of_isDigit {c : Char} (hc : c.isDigit = true) : 48 ≤ c.toNat ∧ c.toNat - 48 < 10 := by
  have hrange : 48 ≤ c.toNat ∧ c.toNat ≤ 57 := Char.isDigit_iff_toNat.mp hc
  omega

theorem digitChar_of_isDigit {c : Char} (hc : c.isDigit = true) : Nat.digitChar (c.toNat - 48) = c := by
  obtain ⟨hlow, hlt⟩ := toNat_of_isDigit hc
  apply Char.toNat_inj.mp
  rw [Nat.toNat_digitChar_of_lt_ten hlt]
  omega

theorem write_of_isDigit {c : Char} (hc : c.isDigit = true) : write (c.toNat - 48) = [c] := by
  rw [write, Nat.toDigits_of_lt_base (toNat_of_isDigit hc).2, digitChar_of_isDigit hc]

/-- More digits behind the decimal of a positive number make the decimal of the longer number. -/
theorem write_append {n : Nat} (hn : 0 < n) {s : Text} (hs : ∀ c ∈ s, c.isDigit = true) :
    write n ++ s = write (Nat.ofDigitChars 10 s n) := by
  induction s generalizing n with
  | nil => rw [List.append_nil, Nat.ofDigitChars_nil]
  | cons c s ih =>
    obtain ⟨hc, hs⟩ := List.forall_mem_cons.mp hs
    have hlt := (toNat_of_isDigit hc).2
    have hdigit : write n ++ [c] = write (10 * n + (c.toNat - 48)) := by
      rw [← write_of_isDigit hc, write, write, Nat.toDigits_append_toDigits (by decide) hn hlt, write]
    have hpos : 0 < 10 * n + (c.toNat - 48) := by omega
    rw [Nat.ofDigitChars_cons, List.append_cons, hdigit]
    exact ih hpos hs

theorem write_value {s : Text} (hne : s ≠ []) (hs : ∀ c ∈ s, c.isDigit = true)
    (hzero : s.head? = some '0' → s = ['0']) : write (value s) = s := by
  cases s with
  | nil => exact absurd rfl hne
  | cons c s =>
    obtain ⟨hc, hs⟩ := List.forall_mem_cons.mp hs
    by_cases hz : c = '0'
    · rw [hzero (congrArg some hz)]
      rfl
    · have hpos : 0 < c.toNat - 48 := by
        have hlow := (toNat_of_isDigit hc).1
        have hne : c.toNat ≠ 48 := fun h => hz (Char.toNat_inj.mp h)
        omega
      have happend := write_append hpos hs
      rw [write_of_isDigit hc] at happend
      rw [value, Nat.ofDigitChars_cons, Nat.mul_zero, Nat.zero_add]
      exact happend.symm

theorem head?_write {n : Nat} (h : (write n).head? = some '0') : write n = ['0'] := by
  induction n using Nat.strongRecOn with
  | ind n ih =>
    rcases Nat.lt_or_ge n 10 with hlt | hge
    · rw [write, Nat.toDigits_of_lt_base hlt] at h ⊢
      rw [Option.some.inj h]
    · -- The first digit is that of the tenth part, which would have to be zero itself.
      rw [write, Nat.toDigits_of_base_le (by decide) hge, ← write,
        List.head?_append_of_ne_nil _ (write_ne_nil (n / 10))] at h
      have hzero : write (n / 10) = write 0 := ih (n / 10) (by omega) h
      have hdiv : n / 10 = 0 := by rw [← value_write (n / 10), hzero, value_write]
      omega

/-- The decimal of a number below the bound is what is written for it. -/
theorem decimal_iff {s : Text} {n : Nat} : Decimal s n ↔ n < bound ∧ s = write n := by
  constructor
  · rintro ⟨⟨hne, hdigits, rfl, hlt⟩, hzero⟩
    exact ⟨hlt, (write_value hne hdigits hzero).symm⟩
  · rintro ⟨hlt, rfl⟩
    exact ⟨denotes_write hlt, head?_write⟩

theorem DenotesSigned.lt_bound {s : Text} {n : Nat} (h : DenotesSigned s n) : n < bound := by
  obtain h | ⟨_, -, h⟩ := h <;> exact h.2.2.2

end Numeral

/-! ## Keys in brackets -/

/-- The template of one piece. -/
def Pattern.single (key : Text) (q : Piece) : Pattern := .leaf (.template key [q])

theorem Pattern.render_single (key : Text) (q : Piece) (t : Trail) : (single key q).render t = q.render t :=
  followedBy_nil (q.render t)

/-- No characters but those of numbers, references and a plus sign. -/
def Text.IndexLike (s : Text) : Prop := ∀ c ∈ s, c = '&' ∨ c = '+' ∨ Reference.isBodyChar c = true

theorem Text.IndexLike.cons {c : Char} {s : Text} (hc : c = '&' ∨ c = '+')
    (hs : ∀ d ∈ s, Reference.isBodyChar d = true) : IndexLike (c :: s) :=
  List.forall_mem_cons.mpr ⟨hc.imp_right .inl, fun d hd => .inr (.inr (hs d hd))⟩

theorem Text.IndexLike.not_mem_bracketed {c : Char} {s : Text} (hs : s.IndexLike)
    (hc : c ≠ '[' ∧ c ≠ ']' ∧ c ≠ '&' ∧ c ≠ '+' ∧ Reference.isBodyChar c = false) : c ∉ bracketed s := by
  obtain ⟨hopen, hclose, hamp, hplus, hbody⟩ := hc
  have hmem : c ∉ s := by
    intro hmem
    obtain h | h | h := hs c hmem
    · exact hamp h
    · exact hplus h
    · rw [hbody] at h
      cases h
  simp [bracketed, hopen, hclose, hmem]

theorem Numeral.Denotes.isBodyChar {s : Text} {n : Nat} (h : Denotes s n) :
    ∀ c ∈ s, Reference.isBodyChar c = true :=
  fun c hc => Reference.isBodyChar_of_isDigit (h.2.1 c hc)

namespace Pattern
variable {s : Text} {n : Nat}

theorem outcome_ofKey_bracketed [Engine] (hs : s.IndexLike) :
    (ofKey (Text.bracketed s)).outcome = match Template.read (Text.bracketed s) with
      | .ok pieces => .ok (.leaf (.template (Text.bracketed s) pieces))
      | .error flaw => .error (.malformed (Text.bracketed s) flaw) := by
  have hsign : (Text.bracketed s).hasTemplateSign = true := Text.hasTemplateSign_iff.mpr (.inr List.mem_cons_self)
  rw [outcome_ofKey_of_no_bar (hs.not_mem_bracketed (by decide)),
    Leaf.ofKey_template hsign (hs.not_mem_bracketed (by decide))]
  cases Template.read (Text.bracketed s) <;> rfl

theorem outcome_ofKey_captured [Engine] {b : Text} {r : Reference} (hb : r.Body b) :
    (ofKey (Text.bracketed ('&' :: b))).outcome =
      .ok (single (Text.bracketed ('&' :: b)) (.insertIndex r)) := by
  have hspelling : Template.Spelling (Text.bracketed ('&' :: b)) [] [.insertIndex r] :=
    Template.spelling_singleton_iff.mpr (.insertIndex hb)
  rw [outcome_ofKey_bracketed (.cons (.inl rfl) hb.isBodyChar), hspelling.read_eq_join]
  rfl

/-- A key in brackets is a written index if and only if there is a numeral between them. -/
theorem outcome_ofKey_index_iff [Engine] :
    (ofKey (Text.bracketed s)).outcome = .ok (single (Text.bracketed s) (.index n)) ↔ Numeral.Denotes s n := by
  constructor
  · intro h
    have hbar : '|' ∉ Text.bracketed s := by
      intro hbar
      obtain ⟨branches, hchoice⟩ := exists_choice_of_bar hbar h
      cases hchoice
    obtain ⟨l, hl, hkey⟩ := exists_leaf_of_no_bar hbar h
    obtain rfl := Pattern.leaf.inj hl
    cases hkey with
    | template _ _ hread =>
      have hspelling : (Piece.index n).Spelling (Text.bracketed s) [] :=
        Template.spelling_singleton_iff.mp (Template.read_eq_ok_iff.mp hread).1
      generalize hkey : Text.bracketed s = key at hspelling
      cases hspelling with
      | index hd =>
        obtain rfl := List.append_cancel_right (List.cons.inj hkey).2
        exact hd
  · intro h
    have hspelling : Template.Spelling (Text.bracketed s) [] [.index n] :=
      Template.spelling_singleton_iff.mpr (.index h)
    rw [outcome_ofKey_bracketed fun c hc => .inr (.inr (h.isBodyChar c hc)), hspelling.read_eq_join]
    rfl

/-- A number with a plus sign is no written index. -/
theorem outcome_ofKey_plus [Engine] {digits : Text} (h : Numeral.Denotes digits n) :
    (ofKey (Text.bracketed ('+' :: digits))).outcome =
      .error (.malformed (Text.bracketed ('+' :: digits)) .neitherIndexNorReference) := by
  have hclose : ']' ∉ '+' :: digits := by
    rw [List.mem_cons, not_or]
    exact ⟨by decide, not_mem_of_isDigit h.2.1⟩
  have hflaw : Flaw.At (Text.bracketed ('+' :: digits)) .neitherIndexNorReference :=
    .neitherIndexNorReference (List.cons_ne_nil _ _) hclose
      (fun hall => absurd (hall '+' List.mem_cons_self) (by decide)) (by simp)
  rw [outcome_ofKey_bracketed (.cons (.inr rfl) h.isBodyChar), hflaw.read]

end Pattern

/-! ## Captured indices -/

namespace Piece
variable {t : Trail} {r : Reference} {s : Text}

theorem render_insertIndex_eq_ok_iff (hs : t.resolve r = .ok s) {u : Text} :
    (insertIndex r).render t = .ok u ↔
      ∃ n, Numeral.DenotesSigned s n ∧ u = Text.bracketed (Numeral.write n) := by
  rw [render_insertIndex hs]
  cases hn : Numeral.readSigned? s with
  | none =>
    have hnone := Numeral.readSigned?_eq_none_iff.mp hn
    exact iff_of_false nofun fun ⟨n, h, _⟩ => hnone n h
  | some n =>
    constructor
    · intro h
      exact ⟨n, Numeral.readSigned?_eq_some_iff.mp hn, (Except.ok.inj h).symm⟩
    · rintro ⟨m, hm, rfl⟩
      obtain rfl : n = m := Option.some.inj (hn.symm.trans (Numeral.readSigned?_eq_some_iff.mpr hm))
      rfl

theorem render_insertIndex_eq_error_iff (hs : t.resolve r = .ok s) {fault : Fault} :
    (insertIndex r).render t = .error fault ↔ (∀ n, ¬ Numeral.DenotesSigned s n) ∧ fault = .notAnIndex s := by
  rw [render_insertIndex hs, ← Numeral.readSigned?_eq_none_iff]
  cases Numeral.readSigned? s with
  | none => simp [eq_comm]
  | some n => simp

end Piece

/-! ## The two ways to give an index -/

/-- The index that is read from a sub-key. The sub-key may be any numeral below the bound, with at most one plus
sign in front, and the index is rendered in decimal; any other sub-key is refused. So an index written into the
key is rendered as it would be if it were captured, the only captured indices that cannot be written are those
with a plus sign, and what is rendered is itself a key of one written index, rendered as it is. -/
theorem captured_index_agrees_with_written [Engine] {t : Trail} {r : Reference} {s : Text} (hs : t.resolve r = .ok s) :
    let captured := (Piece.insertIndex r).render t
    let written := (Pattern.ofKey (Text.bracketed s)).outcome
    (∀ b, r.Body b →
        (Pattern.ofKey (Text.bracketed ('&' :: b))).outcome =
            .ok (.single (Text.bracketed ('&' :: b)) (.insertIndex r)) ∧
          (Pattern.single (Text.bracketed ('&' :: b)) (.insertIndex r)).render t = captured) ∧
      (∀ u, captured = .ok u ↔
        ∃ n d, Numeral.DenotesSigned s n ∧ Numeral.Decimal d n ∧ u = Text.bracketed d) ∧
      (∀ fault, captured = .error fault ↔ (∀ n, ¬ Numeral.DenotesSigned s n) ∧ fault = .notAnIndex s) ∧
      (∀ n, written = .ok (.single (Text.bracketed s) (.index n)) →
        ∀ t' : Trail, (Pattern.single (Text.bracketed s) (.index n)).render t' = captured) ∧
      (∀ u, captured = .ok u →
        (s.head? = some '+' ∧ written = .error (.malformed (Text.bracketed s) .neitherIndexNorReference)) ∨
          s.head? ≠ some '+' ∧ ∃ n, written = .ok (.single (Text.bracketed s) (.index n))) ∧
      ∀ u, captured = .ok u → ∃ n, (Pattern.ofKey u).outcome = .ok (.single u (.index n)) ∧
        ∀ t' : Trail, (Pattern.single u (.index n)).render t' = .ok u := by
  intro captured written
  have hok : ∀ {u}, captured = .ok u ↔ ∃ n, Numeral.DenotesSigned s n ∧ u = Text.bracketed (Numeral.write n) :=
    Piece.render_insertIndex_eq_ok_iff hs
  refine ⟨?key, ?value, fun fault => Piece.render_insertIndex_eq_error_iff hs, ?agree, ?plus, ?again⟩
  case key => exact fun b hb => ⟨Pattern.outcome_ofKey_captured hb, Pattern.render_single _ _ t⟩
  case value =>
    intro u
    rw [hok]
    constructor
    · rintro ⟨n, hn, rfl⟩
      exact ⟨n, _, hn, Numeral.decimal_iff.mpr ⟨hn.lt_bound, rfl⟩, rfl⟩
    · rintro ⟨n, d, hn, hd, rfl⟩
      obtain ⟨-, rfl⟩ := Numeral.decimal_iff.mp hd
      exact ⟨n, hn, rfl⟩
  case agree =>
    intro n hwritten t'
    have hn := Pattern.outcome_ofKey_index_iff.mp hwritten
    rw [Pattern.render_single, hok.mpr ⟨n, .inl hn, rfl⟩]
    rfl
  case plus =>
    intro u hu
    obtain ⟨n, hn | ⟨digits, rfl, hdigits⟩, -⟩ := hok.mp hu
    · refine .inr ⟨?_, n, Pattern.outcome_ofKey_index_iff.mpr hn⟩
      intro hplus
      have hmem : '+' ∈ s := List.mem_of_head? hplus
      exact absurd (hn.2.1 '+' hmem) (by decide)
    · exact .inl ⟨rfl, Pattern.outcome_ofKey_plus hdigits⟩
  case again =>
    intro u hu
    obtain ⟨n, hn, rfl⟩ := hok.mp hu
    have hwrite := Numeral.denotes_write hn.lt_bound
    exact ⟨n, Pattern.outcome_ofKey_index_iff.mpr hwrite, Pattern.render_single _ _⟩

open scoped Tabled

/-- A captured index with a plus sign and a zero in front, which no key in brackets can be written for. -/
theorem captured_index_agrees_with_written_plus :
    Trail.resolve ⟨[.leaf (.exact "a+07".toList ["+07".toList])]⟩ ⟨0, 1⟩ = .ok "+07".toList ∧
      (Piece.insertIndex ⟨0, 1⟩).render ⟨[.leaf (.exact "a+07".toList ["+07".toList])]⟩ = .ok "[7]".toList ∧
      (Pattern.ofKey "[+07]".toList).outcome =
        .error (.malformed "[+07]".toList .neitherIndexNorReference) := by
  have hs : Trail.resolve ⟨[.leaf (.exact "a+07".toList ["+07".toList])]⟩ ⟨0, 1⟩ = .ok "+07".toList := rfl
  obtain ⟨-, hvalue, -, -, hplus, -⟩ := captured_index_agrees_with_written hs
  have hseven : Numeral.DenotesSigned "+07".toList 7 :=
    .inr ⟨"07".toList, rfl, Numeral.read?_eq_some_iff_denotes.mp rfl⟩
  have hdecimal : Numeral.Decimal ['7'] 7 := Numeral.decimal_iff.mpr ⟨by decide, rfl⟩
  have hrender := (hvalue "[7]".toList).mpr ⟨7, ['7'], hseven, hdecimal, rfl⟩
  obtain ⟨-, hwritten⟩ | ⟨hnot, -⟩ := hplus _ hrender
  · exact ⟨hs, hrender, hwritten⟩
  · exact absurd rfl hnot

end KeyPath
