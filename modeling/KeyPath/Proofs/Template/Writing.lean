import KeyPath.Proofs.Template.Rendering
import Mathlib.Data.List.Chain

/-!
Writing templates. Reading gives canonical templates only: no text is empty or holds a sign, no two texts stand
side by side, and no reference stands in front of a text that it would take in. A template is canonical if and
only if it reads back from its written form (`read_write_iff_canonical`), so writing what was read and reading
it again changes nothing, although the text may have changed.
-/
namespace KeyPath
set_option autoImplicit false

/-! ## Canonical templates -/

namespace Piece

/-- A text of at least one character and without signs, or numbers below the bound. -/
def Proper : Piece → Prop
  | text s => s ≠ [] ∧ ∀ c ∈ s, c ≠ '&' ∧ c ≠ '['
  | index n => n < Numeral.bound
  | insert r | insertIndex r => r.up < Numeral.bound ∧ r.group < Numeral.bound

/-- Whether the text may stand behind the piece. Behind a text it would join that text, and behind a reference
its digits and parentheses would be taken in by the ampersand. -/
def MayPrecedeText : Piece → Text → Prop
  | text _, _ => False
  | insert _, s => ∀ c ∈ s.head?, Reference.isBodyChar c = false
  | index _, _ | insertIndex _, _ => True

def MayPrecede (p : Piece) : Piece → Prop
  | text s => p.MayPrecedeText s
  | index _ | insert _ | insertIndex _ => True

instance : DecidablePred Proper
  | text s =>
    -- Left to itself the search finds an instance that runs over all characters there are.
    have : Decidable (∀ c ∈ s, c ≠ '&' ∧ c ≠ '[') := List.decidableBAll _ s
    inferInstanceAs (Decidable (s ≠ [] ∧ ∀ c ∈ s, c ≠ '&' ∧ c ≠ '['))
  | index n => inferInstanceAs (Decidable (n < Numeral.bound))
  | insert r | insertIndex r => inferInstanceAs (Decidable (r.up < Numeral.bound ∧ r.group < Numeral.bound))

instance : DecidableRel MayPrecedeText
  | text _, _ => isFalse id
  | insert _, s => Option.decidableForallMem s.head?
  | index _, _ | insertIndex _, _ => isTrue trivial

instance : DecidableRel MayPrecede
  | p, text s => inferInstanceAs (Decidable (p.MayPrecedeText s))
  | _, index _ | _, insert _ | _, insertIndex _ => isTrue trivial

end Piece

structure Template.Canonical (ps : Template) : Prop where
  proper : ∀ p ∈ ps, p.Proper
  apart : ps.IsChain Piece.MayPrecede

instance : DecidablePred Template.Canonical := fun ps =>
  decidable_of_iff ((∀ p ∈ ps, p.Proper) ∧ ps.IsChain Piece.MayPrecede)
    ⟨fun h => ⟨h.1, h.2⟩, fun h => ⟨h.proper, h.apart⟩⟩

theorem Template.canonical_cons_iff {p : Piece} {ps : Template} :
    Canonical (p :: ps) ↔ p.Proper ∧ (∀ q ∈ ps.head?, p.MayPrecede q) ∧ Canonical ps := by
  constructor
  · rintro ⟨hproper, hapart⟩
    obtain ⟨hp, hps⟩ := List.forall_mem_cons.mp hproper
    obtain ⟨hhead, htail⟩ := List.isChain_cons.mp hapart
    exact ⟨hp, hhead, hps, htail⟩
  · rintro ⟨hp, hhead, hps, htail⟩
    exact ⟨List.forall_mem_cons.mpr ⟨hp, hps⟩, List.isChain_cons.mpr ⟨hhead, htail⟩⟩

/-! ## What was read is canonical -/

theorem Reference.Body.lt_bound {b : Text} {r : Reference} (h : r.Body b) :
    r.up < Numeral.bound ∧ r.group < Numeral.bound := by
  have hzero : 0 < Numeral.bound := by decide
  cases h with
  | bare => exact ⟨hzero, hzero⟩
  | up hu => exact ⟨hu.2.2.2, hzero⟩
  | group hg => exact ⟨hzero, hg.2.2.2⟩
  | both hu hg => exact ⟨hu.2.2.2, hg.2.2.2⟩

namespace Template

section
variable {u v w rest : Text} {p : Piece} {ps qs : Template}

theorem Joined.tail (h : Joined (p :: ps)) : Joined ps := by
  cases p with
  | text s => exact h.2.2
  | index n => exact h
  | insert r => exact h
  | insertIndex r => exact h

theorem Spelling.of_append (h : Spelling w rest (ps ++ qs)) :
    ∃ u v, w = u ++ v ∧ Spelling u (v ++ rest) ps ∧ Spelling v rest qs := by
  induction ps generalizing w with
  | nil => exact ⟨[], w, rfl, .done, h⟩
  | cons p ps ih =>
    cases h with
    | @step a b _ _ _ hp hps =>
      obtain ⟨u, v, rfl, hu, hv⟩ := ih hps
      rw [List.append_assoc] at hp
      exact ⟨a ++ u, v, (List.append_assoc a u v).symm, .step hp hu, hv⟩

theorem Spelling.of_letters_cons (h : Spelling w rest (letters (p :: ps))) :
    ∃ u v, w = u ++ v ∧ Spelling u (v ++ rest) p.letters ∧ Spelling v rest (letters ps) := by
  have happend : letters (p :: ps) = p.letters ++ letters ps := List.flatMap_cons
  rw [happend] at h
  exact h.of_append

theorem spelling_singleton_iff : Spelling u rest [p] ↔ p.Spelling u rest := by
  constructor
  · intro h
    cases h with
    | @step a b _ _ _ hp hdone =>
      cases hdone
      rwa [List.append_nil]
  · intro h
    have hstep : Spelling (u ++ []) rest [p] := .step h .done
    rwa [List.append_nil] at hstep

theorem Spelling.text_letters {s : Text} (h : Spelling u rest (Piece.text s).letters) :
    u = s ∧ ∀ c ∈ s, c ≠ '&' ∧ c ≠ '[' := by
  induction s generalizing u with
  | nil =>
    cases h
    exact ⟨rfl, by simp⟩
  | cons c s ih =>
    cases h with
    | @step a b _ _ _ hp hps =>
      obtain ⟨rfl, hs⟩ := ih hps
      cases hp with
      | char hamp hbracket => exact ⟨rfl, List.forall_mem_cons.mpr ⟨⟨hamp, hbracket⟩, hs⟩⟩

theorem Spelling.proper (h : Spelling u rest p.letters) (hp : p ≠ .text []) : p.Proper := by
  cases p with
  | text s => exact ⟨fun hs => hp (congrArg Piece.text hs), h.text_letters.2⟩
  | index n =>
    cases spelling_singleton_iff.mp h with
    | index hd => exact hd.2.2.2
  | insert r =>
    cases spelling_singleton_iff.mp h with
    | insert hb _ => exact hb.lt_bound
  | insertIndex r =>
    cases spelling_singleton_iff.mp h with
    | insertIndex hb => exact hb.lt_bound

/-- A reference was read up to a character that it does not take in. -/
theorem Spelling.head?_of_insert {r : Reference} {c : Char} (h : Spelling u rest (Piece.insert r).letters)
    (hc : rest.head? = some c) : Reference.isBodyChar c = false := by
  cases spelling_singleton_iff.mp h with
  | insert _ hrest => exact hrest c hc

theorem Spelling.head?_of_text {s : Text} {c : Char} (h : Spelling v rest (letters (.text s :: ps)))
    (hc : s.head? = some c) : v.head? = some c := by
  obtain ⟨a, b, rfl, ha, -⟩ := h.of_letters_cons
  obtain ⟨rfl, -⟩ := ha.text_letters
  rw [List.head?_append, hc, Option.some_or]

/-- Two pieces that were read side by side may be written side by side. -/
theorem Spelling.mayPrecede {q : Piece} (hp : Spelling u (v ++ rest) p.letters)
    (hps : Spelling v rest (letters (q :: ps))) (hjoined : Joined (p :: q :: ps)) : p.MayPrecede q := by
  cases q with
  | text s =>
    cases p with
    | text s' => exact absurd hjoined.2.1 (by simp [startsWithText])
    | insert r =>
      intro c hc
      apply hp.head?_of_insert
      rw [List.head?_append, hps.head?_of_text hc, Option.some_or]
    | index n => trivial
    | insertIndex r => trivial
  | index n => trivial
  | insert r => trivial
  | insertIndex r => trivial

theorem Spelling.canonical (h : Spelling u rest (letters ps)) (hjoined : Joined ps) : Canonical ps := by
  induction ps generalizing u with
  | nil => exact ⟨by simp, .nil⟩
  | cons p ps ih =>
    obtain ⟨a, b, rfl, hp, hps⟩ := h.of_letters_cons
    refine canonical_cons_iff.mpr ⟨hp.proper ?_, ?_, ih hps hjoined.tail⟩
    · rintro rfl
      exact hjoined.1 rfl
    · intro q hq
      obtain ⟨ps, rfl⟩ := List.head?_eq_some_iff.mp hq
      exact hp.mayPrecede hps hjoined

end
end Template

/-! ## What is canonical reads back -/

theorem Reference.body_write {r : Reference} (h : r.up < Numeral.bound ∧ r.group < Numeral.bound) :
    ∃ b, r.write = '&' :: b ∧ r.Body b := by
  refine ⟨_, ?_, .both (Numeral.denotes_write h.1) (Numeral.denotes_write h.2)⟩
  simp [write]

theorem Piece.Proper.spelling_write {p : Piece} {rest : Text} (h : p.Proper)
    (hrest : ∀ r, p = .insert r → ∀ c, rest.head? = some c → Reference.isBodyChar c = false) :
    Template.Spelling p.write rest p.letters := by
  cases p with
  | text s => exact Template.spelling_letters_text h.2 rest
  | index n => exact Template.spelling_singleton_iff.mpr (.index (Numeral.denotes_write h))
  | insert r =>
    obtain ⟨b, hwrite, hb⟩ := Reference.body_write h
    rw [write, hwrite]
    exact Template.spelling_singleton_iff.mpr (.insert hb (hrest r rfl))
  | insertIndex r =>
    obtain ⟨b, hwrite, hb⟩ := Reference.body_write h
    rw [write, hwrite]
    exact Template.spelling_singleton_iff.mpr (.insertIndex hb)

namespace Template
variable {p : Piece} {ps : Template}

/-- What is written behind a reference does not begin with anything that the reference would take in. -/
theorem Canonical.head?_write {r : Reference} {c : Char} (h : Canonical ps)
    (hfirst : ∀ q ∈ ps.head?, Piece.MayPrecede (.insert r) q) (hc : ps.write.head? = some c) :
    Reference.isBodyChar c = false := by
  cases ps with
  | nil => cases hc
  | cons q ps =>
    have hsign : c = '&' ∨ c = '[' → Reference.isBodyChar c = false := by
      rintro (rfl | rfl) <;> decide
    cases q with
    | text s =>
      obtain ⟨d, s', rfl⟩ := List.exists_cons_of_ne_nil (canonical_cons_iff.mp h).1.1
      exact hfirst (.text (d :: s')) rfl c hc
    | index n => exact hsign (.inr (Option.some.inj hc).symm)
    | insert r' => exact hsign (.inl (Option.some.inj hc).symm)
    | insertIndex r' => exact hsign (.inr (Option.some.inj hc).symm)

theorem Canonical.spelling_write (h : Canonical ps) : Spelling ps.write [] (letters ps) := by
  induction ps with
  | nil => exact .done
  | cons p ps ih =>
    obtain ⟨hp, hfirst, hps⟩ := canonical_cons_iff.mp h
    have hrest : Spelling p.write (write ps ++ []) p.letters := by
      rw [List.append_nil]
      apply hp.spelling_write
      rintro r rfl c hc
      exact hps.head?_write hfirst hc
    exact hrest.append (ih hps)

theorem Canonical.joined (h : Canonical ps) : Joined ps := by
  induction ps with
  | nil => trivial
  | cons p ps ih =>
    obtain ⟨hp, hfirst, hps⟩ := canonical_cons_iff.mp h
    cases p with
    | text s =>
      refine ⟨hp.1, ?_, ih hps⟩
      match ps, hfirst with
      | [], _ => rfl
      | .text s' :: _, hfirst => exact (hfirst (.text s') rfl).elim
      | .index _ :: _, _ => rfl
      | .insert _ :: _, _ => rfl
      | .insertIndex _ :: _, _ => rfl
    | index n => exact ih hps
    | insert r => exact ih hps
    | insertIndex r => exact ih hps

theorem canonical_of_read {k : Text} (h : Template.read k = .ok ps) : Canonical ps := by
  obtain ⟨hspelling, hjoined⟩ := read_eq_ok_iff.mp h
  exact hspelling.canonical hjoined

theorem Canonical.read_write (h : Canonical ps) : Template.read ps.write = .ok ps :=
  read_eq_ok_iff.mpr ⟨h.spelling_write, h.joined⟩

end Template

/-! ## The written form as a key -/

theorem Reference.mem_write {r : Reference} {c : Char} (hc : c ∈ r.write) : c = '&' ∨ isBodyChar c = true := by
  simp only [write, List.cons_append, List.mem_cons, List.mem_append, List.not_mem_nil, or_false] at hc
  have hdigits : ∀ n, c ∈ Numeral.write n → isBodyChar c = true :=
    fun n hn => isBodyChar_of_isDigit (List.all_eq_true.mp (Numeral.isDigit_write n) c hn)
  obtain rfl | (hc | rfl | hc) | rfl := hc
  · exact .inl rfl
  · exact .inr (hdigits _ hc)
  · exact .inr rfl
  · exact .inr (hdigits _ hc)
  · exact .inr rfl

theorem Piece.mem_write {p : Piece} {c : Char} (hc : c ∈ p.write) :
    (∃ s, p = .text s ∧ c ∈ s) ∨ c = '[' ∨ c = ']' ∨ c = '&' ∨ Reference.isBodyChar c = true := by
  cases p with
  | text s => exact .inl ⟨s, rfl, hc⟩
  | index n =>
    simp only [write, Text.bracketed, List.cons_append, List.mem_cons, List.mem_append, List.not_mem_nil,
      or_false] at hc
    obtain hc | hc | hc := hc
    · exact .inr (.inl hc)
    · have hdigit := List.all_eq_true.mp (Numeral.isDigit_write n) c hc
      exact .inr (.inr (.inr (.inr (Reference.isBodyChar_of_isDigit hdigit))))
    · exact .inr (.inr (.inl hc))
  | insert r => exact .inr (.inr (.inr (Reference.mem_write hc)))
  | insertIndex r =>
    simp only [write, Text.bracketed, List.cons_append, List.mem_cons, List.mem_append, List.not_mem_nil,
      or_false] at hc
    obtain hc | hc | hc := hc
    · exact .inr (.inl hc)
    · exact .inr (.inr (.inr (Reference.mem_write hc)))
    · exact .inr (.inr (.inl hc))

section
variable {key rest : Text} {ps : Template}

/-- Writing brings in nothing but the signs, digits and parentheses of references. -/
theorem Template.Spelling.mem_of_mem_write {c : Char} (h : Spelling key rest (letters ps)) (hc : c ∈ ps.write)
    (hsign : c ≠ '[' ∧ c ≠ ']' ∧ c ≠ '&' ∧ Reference.isBodyChar c = false) : c ∈ key := by
  induction ps generalizing key with
  | nil => cases hc
  | cons p ps ih =>
    obtain ⟨u, v, rfl, hp, hps⟩ := h.of_letters_cons
    obtain hc | hc := List.mem_append.mp hc
    · obtain ⟨s, rfl, hs⟩ | hopen | hclose | hamp | hbody := Piece.mem_write hc
      · rw [hp.text_letters.1]
        exact List.mem_append_left v hs
      · exact absurd hopen hsign.1
      · exact absurd hclose hsign.2.1
      · exact absurd hamp hsign.2.2.1
      · simp [hbody] at hsign
    · exact List.mem_append_right u (ih hps hc)

/-- A template that is written without any sign was read from a key without any sign. -/
theorem Template.hasTemplateSign_write (hsign : key.hasTemplateSign = true) (hread : Template.read key = .ok ps) :
    ps.write.hasTemplateSign = true := by
  by_contra hnone
  obtain ⟨hkey, -⟩ := read_eq_ok_iff.mp hread
  have hplain := spelling_letters_text (Text.not_sign_of_hasTemplateSign (Bool.eq_false_iff.mpr hnone)) []
  have hletters := (canonical_of_read hread).spelling_write.unique hplain
  rw [hletters] at hkey
  rw [hkey.text_letters.1] at hsign
  exact hnone hsign

/-- The written form of a compiled template compiles to the same pieces. -/
theorem Pattern.outcome_ofKey_write [Engine] {own : Text} (h : (ofKey key).outcome = .ok (.leaf (.template own ps))) :
    (ofKey ps.write).outcome = .ok (.leaf (.template ps.write ps)) := by
  have hbar : '|' ∉ key := by
    intro hbar
    obtain ⟨branches, hchoice⟩ := exists_choice_of_bar hbar h
    cases hchoice
  obtain ⟨l, hl, hkey⟩ := exists_leaf_of_no_bar hbar h
  obtain rfl := Pattern.leaf.inj hl
  cases hkey with
  | template hsign hstar hread =>
    have hspelling := (Template.read_eq_ok_iff.mp hread).1
    have hbar' : '|' ∉ ps.write := fun hc => hbar (hspelling.mem_of_mem_write hc (by decide))
    have hstar' : '*' ∉ ps.write := fun hc => hstar (hspelling.mem_of_mem_write hc (by decide))
    exact outcome_ofKey_template (Template.hasTemplateSign_write hsign hread) hbar' hstar'
      (Template.canonical_of_read hread).read_write

end

/-! ## Reading and writing -/

/-- What is read is canonical, and the canonical templates are those that read back from their written form.
So writing and reading again changes nothing of what was read, and the written form of a compiled template
compiles to it. The text itself may change, since numbers lose their leading zeros and parts that were left
out are written. -/
theorem read_write_iff_canonical [Engine] :
    (∀ k ps, Template.read k = .ok ps → ps.Canonical) ∧
      (∀ ps : Template, ps.Canonical ↔ Template.read ps.write = .ok ps) ∧
      (∀ k ps, Template.read k = .ok ps → Template.read ps.write = .ok ps) ∧
      (∀ k own ps, (Pattern.ofKey k).outcome = .ok (.leaf (.template own ps)) →
        (Pattern.ofKey ps.write).outcome = .ok (.leaf (.template ps.write ps))) ∧
      Template.read "&01[&][007]".toList = .ok [.insert ⟨1, 0⟩, .insertIndex ⟨0, 0⟩, .index 7] ∧
      Template.write [.insert ⟨1, 0⟩, .insertIndex ⟨0, 0⟩, .index 7] = "&1(0)[&0(0)][7]".toList := by
  refine ⟨fun k ps => Template.canonical_of_read, fun ps => ⟨Template.Canonical.read_write, ?_⟩, ?_, ?_, ?_, ?_⟩
  · exact Template.canonical_of_read
  · exact fun k ps h => (Template.canonical_of_read h).read_write
  · exact fun k own ps => Pattern.outcome_ofKey_write
  · decide +kernel
  · decide

/-- A digit behind a reference would be read as a digit of it, behind an index in brackets it is a text. -/
example : ¬ Template.Canonical [.insert ⟨1, 0⟩, .text ['2']] ∧ Template.Canonical [.index 1, .text ['2']] := by
  decide

end KeyPath
