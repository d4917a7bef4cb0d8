import KeyPath.Proofs.Compiled
import KeyPath.Proofs.Template.Grammar

/-!
What reading a template accepts. A text is read if and only if it is put together from written pieces, in
the one way that there is, and the characters that stand for themselves make up the texts between the
other pieces; otherwise the flaw is that of the leftmost ampersand or bracket that cannot be read
(`read_iff_grammar`).
-/
namespace KeyPath
set_option autoImplicit false

/-! ## Texts that are put together from pieces -/

/-- The text `u`, with `rest` behind it, is written for the pieces one after the other. Each character that
stands for itself is a piece of its own here. -/
inductive Template.Spelling : Text → Text → Template → Prop
  | done {rest : Text} : Spelling [] rest []
  | step {u v rest : Text} {p : Piece} {ps : Template} (hp : p.Spelling u (v ++ rest))
      (hps : Spelling v rest ps) : Spelling (u ++ v) rest (p :: ps)

/-- A text as the pieces for its characters; any other piece as it is. -/
def Piece.letters : Piece → Template
  | .text s => s.map fun c => .text [c]
  | p => [p]

namespace Template

def letters (ps : Template) : Template := ps.flatMap Piece.letters

def startsWithText : Template → Bool
  | .text _ :: _ => true
  | _ => false

/-- No text is empty, and no two texts stand side by side. -/
def Joined : Template → Prop
  | [] => True
  | .text s :: ps => s ≠ [] ∧ startsWithText ps = false ∧ Joined ps
  | _ :: ps => Joined ps

def join (ps : Template) : Template := ps.foldr put []

variable {u v rest : Text} {ps qs : Template}

/-! ## One piece after the other -/

theorem Spelling.read (h : Spelling u rest ps) :
    Template.read (u ++ rest) = (Template.read rest).map fun qs => ps.foldr put qs := by
  induction h with
  | @done rest =>
    rw [List.nil_append]
    cases Template.read rest <;> rfl
  | @step u v rest p ps hp _ ih =>
    rw [List.append_assoc, hp.read, ih]
    cases Template.read rest <;> rfl

theorem Spelling.read_eq_join (h : Spelling u [] ps) : Template.read u = .ok (join ps) := by
  have hread := h.read
  rw [List.append_nil, read_nil] at hread
  exact hread

theorem spelling_or_flaw (k : Text) :
    (∃ ps, Spelling k [] ps) ∨ ∃ u v ps flaw, k = u ++ v ∧ Spelling u v ps ∧ Flaw.At v flaw := by
  -- A piece takes at least one character, so the induction on the length goes on behind it.
  induction hn : k.length using Nat.strongRecOn generalizing k with
  | ind n ih =>
    by_cases hk : k = []
    · subst hk
      exact .inl ⟨[], .done⟩
    · rcases spelling_or_flaw_of_ne_nil hk with ⟨u, rest, p, rfl, hu, hp⟩ | ⟨flaw, hflaw⟩
      · have hpos : 0 < u.length := List.length_pos_iff.mpr hu
        have hlt : rest.length < n := by
          rw [← hn, List.length_append]
          omega
        rcases ih rest.length hlt rest rfl with ⟨ps, hps⟩ | ⟨u', v, ps, flaw, rfl, hps, hflaw⟩
        · refine .inl ⟨p :: ps, .step ?_ hps⟩
          rw [List.append_nil]
          exact hp
        · exact .inr ⟨u ++ u', v, p :: ps, flaw, (List.append_assoc u u' v).symm, .step hp hps, hflaw⟩
      · exact .inr ⟨[], k, [], flaw, rfl, .done, hflaw⟩

/-! ## Characters and texts -/

theorem letters_addChar (c : Char) (ps : Template) : letters (addChar c ps) = .text [c] :: letters ps := by
  cases ps with
  | nil => rfl
  | cons p ps => cases p <;> rfl

theorem letters_put (p : Piece) (ps : Template) : letters (put p ps) = p.letters ++ letters ps := by
  cases p with
  | text s =>
    change letters (s.foldr addChar ps) = (s.map fun c => Piece.text [c]) ++ letters ps
    induction s with
    | nil => rfl
    | cons c s ih => rw [List.foldr_cons, letters_addChar, ih, List.map_cons, List.cons_append]
  | index n => rfl
  | insert r => rfl
  | insertIndex r => rfl

theorem letters_join (ps : Template) : letters (join ps) = letters ps := by
  induction ps with
  | nil => rfl
  | cons p ps ih =>
    change letters (put p (join ps)) = p.letters ++ letters ps
    rw [letters_put, ih]

theorem Spelling.letters_eq (h : Spelling u rest ps) : letters ps = ps := by
  induction h with
  | done => rfl
  | @step u v rest p ps hp _ ih =>
    have hletters : p.letters = [p] := by cases hp <;> rfl
    change p.letters ++ letters ps = p :: ps
    rw [hletters, ih]
    rfl

theorem joined_addChar {c : Char} (h : Joined ps) : Joined (addChar c ps) := by
  match ps, h with
  | [], _ => exact ⟨List.cons_ne_nil _ _, rfl, trivial⟩
  | .text s :: ps, h => exact ⟨List.cons_ne_nil _ _, h.2⟩
  | .index n :: ps, h => exact ⟨List.cons_ne_nil _ _, rfl, h⟩
  | .insert r :: ps, h => exact ⟨List.cons_ne_nil _ _, rfl, h⟩
  | .insertIndex r :: ps, h => exact ⟨List.cons_ne_nil _ _, rfl, h⟩

theorem Spelling.joined_join (h : Spelling u rest ps) : Joined (join ps) := by
  induction h with
  | done => trivial
  | step hp _ ih =>
    cases hp with
    | char _ _ => exact joined_addChar ih
    | insert _ _ => exact ih
    | index _ => exact ih
    | insertIndex _ => exact ih

theorem foldr_addChar {s : Text} (hs : s ≠ []) (hps : startsWithText ps = false) :
    s.foldr addChar ps = .text s :: ps := by
  induction s with
  | nil => exact absurd rfl hs
  | cons c s ih =>
    rw [List.foldr_cons]
    cases s with
    | cons d s =>
      rw [ih (List.cons_ne_nil d s)]
      rfl
    | nil =>
      match ps, hps with
      | [], _ => rfl
      | .index _ :: _, _ => rfl
      | .insert _ :: _, _ => rfl
      | .insertIndex _ :: _, _ => rfl

theorem Joined.join_letters (h : Joined ps) : join (letters ps) = ps := by
  induction ps with
  | nil => rfl
  | cons p ps ih =>
    change (p.letters ++ letters ps).foldr put [] = p :: ps
    rw [List.foldr_append]
    cases p with
    | text s =>
      obtain ⟨hs, hstart, hps⟩ := h
      change ((s.map fun c => Piece.text [c]).foldr put (join (letters ps))) = _
      rw [ih hps, List.foldr_map]
      exact foldr_addChar hs hstart
    | index n => exact congrArg (Piece.index n :: ·) (ih h)
    | insert r => exact congrArg (Piece.insert r :: ·) (ih h)
    | insertIndex r => exact congrArg (Piece.insertIndex r :: ·) (ih h)

/-! ## Reading and the grammar -/

theorem read_eq_ok_iff {k : Text} : Template.read k = .ok ps ↔ Spelling k [] (letters ps) ∧ Joined ps := by
  constructor
  · intro h
    rcases spelling_or_flaw k with ⟨ls, hls⟩ | ⟨u, v, ls, flaw, rfl, hls, hflaw⟩
    · obtain rfl : join ls = ps := Except.ok.inj (hls.read_eq_join.symm.trans h)
      rw [letters_join, hls.letters_eq]
      exact ⟨hls, hls.joined_join⟩
    · rw [hls.read, hflaw.read] at h
      cases h
  · rintro ⟨hls, hjoined⟩
    rw [hls.read_eq_join, hjoined.join_letters]

theorem read_eq_error_iff {k : Text} {flaw : Flaw} :
    Template.read k = .error flaw ↔ ∃ u v ls, k = u ++ v ∧ Spelling u v ls ∧ Flaw.At v flaw := by
  constructor
  · intro h
    rcases spelling_or_flaw k with ⟨ls, hls⟩ | ⟨u, v, ls, flaw', rfl, hls, hflaw⟩
    · rw [hls.read_eq_join] at h
      cases h
    · rw [hls.read, hflaw.read] at h
      obtain rfl : flaw' = flaw := Except.error.inj h
      exact ⟨u, v, ls, rfl, hls, hflaw⟩
  · rintro ⟨u, v, ls, rfl, hls, hflaw⟩
    rw [hls.read, hflaw.read]
    rfl

theorem Spelling.unique {k : Text} (hps : Spelling k [] ps) (hqs : Spelling k [] qs) : ps = qs := by
  have hjoin : join ps = join qs := Except.ok.inj (hps.read_eq_join.symm.trans hqs.read_eq_join)
  rw [← hps.letters_eq, ← hqs.letters_eq, ← letters_join ps, ← letters_join qs, hjoin]

end Template

/-- A template is read from exactly the texts of the grammar, each of which is put together in one way, and
its texts are the longest runs of characters that stand for themselves. Otherwise the flaw is that of the
first sign that cannot be read, and the key is refused with this flaw. -/
theorem read_iff_grammar [Engine] (k : Text) :
    (∀ ps, Template.read k = .ok ps ↔ Template.Spelling k [] (Template.letters ps) ∧ Template.Joined ps) ∧
      ((∃ ps, Template.read k = .ok ps) ↔ ∃ ls, Template.Spelling k [] ls) ∧
      (∀ ls ls', Template.Spelling k [] ls → Template.Spelling k [] ls' → ls = ls') ∧
      (∀ flaw, Template.read k = .error flaw ↔
        ∃ u v ls, k = u ++ v ∧ Template.Spelling u v ls ∧ Flaw.At v flaw) ∧
      (k.hasTemplateSign = true → '*' ∉ k → '|' ∉ k →
        (∀ ps, Template.read k = .ok ps → (Pattern.ofKey k).outcome = .ok (.leaf (.template k ps))) ∧
          ∀ flaw, Template.read k = .error flaw → (Pattern.ofKey k).outcome = .error (.malformed k flaw)) := by
  refine ⟨fun ps => Template.read_eq_ok_iff, ?_, fun ls ls' h h' => h.unique h',
    fun flaw => Template.read_eq_error_iff, ?_⟩
  · constructor
    · rintro ⟨ps, h⟩
      exact ⟨_, (Template.read_eq_ok_iff.mp h).1⟩
    · rintro ⟨ls, h⟩
      exact ⟨_, h.read_eq_join⟩
  · intro hsign hstar hbar
    rw [Pattern.outcome_ofKey_of_no_bar hbar, Leaf.ofKey_template hsign hstar]
    constructor
    · intro ps h
      rw [h]
      rfl
    · intro flaw h
      rw [h]
      rfl

end KeyPath
