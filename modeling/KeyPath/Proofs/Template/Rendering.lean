import KeyPath.Proofs.Template.Reading
import KeyPath.Render

/-!
What written templates render to. Pieces that are written side by side can be read side by side, as long as
no ampersand takes in what stands behind it (`Template.Spelling.append`), and then the one rendering follows
the other. A key without stars, bars and at-signs is rendered as the pieces it is put together from, whether
it is a template or an exact key (`Pattern.render_of_spelling`).
-/
namespace KeyPath
set_option autoImplicit false

/-! ## Renderings side by side -/

/-- One rendering behind the other; the first fault is the fault of both. -/
def followedBy (x y : Except Fault Text) : Except Fault Text := do
  let s ← x
  let u ← y
  return s ++ u

section
variable (x y z : Except Fault Text)

@[simp] theorem followedBy_ok (s : Text) : followedBy (.ok s) y = y.map (s ++ ·) := by
  cases y <;> rfl

@[simp] theorem followedBy_error (fault : Fault) : followedBy (.error fault) y = .error fault := rfl

theorem followedBy_eq_ok_iff {x y : Except Fault Text} {s : Text} :
    followedBy x y = .ok s ↔ ∃ u v, x = .ok u ∧ y = .ok v ∧ s = u ++ v := by
  cases x with
  | error fault => simp
  | ok u => cases y <;> simp [Except.map, eq_comm]

theorem followedBy_nil : followedBy x (.ok []) = x := by
  cases x <;> simp [Except.map]

theorem followedBy_assoc : followedBy (followedBy x y) z = followedBy x (followedBy y z) := by
  cases x with
  | error fault => rfl
  | ok s =>
    cases y with
    | error fault => rfl
    | ok u => cases z <;> simp [Except.map]

end

namespace Template

variable {t : Trail}

theorem render_cons (p : Piece) (ps : Template) :
    Template.render t (p :: ps) = followedBy (p.render t) (ps.render t) := rfl

theorem render_append (ps qs : Template) :
    Template.render t (ps ++ qs) = followedBy (ps.render t) (qs.render t) := by
  induction ps with
  | nil =>
    rw [List.nil_append, render, followedBy_ok]
    cases qs.render t <;> rfl
  | cons p ps ih => rw [List.cons_append, render_cons, render_cons, ih, followedBy_assoc]

/-- Characters that stand for themselves are rendered as they are. -/
theorem render_letters_text (s : Text) : Template.render t (Piece.text s).letters = .ok s := by
  induction s with
  | nil => rfl
  | cons c s ih =>
    change Template.render t (.text [c] :: (Piece.text s).letters) = _
    rw [render_cons, ih]
    rfl

theorem render_letters (ps : Template) : Template.render t (letters ps) = ps.render t := by
  induction ps with
  | nil => rfl
  | cons p ps ih =>
    have hp : Template.render t p.letters = p.render t := by
      cases p with
      | text s => exact render_letters_text s
      | index n => exact followedBy_nil _
      | insert r => exact followedBy_nil _
      | insertIndex r => exact followedBy_nil _
    change Template.render t (p.letters ++ letters ps) = _
    rw [render_append, hp, ih, render_cons]

/-- Where texts are joined makes no difference to the rendering. -/
theorem render_join (ps : Template) : (join ps).render t = ps.render t := by
  rw [← render_letters (join ps), letters_join, render_letters]

end Template

/-! ## Spellings side by side -/

section
variable {u v rest rest' : Text} {p : Piece} {ps qs : Template}

/-- What stands behind a piece matters only to an ampersand, and only by its first character. -/
theorem Piece.Spelling.of_rest (h : p.Spelling u rest)
    (hrest' : ∀ c, rest'.head? = some c → rest.head? = some c ∨ Reference.isBodyChar c = false) :
    p.Spelling u rest' := by
  cases h with
  | char hamp hbracket => exact .char hamp hbracket
  | insert hb hrest => exact .insert hb fun c hc => (hrest' c hc).elim (hrest c) id
  | index hd => exact .index hd
  | insertIndex hb => exact .insertIndex hb

namespace Template

theorem Spelling.of_rest (h : Spelling u rest ps)
    (hrest' : ∀ c, rest'.head? = some c → Reference.isBodyChar c = false) : Spelling u rest' ps := by
  induction h with
  | done => exact .done
  | @step u v rest p ps hp _ ih =>
    refine .step (hp.of_rest ?_) ih
    intro c hc
    cases v with
    | nil => exact .inr (hrest' c hc)
    | cons d v => exact .inl hc

theorem Spelling.append (h : Spelling u (v ++ rest) ps) (h' : Spelling v rest qs) :
    Spelling (u ++ v) rest (ps ++ qs) := by
  generalize hw : v ++ rest = w at h
  induction h with
  | done => exact h'
  | @step u u' w p ps hp _ ih =>
    subst hw
    rw [List.append_assoc, List.cons_append]
    refine .step ?_ (ih rfl)
    rwa [List.append_assoc]

theorem spelling_letters_text {s : Text} (hs : ∀ c ∈ s, c ≠ '&' ∧ c ≠ '[') (rest : Text) :
    Spelling s rest (Piece.text s).letters := by
  induction s with
  | nil => exact .done
  | cons c s ih =>
    obtain ⟨hamp, hbracket⟩ := hs c List.mem_cons_self
    exact .step (u := [c]) (.char hamp hbracket) (ih fun d hd => hs d (List.mem_cons_of_mem c hd))

theorem Spelling.eq_nil (h : Spelling [] [] ps) : ps = [] := h.unique .done

end Template
end

/-! ## Keys that can be rendered -/

section
variable {key : Text} {p : Pattern} {ls : Template}

namespace Pattern

theorem outcome_ofKey_of_spelling [Engine] (hsign : key.hasTemplateSign = true) (hbar : '|' ∉ key) (hstar : '*' ∉ key)
    (h : Template.Spelling key [] ls) :
    (ofKey key).outcome = .ok (.leaf (.template key (Template.join ls))) :=
  outcome_ofKey_template hsign hbar hstar h.read_eq_join

theorem outcome_ofKey_of_no_sign [Engine] (hsign : key.hasTemplateSign = false) (hbar : '|' ∉ key) (hstar : '*' ∉ key)
    (hat : '@' ∉ key) : (ofKey key).outcome = .ok (.leaf (.exact key [])) := by
  rw [outcome_ofKey_of_no_bar hbar, Leaf.ofKey_eq_ok_iff.mpr (.exact hsign hstar hat)]
  rfl

/-- A key without bars, stars and at-signs compiles if and only if it is put together from pieces. -/
theorem exists_ofKey_iff_spelling [Engine] (hbar : '|' ∉ key) (hstar : '*' ∉ key) (hat : '@' ∉ key) :
    (∃ p, (ofKey key).outcome = .ok p) ↔ ∃ ls, Template.Spelling key [] ls := by
  cases hsign : key.hasTemplateSign with
  | false =>
    have hls := Template.spelling_letters_text (Text.not_sign_of_hasTemplateSign hsign) []
    exact ⟨fun _ => ⟨_, hls⟩, fun _ => ⟨_, outcome_ofKey_of_no_sign hsign hbar hstar hat⟩⟩
  | true =>
    constructor
    · rintro ⟨p, hp⟩
      rw [outcome_ofKey_of_no_bar hbar, Leaf.ofKey_template hsign hstar] at hp
      cases hread : Template.read key with
      | error flaw =>
        rw [hread] at hp
        cases hp
      | ok pieces => exact ⟨_, (Template.read_eq_ok_iff.mp hread).1⟩
    · rintro ⟨ls, hls⟩
      exact ⟨_, outcome_ofKey_of_spelling hsign hbar hstar hls⟩

/-- A key without bars and stars is refused if and only if it cannot be read, and for the flaw that is found. -/
theorem outcome_ofKey_eq_error_iff [Engine] (hbar : '|' ∉ key) (hstar : '*' ∉ key) {fault : Fault} :
    (ofKey key).outcome = .error fault ↔ ∃ flaw, Template.read key = .error flaw ∧ fault = .malformed key flaw := by
  rw [outcome_ofKey_of_no_bar hbar]
  cases hsign : key.hasTemplateSign with
  | false =>
    have hls := Template.spelling_letters_text (Text.not_sign_of_hasTemplateSign hsign) []
    have hleaf : ∃ l, Leaf.ofKey key = .ok l := by
      by_cases hat : '@' ∈ key
      · exact ⟨_, Leaf.ofKey_eq_ok_iff.mpr (.marker hsign hstar hat)⟩
      · exact ⟨_, Leaf.ofKey_eq_ok_iff.mpr (.exact hsign hstar hat)⟩
    obtain ⟨l, hl⟩ := hleaf
    rw [hl, hls.read_eq_join]
    simp [Except.map]
  | true =>
    rw [Leaf.ofKey_template hsign hstar]
    cases Template.read key with
    | ok pieces => simp [Except.map]
    | error flaw => simp [Except.map, eq_comm]

theorem render_of_spelling [Engine] (hbar : '|' ∉ key) (hstar : '*' ∉ key) (hat : '@' ∉ key)
    (hp : (ofKey key).outcome = .ok p) (hls : Template.Spelling key [] ls) (t : Trail) :
    p.render t = ls.render t := by
  cases hsign : key.hasTemplateSign with
  | false =>
    rw [outcome_ofKey_of_no_sign hsign hbar hstar hat] at hp
    obtain rfl := Except.ok.inj hp
    rw [hls.unique (Template.spelling_letters_text (Text.not_sign_of_hasTemplateSign hsign) [])]
    exact (Template.render_letters_text key).symm
  | true =>
    rw [outcome_ofKey_of_spelling hsign hbar hstar hls] at hp
    obtain rfl := Except.ok.inj hp
    exact Template.render_join ls

end Pattern
end
end KeyPath
