import KeyPath.Proofs.Glob.Match
import KeyPath.Proofs.Template.Rendering

/-!
Putting captures back. When every star of a written key is replaced by the reference to what it captured, the
key becomes a template (`Glob.spelling_refillRest`). On a trail that ends with a match of the glob this
template renders to the key that was matched, and so it matches that key again (`refill_renders_matched_key`).
-/
namespace KeyPath
set_option autoImplicit false

/-! ## References in the place of stars -/

/-- The reference to a capture of the newest node. -/
def Reference.writeGroup (n : Nat) : Text := '&' :: '(' :: (Numeral.write n ++ [')'])

theorem Reference.mem_writeGroup {n : Nat} {c : Char} (hc : c ∈ writeGroup n) : c = '&' ∨ isBodyChar c = true := by
  simp only [writeGroup, List.mem_cons, List.mem_append, List.not_mem_nil, or_false] at hc
  rcases hc with rfl | rfl | hc | rfl
  · exact .inl rfl
  · exact .inr rfl
  · exact .inr (isBodyChar_of_isDigit (List.all_eq_true.mp (Numeral.isDigit_write n) c hc))
  · exact .inr rfl

namespace Glob

/-- The written key with the reference to its capture in the place of every star. -/
def refill (g : Glob) : Text := g.fill ((List.range' 1 g.stars).map Reference.writeGroup)

/-- The pieces of the segments, with the captures from the `n`-th one on in front of them. -/
def refillPieces : Nat → List Text → Template
  | _, [] => []
  | n, s :: segments => .insert ⟨0, n⟩ :: ((Piece.text s).letters ++ refillPieces (n + 1) segments)

theorem mem_fillRest {segments captures : List Text} {c : Char} (hc : c ∈ fillRest segments captures) :
    (∃ s ∈ segments, c ∈ s) ∨ ∃ u ∈ captures, c ∈ u := by
  induction segments generalizing captures with
  | nil => cases hc
  | cons s segments ih =>
    cases captures with
    | nil => cases hc
    | cons u captures =>
      rw [fillRest, List.mem_append, List.mem_append] at hc
      rcases hc with (hc | hc) | hc
      · exact .inr ⟨u, List.mem_cons_self, hc⟩
      · exact .inl ⟨s, List.mem_cons_self, hc⟩
      · rcases ih hc with ⟨s', hs', hc⟩ | ⟨u', hu', hc⟩
        · exact .inl ⟨s', List.mem_cons_of_mem s hs', hc⟩
        · exact .inr ⟨u', List.mem_cons_of_mem u hu', hc⟩

/-- The key holds nothing but its segments and the signs of references. -/
theorem mem_refill {g : Glob} {c : Char} (hc : c ∈ g.refill) :
    (∃ s ∈ g.first :: g.rest, c ∈ s) ∨ c = '&' ∨ Reference.isBodyChar c = true := by
  rcases List.mem_append.mp hc with hc | hc
  · exact .inl ⟨g.first, List.mem_cons_self, hc⟩
  · rcases mem_fillRest hc with ⟨s, hs, hc⟩ | ⟨u, hu, hc⟩
    · exact .inl ⟨s, List.mem_cons_of_mem _ hs, hc⟩
    · obtain ⟨n, -, rfl⟩ := List.mem_map.mp hu
      exact .inr (Reference.mem_writeGroup hc)

theorem fillRest_references_cons (n : Nat) (s : Text) (segments : List Text) :
    fillRest (s :: segments) ((List.range' n (s :: segments).length).map Reference.writeGroup) =
      Reference.writeGroup n ++
        (s ++ fillRest segments ((List.range' (n + 1) segments.length).map Reference.writeGroup)) := by
  rw [List.length_cons, List.range'_succ, List.map_cons, fillRest, List.append_assoc]

theorem head?_fillRest_references (n : Nat) (segments : List Text) {c : Char}
    (hc : (fillRest segments ((List.range' n segments.length).map Reference.writeGroup)).head? = some c) :
    c = '&' := by
  cases segments with
  | nil => cases hc
  | cons s segments =>
    rw [fillRest_references_cons] at hc
    exact (Option.some.inj hc).symm

/-- Where no segment goes on with what the reference in front of it would take in, every reference is read as
it was written. -/
theorem spelling_refillRest {n : Nat} {segments : List Text} (hbound : n + segments.length ≤ Numeral.bound)
    (hplain : ∀ s ∈ segments, ∀ c ∈ s, c ≠ '&' ∧ c ≠ '[')
    (hstart : ∀ s ∈ segments, ∀ c, s.head? = some c → Reference.isBodyChar c = false) :
    Template.Spelling (fillRest segments ((List.range' n segments.length).map Reference.writeGroup)) []
      (refillPieces n segments) := by
  induction segments generalizing n with
  | nil => exact .done
  | cons s segments ih =>
    rw [List.length_cons] at hbound
    have hrest := ih (n := n + 1) (by omega) (fun s' hs' => hplain s' (List.mem_cons_of_mem s hs'))
      fun s' hs' => hstart s' (List.mem_cons_of_mem s hs')
    have hn : Numeral.Denotes (Numeral.write n) n := Numeral.denotes_write (by omega)
    rw [fillRest_references_cons, refillPieces]
    refine .step (.insert (.group hn) ?_)
      ((Template.spelling_letters_text (hplain s List.mem_cons_self) _).append hrest)
    intro c hc
    cases s with
    | nil =>
      rw [List.nil_append, List.append_nil] at hc
      obtain rfl := head?_fillRest_references (n + 1) segments hc
      decide
    | cons d s => exact hstart (d :: s) List.mem_cons_self c hc

/-! ## Rendering the references -/

/-- The references from the `n`-th capture on give back the captures from there on. -/
theorem render_refillPieces (t : Trail) (key : Text) (groups : List Text) {n : Nat} {segments captures : List Text}
    (hdrop : (key :: groups).drop n = captures) (hlen : captures.length = segments.length) :
    Template.render (t.push (.leaf (.exact key groups))) (refillPieces n segments) =
      .ok (fillRest segments captures) := by
  induction segments generalizing n captures with
  | nil =>
    obtain rfl : captures = [] := List.length_eq_zero_iff.mp hlen
    rfl
  | cons s segments ih =>
    cases captures with
    | nil => exact absurd hlen.symm (Nat.succ_ne_zero _)
    | cons u captures =>
      have hget : (key :: groups)[n]? = some u := by
        rw [← List.head?_drop, hdrop]
        rfl
      have hnext : (key :: groups).drop (n + 1) = captures := by
        rw [← List.tail_drop, hdrop]
        rfl
      have hinsert : (Piece.insert ⟨0, n⟩).render (t.push (.leaf (.exact key groups))) = .ok u := by
        change Pattern.capture (.leaf (.exact key groups)) n = .ok u
        rw [Pattern.capture, hget]
      rw [refillPieces, Template.render_cons, Template.render_append, hinsert, Template.render_letters_text,
        ih hnext (Nat.succ.inj hlen), fillRest]
      simp [Except.map]

/-! ## The key of the references -/

def refillTemplate (g : Glob) : Template := (Piece.text g.first).letters ++ refillPieces 1 g.rest

theorem render_refillTemplate {g : Glob} {key : Text} {captures : List Text} (h : g.Fills key captures) (t : Trail) :
    Template.render (t.push (.leaf (.exact key captures))) g.refillTemplate = .ok key := by
  obtain ⟨hlen, hfill⟩ := h
  have hrest : Template.render (t.push (.leaf (.exact key captures))) (refillPieces 1 g.rest) =
      .ok (fillRest g.rest captures) := render_refillPieces t key captures rfl hlen
  rw [refillTemplate, Template.render_append, Template.render_letters_text, hrest, ← hfill]
  rfl

theorem ampersand_mem_refill {g : Glob} (hstars : g.rest ≠ []) : '&' ∈ g.refill := by
  obtain ⟨s, segments, hrest⟩ := List.exists_cons_of_ne_nil hstars
  rw [refill, fill, stars, hrest, fillRest_references_cons]
  exact List.mem_append_right _ (List.mem_append_left _ List.mem_cons_self)

theorem outcome_ofKey_refill [Engine] {g : Glob} (hstars : g.rest ≠ []) (hsize : g.stars + 1 < Numeral.bound)
    (hfree : ∀ s ∈ g.first :: g.rest, ∀ c ∈ s, c ≠ '&' ∧ c ≠ '[' ∧ c ≠ '|' ∧ c ≠ '*')
    (hstart : ∀ s ∈ g.rest, ∀ c, s.head? = some c → Reference.isBodyChar c = false) :
    (Pattern.ofKey g.refill).outcome = .ok (.leaf (.template g.refill (Template.join g.refillTemplate))) := by
  have hno : ∀ c, c ≠ '&' → Reference.isBodyChar c = false → (∀ s ∈ g.first :: g.rest, c ∉ s) → c ∉ g.refill := by
    intro c hamp hbody hsegment hc
    rcases mem_refill hc with ⟨s, hs, hc⟩ | hc | hc
    · exact hsegment s hs hc
    · exact hamp hc
    · rw [hbody] at hc
      cases hc
  have hbar : '|' ∉ g.refill := hno _ (by decide) (by decide) fun s hs hc => (hfree s hs _ hc).2.2.1 rfl
  have hstar : '*' ∉ g.refill := hno _ (by decide) (by decide) fun s hs hc => (hfree s hs _ hc).2.2.2 rfl
  have hplain : ∀ s ∈ g.first :: g.rest, ∀ c ∈ s, c ≠ '&' ∧ c ≠ '[' :=
    fun s hs c hc => ⟨(hfree s hs c hc).1, (hfree s hs c hc).2.1⟩
  have hbound : 1 + g.rest.length ≤ Numeral.bound := by
    rw [stars] at hsize
    omega
  have hrest := spelling_refillRest hbound (fun s hs => hplain s (List.mem_cons_of_mem _ hs)) hstart
  exact Pattern.outcome_ofKey_of_spelling (Text.hasTemplateSign_iff.mpr (.inl (ampersand_mem_refill hstars))) hbar hstar
    ((Template.spelling_letters_text (hplain _ List.mem_cons_self) _).append hrest)

end Glob

/-- With references to its captures in the place of its stars, a key compiles to a template, and below any
match of the key this template renders to the text that was matched, and matches it. -/
theorem refill_renders_matched_key [Engine] [Engine.LeftmostFirst] [Engine.WordSized] {s₀ : Text}
    {ss : List Text} {p : Pattern} (hfree : ∀ s ∈ s₀ :: ss, '*' ∉ s)
    (hp : (Pattern.ofKey (['*'].intercalate (s₀ :: ss))).outcome = .ok p) (hkind : p.kind = .glob)
    (hstart : ∀ s ∈ ss, ∀ c, s.head? = some c → Reference.isBodyChar c = false) :
    ∃ q, (Pattern.ofKey (Glob.refill ⟨s₀, ss⟩)).outcome = .ok q ∧ q.kind = .template ∧
      ∀ (t : Trail) (key : Text) (m : Leaf), (p.accept key t).outcome = .ok (some m) →
        q.render (t.push (.leaf m)) = .ok key ∧
          ∃ m', (q.accept key (t.push (.leaf m))).outcome = .ok (some m') := by
  obtain ⟨⟨hbar, hsign, hstar⟩, htaken, rfl⟩ := Pattern.glob_of_ofKey hp hkind
  rw [Glob.ofKey_intercalate hfree] at htaken ⊢
  have hstars : ss ≠ [] := by
    rintro rfl
    rw [List.intercalate_singleton] at hstar
    exact hfree s₀ List.mem_cons_self hstar
  have hsegments : ∀ s ∈ s₀ :: ss, ∀ c ∈ s, c ≠ '&' ∧ c ≠ '[' ∧ c ≠ '|' ∧ c ≠ '*' := by
    intro s hs c hc
    have hmem : c ∈ ['*'].intercalate (s₀ :: ss) := Text.mem_intercalate hs hc
    obtain ⟨hamp, hbracket⟩ := Text.not_sign_of_hasTemplateSign hsign c hmem
    refine ⟨hamp, hbracket, ?_, ?_⟩
    · rintro rfl
      exact hbar hmem
    · rintro rfl
      exact hfree s hs hc
  refine ⟨_, Glob.outcome_ofKey_refill hstars (Glob.stars_lt_of_refusal? htaken) hsegments hstart, rfl, ?_⟩
  intro t key m hm
  rw [Pattern.outcome_accept_leaf, Leaf.accept_eq_some_iff] at hm
  cases hm with
  | @glob _ cs hcs =>
    have hrender := Glob.render_refillTemplate (Glob.fills_of_groups? hcs) t
    rw [← Template.render_join] at hrender
    refine ⟨hrender, .exact key [], ?_⟩
    rw [Pattern.outcome_accept_leaf, Leaf.accept_eq_some_iff]
    exact .template hrender

open scoped Tabled

/-- The text between the stars stands twice in the key, and each reference takes up its own side of it. -/
theorem refill_renders_matched_key_twice :
    ∃ q, (Pattern.ofKey "&(1)b&(2)".toList).outcome = .ok q ∧ q.kind = .template ∧
      q.render ⟨[.leaf (.exact "xbyb".toList [['x'], ['y', 'b']])]⟩ = .ok "xbyb".toList := by
  have hfree : ∀ s ∈ [[], ['b'], []], '*' ∉ s := by decide
  have hp : (Pattern.ofKey (['*'].intercalate [[], ['b'], []])).outcome =
      .ok (.leaf (.glob ⟨[], [['b'], []]⟩)) := rfl
  have hstart : ∀ s ∈ [['b'], []], ∀ c, s.head? = some c → Reference.isBodyChar c = false := by
    intro s hs c hc
    rcases List.mem_pair.mp hs with rfl | rfl
    · obtain rfl := Option.some.inj hc
      rfl
    · cases hc
  obtain ⟨q, hq, hkind, hmatch⟩ := refill_renders_matched_key hfree hp rfl hstart
  exact ⟨q, hq, hkind, (hmatch .empty "xbyb".toList (.exact "xbyb".toList [['x'], ['y', 'b']]) rfl).1⟩

end KeyPath
