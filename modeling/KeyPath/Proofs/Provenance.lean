import KeyPath.Proofs.Choice
import KeyPath.Proofs.Decision
import KeyPath.Proofs.Descent
import KeyPath.Proofs.Glob.Captures
import KeyPath.Proofs.Template.Writing

/-!
Where texts come from. A compiled level puts nothing onto the trail but parts of the key that it matched
(`Spec.capturesFrom_of_accept`), and a rendering is made of the written key of the output, of sub-keys, and of
numbers in brackets (`Pattern.mem_of_render`). So keys without full stops give parts without full stops, and
the line that is put together from them is cut into the same parts again (`captures_hold_no_stop`).
-/
namespace KeyPath
set_option autoImplicit false

/-! ## Sub-keys are parts of the key -/

/-- Every sub-key of the node stands in the key. -/
def Pattern.CapturesFrom (node : Pattern) (key : Text) : Prop :=
  ∀ n s, node.capture n = .ok s → s <:+: key

theorem Pattern.mem_of_capture {key s : Text} {groups : List Text} {n : Nat}
    (h : (Pattern.leaf (.exact key groups)).capture n = .ok s) : s ∈ key :: groups :=
  List.mem_of_getElem? (capture_exact_eq_ok_iff.mp h)

theorem Pattern.capturesFrom_exact {key : Text} {groups : List Text} (h : ∀ s ∈ groups, s <:+: key) :
    CapturesFrom (.leaf (.exact key groups)) key := by
  intro n s hs
  obtain rfl | hmem := List.mem_cons.mp (mem_of_capture hs)
  · exact List.infix_refl s
  · exact h s hmem

theorem Glob.infix_fillRest {segments captures : List Text} (hlen : captures.length = segments.length) {s : Text}
    (hs : s ∈ captures) : s <:+: fillRest segments captures := by
  induction segments generalizing captures with
  | nil =>
    obtain rfl : captures = [] := List.length_eq_zero_iff.mp hlen
    cases hs
  | cons u segments ih =>
    obtain ⟨c, captures, rfl⟩ := List.exists_cons_of_length_eq_add_one hlen
    rw [fillRest]
    obtain rfl | hs := List.mem_cons.mp hs
    · rw [List.append_assoc]
      exact (List.prefix_append s _).isInfix
    · exact (ih (Nat.succ.inj hlen) hs).trans (List.suffix_append _ _).isInfix

theorem Glob.Fills.isInfix_of_mem {g : Glob} {key : Text} {cs : List Text} (h : g.Fills key cs) {s : Text}
    (hs : s ∈ cs) : s <:+: key := by
  obtain ⟨hlen, rfl⟩ := h
  exact (infix_fillRest hlen hs).trans (List.suffix_append _ _).isInfix

theorem Leaf.Accepts.capturesFrom [Engine] [Engine.LeftmostFirst] {key : Text} {t : Trail} {l m : Leaf}
    (h : Leaf.Accepts key t l m) (hl : ∀ own groups, l = .exact own groups → groups = []) :
    Pattern.CapturesFrom (.leaf m) key := by
  cases h with
  | exact groups =>
    obtain rfl := hl key groups rfl
    exact Pattern.capturesFrom_exact fun s hs => absurd hs List.not_mem_nil
  | glob hcs => exact Pattern.capturesFrom_exact fun s hs => (Glob.fills_of_groups? hcs).isInfix_of_mem hs
  | marker own =>
    intro n s hs
    cases hs
  | template _ => exact Pattern.capturesFrom_exact fun s hs => absurd hs List.not_mem_nil

theorem Pattern.capturesFrom_of_accept [Engine] [Engine.LeftmostFirst] {own : Text} {p : Pattern}
    (hp : (ofKey own).outcome = .ok p) {key : Text} {t : Trail} {m : Leaf}
    (h : (p.accept key t).outcome = .ok (some m)) : CapturesFrom (.leaf m) key := by
  obtain ⟨l, hl, hlm⟩ := p.exists_accepts h
  refine hlm.capturesFrom ?_
  rintro k groups rfl
  obtain ⟨_, -, hkey⟩ := exists_key_of_mem_leaves hp hl
  cases hkey
  rfl

/-- The sub-keys of every node are parts of the key at its level. -/
theorem Spec.capturesFrom_of_accept [Engine] [Engine.LeftmostFirst] {levels : Spec} {keys : List Text} {t : Trail}
    (hlevels : ∀ p ∈ levels, ∃ own, (Pattern.ofKey own).outcome = .ok p)
    (h : (levels.accept keys).outcome = .ok (some t)) :
    List.Forall₂ (fun key node => Pattern.CapturesFrom node key) keys t.toList := by
  refine accept_induction (motive := fun levels keys t =>
    (∀ p ∈ levels, ∃ own, (Pattern.ofKey own).outcome = .ok p) →
      List.Forall₂ (fun key node => Pattern.CapturesFrom node key) keys t.toList) (fun _ => .nil) ?_ h hlevels
  intro levels p keys key t l ih hl hcompiled
  obtain ⟨own, hown⟩ := hcompiled p (List.mem_append_right levels (List.mem_singleton_self p))
  rw [Trail.toList_push]
  exact List.rel_append (ih fun q hq => hcompiled q (List.mem_append_left [p] hq))
    (.cons (Pattern.capturesFrom_of_accept hown hl) .nil)

/-! ## What renderings are made of -/

theorem Trail.exists_node_of_resolve {t : Trail} {r : Reference} {s : Text} (h : t.resolve r = .ok s) :
    ∃ node ∈ t.nodes, node.capture r.group = .ok s := by
  rw [resolve, up] at h
  match hnode : t.nodes[r.up]?, h with
  | some node, h => exact ⟨node, List.mem_of_getElem? hnode, h⟩

theorem Numeral.mem_bracketed_write {n : Nat} {c : Char} (hc : c ∈ Text.bracketed (write n)) :
    c = '[' ∨ c = ']' ∨ c.isDigit = true := by
  simp only [Text.bracketed, List.cons_append, List.mem_cons, List.mem_append, List.not_mem_nil, or_false] at hc
  obtain hopen | hdigit | hclose := hc
  · exact .inl hopen
  · exact .inr (.inr (List.all_eq_true.mp (isDigit_write n) c hdigit))
  · exact .inr (.inl hclose)

/-- The character stands in a sub-key that some reference finds, or belongs to an index in brackets. -/
def Trail.Supplies (t : Trail) (c : Char) : Prop :=
  (∃ r s, t.resolve r = .ok s ∧ c ∈ s) ∨ c = '[' ∨ c = ']' ∨ c.isDigit = true

theorem Piece.mem_of_render {t : Trail} {q : Piece} {s : Text} (h : q.render t = .ok s) {c : Char} (hc : c ∈ s) :
    (∃ u, q = .text u ∧ c ∈ u) ∨ t.Supplies c := by
  cases q with
  | text u =>
    obtain rfl := Except.ok.inj h
    exact .inl ⟨u, rfl, hc⟩
  | index n =>
    obtain rfl := Except.ok.inj h
    exact .inr (.inr (Numeral.mem_bracketed_write hc))
  | insert r => exact .inr (.inl ⟨r, s, h, hc⟩)
  | insertIndex r =>
    cases hu : t.resolve r with
    | error fault =>
      rw [render, hu] at h
      cases h
    | ok u =>
      rw [render_insertIndex hu] at h
      cases hn : Numeral.readSigned? u with
      | none =>
        rw [hn] at h
        cases h
      | some n =>
        rw [hn] at h
        obtain rfl := Except.ok.inj h
        exact .inr (.inr (Numeral.mem_bracketed_write hc))

theorem Template.mem_of_render {t : Trail} {pieces : Template} {s : Text} (h : pieces.render t = .ok s) {c : Char}
    (hc : c ∈ s) : c ∈ pieces.write ∨ t.Supplies c := by
  induction pieces generalizing s with
  | nil =>
    obtain rfl := Except.ok.inj h
    cases hc
  | cons q pieces ih =>
    rw [render_cons, followedBy_eq_ok_iff] at h
    obtain ⟨u, v, hu, hv, rfl⟩ := h
    obtain hc | hc := List.mem_append.mp hc
    · obtain ⟨u', rfl, hcu⟩ | hsupplies := Piece.mem_of_render hu hc
      · exact .inl (List.mem_append_left (write pieces) hcu)
      · exact .inr hsupplies
    · exact (ih hv hc).imp_left (List.mem_append_right q.write)

/-- A sign of no reference stands in the rendering of a compiled key because it stands in the key, or in a
sub-key that was put in. -/
theorem Pattern.mem_of_render [Engine] {key : Text} {p : Pattern} (hp : (ofKey key).outcome = .ok p)
    {t : Trail} {s : Text} (h : p.render t = .ok s) {c : Char} (hc : c ∈ s)
    (hsign : c ≠ '[' ∧ c ≠ ']' ∧ c ≠ '&' ∧ Reference.isBodyChar c = false) :
    c ∈ key ∨ ∃ r u, t.resolve r = .ok u ∧ c ∈ u := by
  by_cases hbar : '|' ∈ key
  · obtain ⟨branches, rfl⟩ := exists_choice_of_bar hbar hp
    cases h
  · obtain ⟨l, rfl, hl⟩ := exists_leaf_of_no_bar hbar hp
    cases hl with
    | glob _ _ _ => cases h
    | marker _ _ _ => cases h
    | exact _ _ _ =>
      obtain rfl : key = s := Except.ok.inj h
      exact .inl hc
    | @template pieces _ _ hread =>
      change pieces.render t = .ok s at h
      obtain hwrite | hsub | hopen | hclose | hdigit := Template.mem_of_render h hc
      · exact .inl ((Template.read_eq_ok_iff.mp hread).1.mem_of_mem_write hwrite hsign)
      · exact .inr hsub
      · exact absurd hopen hsign.1
      · exact absurd hclose hsign.2.1
      · exact absurd (Reference.isBodyChar_of_isDigit hdigit) (Bool.eq_false_iff.mp hsign.2.2.2)

theorem Spec.forall₂_of_render {t : Trail} {outs : Spec} {parts : List Text} (h : Spec.render t outs = .ok parts) :
    List.Forall₂ (fun p s => Pattern.render t p = .ok s) outs parts := by
  induction outs generalizing parts with
  | nil =>
    obtain rfl := Except.ok.inj h
    exact .nil
  | cons p outs ih =>
    rw [Spec.render] at h
    match hs : p.render t, hss : Spec.render t outs, h with
    | .ok s, .ok ss, h =>
      obtain rfl : s :: ss = parts := Except.ok.inj h
      exact .cons hs (ih hss)

/-! ## Full stops -/

theorem Pattern.stop_not_mem_of_render [Engine] {key : Text} {p : Pattern} (hp : (ofKey key).outcome = .ok p)
    (hkey : '.' ∉ key) {t : Trail} (ht : ∀ node ∈ t.nodes, ∀ n s, node.capture n = .ok s → '.' ∉ s) {s : Text}
    (h : p.render t = .ok s) : '.' ∉ s := by
  intro hc
  obtain hc | ⟨r, u, hu, hc⟩ := mem_of_render hp h hc (by decide)
  · exact hkey hc
  · obtain ⟨node, hnode, hcapture⟩ := Trail.exists_node_of_resolve hu
    exact ht node hnode r.group u hcapture hc

/-- Captures bring no full stops onto the trail, and so none into the parts of an output: the line put together
from the parts is cut into the same parts, one for each level. The keys of an input have no full stops, since it
is cut at them. -/
theorem captures_hold_no_stop [Engine] [Engine.LeftmostFirst] {specKeys : List Text} {levels : Spec}
    (hlevels : (Spec.ofKeys specKeys).outcome = .ok levels) {keys : List Text} (hkeys : ∀ key ∈ keys, '.' ∉ key)
    {t : Trail} (ht : (levels.accept keys).outcome = .ok (some t)) :
    List.Forall₂ (fun key node => Pattern.CapturesFrom node key) keys t.toList ∧
      (∀ (output : Text) (outs : Spec) (parts : List Text), (Spec.ofOutput output).outcome = .ok outs → outs ≠ [] →
        outs.render t = .ok parts →
          (∀ s ∈ parts, '.' ∉ s) ∧ Text.segments (Text.dotted parts) = parts ∧ parts.length = outs.length) ∧
      ∀ input : Text, ∀ key ∈ input.segments, '.' ∉ key := by
  have hcompiled : ∀ p ∈ levels, ∃ own, (Pattern.ofKey own).outcome = .ok p := by
    intro p hp
    obtain ⟨own, -, hown⟩ := exists_of_mem_forall₂ (Spec.forall₂_of_ofKeys hlevels) hp
    exact ⟨own, hown⟩
  have hcaptures := Spec.capturesFrom_of_accept hcompiled ht
  have htrail : ∀ node ∈ t.nodes, ∀ n s, node.capture n = .ok s → '.' ∉ s := by
    intro node hnode n s hs hstop
    obtain ⟨key, hkey, hfrom⟩ := exists_of_mem_forall₂ hcaptures (List.mem_reverse.mpr hnode)
    exact hkeys key hkey ((hfrom n s hs).subset hstop)
  refine ⟨hcaptures, ?_, fun input key hkey => Text.stop_not_mem_of_mem_segments hkey⟩
  intro output outs parts houts hne hparts
  have hrendered := Spec.forall₂_of_render hparts
  have hfree : ∀ s ∈ parts, '.' ∉ s := by
    intro s hs
    obtain ⟨p, hp, hps⟩ := exists_of_mem_forall₂ hrendered hs
    obtain ⟨own, hown, hpown⟩ := exists_of_mem_forall₂ (Spec.forall₂_of_ofOutput houts).2 hp
    have hstop : '.' ∉ own := Text.stop_not_mem_of_mem_segments (Text.mem_segments_of_mem_properSegments hown)
    exact Pattern.stop_not_mem_of_render hpown hstop htrail hps
  have hlen : parts.length = outs.length := hrendered.length_eq.symm
  have hparts' : parts ≠ [] := by
    rintro rfl
    exact hne (List.length_eq_zero_iff.mp hlen.symm)
  exact ⟨hfree, Text.segments_dotted hparts' hfree, hlen⟩

open scoped Tabled

/-- One part takes up a later capture, and the other one reads an earlier capture as an index. -/
theorem captures_hold_no_stop_parts :
    List.Forall₂ (fun key node => Pattern.CapturesFrom node key) ["r-5-b".toList, ['5']]
        [.leaf (.exact "r-5-b".toList [['5'], ['b']]), .leaf (.exact ['5'] [])] ∧
      Spec.render ⟨[.leaf (.exact ['5'] []), .leaf (.exact "r-5-b".toList [['5'], ['b']])]⟩
          [.leaf (.template "a&1(2)".toList [.text ['a'], .insert ⟨1, 2⟩]),
            .leaf (.template "[&0]".toList [.insertIndex ⟨0, 0⟩])] = .ok ["ab".toList, "[5]".toList] ∧
      Text.segments "ab.[5]".toList = ["ab".toList, "[5]".toList] := by
  have hsecond : Template.read "&(1)".toList = .ok [.insert ⟨0, 1⟩] := by decide +kernel
  have hpart : Template.read "a&1(2)".toList = .ok [.text ['a'], .insert ⟨1, 2⟩] := by decide +kernel
  have hindex : Template.read "[&0]".toList = .ok [.insertIndex ⟨0, 0⟩] := by decide +kernel
  have hlevels : (Spec.ofKeys ["r-*-*".toList, "&(1)".toList]).outcome =
      .ok [.leaf (.glob ⟨"r-".toList, [['-'], []]⟩), .leaf (.template "&(1)".toList [.insert ⟨0, 1⟩])] :=
    Spec.outcome_ofKeys_of_forall₂
      (.cons rfl (.cons (Pattern.outcome_ofKey_template rfl (by decide) (by decide) hsecond) .nil))
  have houts : (Spec.ofOutput "a&1(2).[&0]".toList).outcome =
      .ok [.leaf (.template "a&1(2)".toList [.text ['a'], .insert ⟨1, 2⟩]),
        .leaf (.template "[&0]".toList [.insertIndex ⟨0, 0⟩])] :=
    Spec.outcome_ofKeys_of_forall₂
      (.cons (Pattern.outcome_ofKey_template rfl (by decide) (by decide) hpart)
        (.cons (Pattern.outcome_ofKey_template rfl (by decide) (by decide) hindex) .nil))
  have ht : (Spec.accept [.leaf (.glob ⟨"r-".toList, [['-'], []]⟩),
      .leaf (.template "&(1)".toList [.insert ⟨0, 1⟩])] ["r-5-b".toList, ['5']]).outcome =
      .ok (some ⟨[.leaf (.exact ['5'] []), .leaf (.exact "r-5-b".toList [['5'], ['b']])]⟩) := rfl
  have h := captures_hold_no_stop hlevels (by decide) ht
  exact ⟨h.1, rfl, (h.2.1 _ _ ["ab".toList, "[5]".toList] houts (List.cons_ne_nil _ _) rfl).2.1⟩

end KeyPath
