import KeyPath.Proofs.Decision
import KeyPath.Proofs.Descent
import KeyPath.Proofs.Dotted
import KeyPath.Proofs.Lookup
import KeyPath.Regex.Tabled

/-!
Reading a matched path back. Every level leaves the key that it was matched to on the trail, or one of its
own markers (`Pattern.keeps_of_accept`), whichever way it matched. So an output that refers to all nodes of
the trail, from the root down, renders to the keys of the path (`matched_path_reads_back`).
-/
namespace KeyPath
set_option autoImplicit false

/-! ## What a level leaves on the trail -/

/-- The node is an exact key that is the key matched, or a marker of the pattern. -/
def Pattern.Keeps (p : Pattern) (key : Text) (node : Pattern) : Prop :=
  (∃ groups, node = .leaf (.exact key groups)) ∨ ∃ own, node = .leaf (.marker own) ∧ Leaf.marker own ∈ p.leaves

theorem Pattern.Keeps.kind {p node : Pattern} {key : Text} (h : p.Keeps key node) :
    node.kind = .exact ∨ node.kind = .marker := by
  rcases h with ⟨groups, rfl⟩ | ⟨own, rfl, -⟩
  · exact .inl rfl
  · exact .inr rfl

theorem Pattern.keeps_of_accept [Engine] {p : Pattern} {key : Text} {t : Trail} {m : Leaf}
    (h : (p.accept key t).outcome = .ok (some m)) : p.Keeps key (.leaf m) := by
  obtain ⟨l, hl, hlm⟩ := p.exists_accepts h
  cases hlm with
  | exact groups => exact .inl ⟨groups, rfl⟩
  | @glob g cs _ => exact .inl ⟨cs, rfl⟩
  | marker own => exact .inr ⟨own, rfl, hl⟩
  | template _ => exact .inl ⟨[], rfl⟩

/-- Every level left its node on the trail, the root first. -/
theorem Spec.keeps_of_accept [Engine] {levels : Spec} {keys : List Text} {t : Trail}
    (h : (levels.accept keys).outcome = .ok (some t)) :
    List.Forall₂ (fun x node => Pattern.Keeps x.1 x.2 node) (levels.zip keys) t.toList := by
  have hboth : levels.length = keys.length ∧
      List.Forall₂ (fun x node => Pattern.Keeps x.1 x.2 node) (levels.zip keys) t.toList := by
    refine accept_induction (motive := fun levels keys t => levels.length = keys.length ∧
      List.Forall₂ (fun x node => Pattern.Keeps x.1 x.2 node) (levels.zip keys) t.toList) ⟨rfl, .nil⟩ ?_ h
    rintro levels p keys key t l ⟨hlen, hkeeps⟩ hl
    constructor
    · rw [List.length_append, List.length_append, hlen]
      rfl
    · rw [List.zip_append hlen, Trail.toList_push]
      exact List.rel_append hkeeps (.cons (Pattern.keeps_of_accept hl) .nil)
  exact hboth.2

theorem Spec.exists_node_of_accept [Engine] {levels : Spec} {keys : List Text} {t : Trail}
    (h : (levels.accept keys).outcome = .ok (some t)) {i : Nat} (hi : i < keys.length) :
    ∃ p node, levels[i]? = some p ∧ t.toList[i]? = some node ∧ p.Keeps keys[i] node := by
  have hkeeps := keeps_of_accept h
  have hi' : i < levels.length := length_eq_of_accept h ▸ hi
  have hzip : i < (levels.zip keys).length := by
    rw [List.length_zip]
    omega
  have hlist : i < t.toList.length := hkeeps.length_eq ▸ hzip
  have hget := hkeeps.get hzip hlist
  simp only [List.get_eq_getElem, List.getElem_zip] at hget
  exact ⟨levels[i], t.toList[i], List.getElem?_eq_getElem hi', List.getElem?_eq_getElem hlist, hget⟩

/-! ## References to a whole path -/

namespace Reference

/-- The reference to the key a number of levels up, in its short form. -/
def writeUp (distance : Nat) : Text := '&' :: Numeral.write distance

variable {distance : Nat}

theorem mem_writeUp {c : Char} (hc : c ∈ writeUp distance) : c = '&' ∨ c.isDigit = true := by
  rcases List.mem_cons.mp hc with rfl | hc
  · exact .inl rfl
  · exact .inr (List.all_eq_true.mp (Numeral.isDigit_write distance) c hc)

theorem not_mem_writeUp {c : Char} (hamp : c ≠ '&') (hdigit : c.isDigit = false) : c ∉ writeUp distance := by
  intro hc
  rcases mem_writeUp hc with rfl | hc
  · exact hamp rfl
  · rw [hdigit] at hc
    cases hc

theorem outcome_ofKey_writeUp [Engine] (h : distance < Numeral.bound) :
    (Pattern.ofKey (writeUp distance)).outcome =
      .ok (.leaf (.template (writeUp distance) [.insert ⟨distance, 0⟩])) := by
  have hspelling : Template.Spelling (writeUp distance ++ []) [] [.insert ⟨distance, 0⟩] := by
    refine .step (.insert (.up (Numeral.denotes_write h)) ?_) .done
    intro c hc
    cases hc
  rw [List.append_nil] at hspelling
  exact Pattern.outcome_ofKey_of_spelling (Text.hasTemplateSign_iff.mpr (.inl List.mem_cons_self))
    (not_mem_writeUp (by decide) (by decide)) (not_mem_writeUp (by decide) (by decide)) hspelling

end Reference

namespace Trail

/-- The output that refers to every node of a trail of the given depth, the root first. -/
def pathOutput (depth : Nat) : Text := Text.dotted ((List.range depth).reverse.map Reference.writeUp)

theorem mem_pathOutput {depth : Nat} {c : Char} (hc : c ∈ pathOutput depth) :
    c = '.' ∨ c = '&' ∨ c.isDigit = true := by
  rcases Text.mem_dotted hc with hc | ⟨s, hs, hc⟩
  · exact .inl hc
  · obtain ⟨d, -, rfl⟩ := List.mem_map.mp hs
    exact .inr (Reference.mem_writeUp hc)

theorem properSegments_pathOutput (depth : Nat) :
    (pathOutput depth).properSegments = (List.range depth).reverse.map Reference.writeUp := by
  apply Text.properSegments_dotted
  · intro s hs
    obtain ⟨d, -, rfl⟩ := List.mem_map.mp hs
    exact Reference.not_mem_writeUp (by decide) (by decide)
  · intro s hs
    obtain ⟨d, -, rfl⟩ := List.mem_map.mp (List.mem_of_getLast? hs)
    exact List.cons_ne_nil _ _

end Trail

namespace Spec

/-- The levels of that output: each is a template that is one reference. -/
def ofPathOutput (depth : Nat) : Spec :=
  (List.range depth).reverse.map fun d => .leaf (.template (Reference.writeUp d) [.insert ⟨d, 0⟩])

theorem outcome_ofOutput_pathOutput [Engine] {depth : Nat} (h : depth ≤ Numeral.bound) :
    (ofOutput (Trail.pathOutput depth)).outcome = .ok (ofPathOutput depth) := by
  have hat : '@' ∉ Trail.pathOutput depth := fun hc => absurd (Trail.mem_pathOutput hc) (by decide)
  have hstar : '*' ∉ Trail.pathOutput depth := fun hc => absurd (Trail.mem_pathOutput hc) (by decide)
  rw [ofOutput_of_no_sign hat hstar, Trail.properSegments_pathOutput]
  apply outcome_ofKeys_of_forall₂
  rw [ofPathOutput, List.forall₂_map_left_iff, List.forall₂_map_right_iff, List.forall₂_same]
  intro d hd
  have hlt : d < depth := List.mem_range.mp (List.mem_reverse.mp hd)
  exact Reference.outcome_ofKey_writeUp (Nat.lt_of_lt_of_le hlt h)

theorem render_of_forall₂ {t : Trail} {outs : Spec} {parts : List Text}
    (h : List.Forall₂ (fun p s => Pattern.render t p = .ok s) outs parts) : outs.render t = .ok parts := by
  induction h with
  | nil => rfl
  | cons hp _ ih =>
    rw [Spec.render, hp, ih]
    rfl

end Spec

theorem Trail.resolve_from_root {t : Trail} {i : Nat} {key : Text} {groups : List Text}
    (h : t.toList[i]? = some (.leaf (.exact key groups))) : t.resolve ⟨t.depth - 1 - i, 0⟩ = .ok key := by
  have hlt : i < t.toList.length := (List.getElem?_eq_some_iff.mp h).1
  rw [length_toList] at hlt
  have hplace : i + (t.depth - 1 - i) + 1 = t.depth := by omega
  exact resolve_of_yields (.key hplace h rfl)

/-- A trail of exact keys gives its keys to the output that refers to all its nodes. -/
theorem Trail.render_ofPathOutput {t : Trail} {keys : List Text}
    (h : List.Forall₂ (fun key node => ∃ groups, node = Pattern.leaf (.exact key groups)) keys t.toList) :
    (Spec.ofPathOutput t.depth).render t = .ok keys := by
  have hlen : keys.length = t.depth := by rw [h.length_eq, length_toList]
  apply Spec.render_of_forall₂
  rw [List.forall₂_iff_get]
  refine ⟨by simp [Spec.ofPathOutput, hlen], ?_⟩
  intro i hi hi'
  have hnode : i < t.toList.length := h.length_eq ▸ hi'
  obtain ⟨groups, hgroups⟩ := h.get hi' hnode
  have hget : t.toList[i]? = some (.leaf (.exact keys[i] groups)) := by
    rw [List.getElem?_eq_getElem hnode]
    exact congrArg some hgroups
  have hp : (Spec.ofPathOutput t.depth).get ⟨i, hi⟩ =
      .leaf (.template (Reference.writeUp (t.depth - 1 - i)) [.insert ⟨t.depth - 1 - i, 0⟩]) := by
    simp [Spec.ofPathOutput]
  rw [hp]
  have hrender := Trail.resolve_from_root hget
  change followedBy (t.resolve ⟨t.depth - 1 - i, 0⟩) (.ok []) = .ok keys[i]
  rw [hrender, followedBy_nil]

/-! ## The whole path -/

/-- A matched path has one node for each of its keys, and the node is an exact key that is the key or a marker
of the level, and of no other kind. Where the levels have no markers, the output that refers to all nodes
compiles and renders to the keys. -/
theorem matched_path_reads_back [Engine] (levels : Spec) (keys : List Text) (t : Trail)
    (h : (levels.accept keys).outcome = .ok (some t)) :
    t.toList.length = keys.length ∧
      (∀ (i : Nat) (hi : i < keys.length), ∃ p node, levels[i]? = some p ∧ t.toList[i]? = some node ∧
        ((∃ groups, node = .leaf (.exact keys[i] groups)) ∨
          ∃ own, node = .leaf (.marker own) ∧ Leaf.marker own ∈ p.leaves)) ∧
      (∀ node ∈ t.toList, node.kind ≠ .glob ∧ node.kind ≠ .template ∧ node.kind ≠ .choice) ∧
      ((∀ p ∈ levels, ∀ own, Leaf.marker own ∉ p.leaves) → keys.length < Numeral.bound →
        ∃ outs, (Spec.ofOutput (Trail.pathOutput keys.length)).outcome = .ok outs ∧ outs.render t = .ok keys) := by
  have hdepth : t.depth = keys.length := by rw [Spec.depth_of_accept h, Spec.length_eq_of_accept h]
  have hlist : t.toList.length = keys.length := by rw [Trail.length_toList, hdepth]
  have hnode : ∀ (i : Nat) (hi : i < keys.length) (hi' : i < t.toList.length),
      ∃ p ∈ levels, p.Keeps keys[i] t.toList[i] := by
    intro i hi hi'
    obtain ⟨p, node, hp, hget, hkeep⟩ := Spec.exists_node_of_accept h hi
    obtain rfl : t.toList[i] = node := (List.getElem?_eq_some_iff.mp hget).2
    exact ⟨p, List.mem_of_getElem? hp, hkeep⟩
  refine ⟨hlist, fun i hi => Spec.exists_node_of_accept h hi, ?_, ?_⟩
  · intro node hmem
    obtain ⟨i, hi, rfl⟩ := List.mem_iff_getElem.mp hmem
    obtain ⟨p, -, hkeep⟩ := hnode i (hlist ▸ hi) hi
    rcases hkeep.kind with hkind | hkind <;> rw [hkind] <;> decide
  · intro hmarker hbound
    refine ⟨_, Spec.outcome_ofOutput_pathOutput (Nat.le_of_lt hbound), ?_⟩
    rw [← hdepth]
    apply Trail.render_ofPathOutput
    rw [List.forall₂_iff_get]
    refine ⟨hlist.symm, ?_⟩
    intro i hi hi'
    obtain ⟨p, hp, hexact | ⟨own, -, hown⟩⟩ := hnode i hi hi'
    · exact hexact
    · exact absurd hown (hmarker p hp own)

open scoped Tabled

/-- The second level takes its key from the first one, by the second branch of a choice. -/
theorem matched_path_reads_back_choice :
    ∃ outs, (Spec.ofOutput "&1.&0".toList).outcome = .ok outs ∧
      outs.render ⟨[.leaf (.exact ['b'] []), .leaf (.exact "a-b".toList [['a'], ['b']])]⟩ =
        .ok ["a-b".toList, ['b']] := by
  have h : (Spec.accept [.leaf (.glob ⟨[], [['-'], []]⟩),
      .choice [.leaf (.exact ['c'] []), .leaf (.template "&(2)".toList [.insert ⟨0, 2⟩])]]
      ["a-b".toList, ['b']]).outcome =
      .ok (some ⟨[.leaf (.exact ['b'] []), .leaf (.exact "a-b".toList [['a'], ['b']])]⟩) := rfl
  refine (matched_path_reads_back _ _ _ h).2.2.2 ?_ (by decide)
  intro p hp own hown
  rcases List.mem_pair.mp hp with rfl | rfl
  · cases List.mem_singleton.mp hown
  · rcases List.mem_pair.mp hown with hown | hown <;> cases hown

end KeyPath
