import KeyPath.Proofs.Scope

/-!
Relocation. Rendering and matching see no more of a trail than what their references stand for
(`Template.render_congr`, `Pattern.outcome_accept_congr`), and a reference counts from the newest node. So a
spec whose references go up no further than its own first level can stand below any matched path: what it
matches, and what is rendered from it, does not depend on the path (`accept_below_matched_path_iff`).
-/
namespace KeyPath
set_option autoImplicit false

/-! ## What rendering and matching see of a trail -/

section
variable {t u : Trail}

theorem Piece.render_congr {q : Piece} (h : ∀ r, q.reference? = some r → t.resolve r = u.resolve r) :
    q.render t = q.render u := by
  cases q with
  | text s => rfl
  | index n => rfl
  | insert r => exact h r rfl
  | insertIndex r => rw [Piece.render, Piece.render, h r rfl]

theorem Template.render_congr {pieces : Template}
    (h : ∀ q ∈ pieces, ∀ r, q.reference? = some r → t.resolve r = u.resolve r) :
    pieces.render t = pieces.render u := by
  induction pieces with
  | nil => rfl
  | cons q pieces ih =>
    have hq : q.render t = q.render u := Piece.render_congr (h q List.mem_cons_self)
    have hrest := ih fun q' hq' => h q' (List.mem_cons_of_mem q hq')
    rw [Template.render, Template.render, hq, hrest]

namespace Pattern
variable {p : Pattern}

theorem render_template_congr (h : ∀ r ∈ p.references, t.resolve r = u.resolve r) {own : Text}
    {pieces : Template} (hl : Leaf.template own pieces ∈ p.leaves) : pieces.render t = pieces.render u :=
  Template.render_congr fun q hq r hr => h r (List.mem_filterMap.mpr ⟨q, p.mem_pieces hl hq, hr⟩)

theorem outcome_accept_congr [Engine] (h : ∀ r ∈ p.references, t.resolve r = u.resolve r) (key : Text) :
    (p.accept key t).outcome = (p.accept key u).outcome := by
  have hleaf : ∀ l ∈ p.leaves, l.accept key t = l.accept key u := by
    intro l hl
    cases l with
    | exact own groups => rfl
    | glob g => rfl
    | marker own => rfl
    | template own pieces => rw [Leaf.accept, Leaf.accept, render_template_congr h hl]
  rw [outcome_accept, outcome_accept, List.map_congr_left hleaf]

theorem render_congr (h : ∀ r ∈ p.references, t.resolve r = u.resolve r) : p.render t = p.render u := by
  match p, h with
  | .leaf (.exact _ _), _ => rfl
  | .leaf (.glob _), _ => rfl
  | .leaf (.marker _), _ => rfl
  | .leaf (.template own pieces), h =>
    exact render_template_congr h (List.mem_singleton_self (Leaf.template own pieces))
  | .choice _, _ => rfl

end Pattern

theorem Spec.render_congr {outs : Spec} (h : ∀ p ∈ outs, ∀ r ∈ p.references, t.resolve r = u.resolve r) :
    outs.render t = outs.render u := by
  induction outs with
  | nil => rfl
  | cons p outs ih =>
    have hp : p.render t = p.render u := Pattern.render_congr (h p List.mem_cons_self)
    have hrest := ih fun q hq => h q (List.mem_cons_of_mem p hq)
    rw [Spec.render, Spec.render, hp, hrest]

end

/-! ## Trails one below the other -/

namespace Trail

/-- The second trail goes on from where the first one ends. -/
def append (c t : Trail) : Trail := ⟨t.nodes ++ c.nodes⟩

instance : Append Trail := ⟨append⟩

variable (c t : Trail)

@[simp] theorem toList_append : (c ++ t).toList = c.toList ++ t.toList := List.reverse_append

theorem append_right_inj {t u : Trail} : c ++ t = c ++ u ↔ t = u := by
  constructor
  · intro h
    have hnodes : t.nodes ++ c.nodes = u.nodes ++ c.nodes := congrArg Trail.nodes h
    have ht : t.nodes = u.nodes := List.append_cancel_right hnodes
    cases t
    cases u
    exact congrArg Trail.mk ht
  · rintro rfl
    rfl

/-- An outcome with a trail above it tells the outcome apart, whatever that is. -/
theorem outcome_map_append_iff (x : Except Fault (Option Trail)) :
    (∀ d, x.map (Option.map (c ++ ·)) = .ok (some (c ++ d)) ↔ x = .ok (some d)) ∧
      (x.map (Option.map (c ++ ·)) = .ok none ↔ x = .ok none) ∧
      ∀ fault, x.map (Option.map (c ++ ·)) = .error fault ↔ x = .error fault := by
  match x with
  | .error _ => simp [Except.map]
  | .ok none => simp [Except.map]
  | .ok (some _) => simp [Except.map, append_right_inj]

/-- A reference that stays inside the second trail does not see the first one. -/
theorem resolve_append {r : Reference} (hr : r.up < t.depth) : (c ++ t).resolve r = t.resolve r := by
  have hnode : (c ++ t).nodes[r.up]? = t.nodes[r.up]? := List.getElem?_append_left hr
  have hup : (c ++ t).up r.up = t.up r.up := by
    rw [up, up, hnode, List.getElem?_eq_getElem hr]
  rw [resolve, resolve, hup]

end Trail

/-! ## Specs that refer to their own levels only -/

/-- Every reference of the pattern stays among the newest nodes, as many of them as said. -/
def Pattern.Within (depth : Nat) (p : Pattern) : Prop := ∀ r ∈ p.references, r.up < depth

def Spec.SelfContained (levels : Spec) : Prop :=
  ∀ (i : Nat) (p : Pattern), levels[i]? = some p → p.Within i

section
variable {t : Trail}

theorem Pattern.Within.resolve_append {p : Pattern} (h : p.Within t.depth) (c : Trail) :
    ∀ r ∈ p.references, (c ++ t).resolve r = t.resolve r :=
  fun r hr => c.resolve_append t (h r hr)

theorem Pattern.Within.outcome_enter [Engine] {p : Pattern} (h : p.Within t.depth) (c : Trail) (key : Text) :
    ((c ++ t).enter p key).outcome = (t.enter p key).outcome.map (Option.map (c ++ ·)) := by
  rw [Trail.outcome_enter, Trail.outcome_enter, Pattern.outcome_accept_congr (h.resolve_append c)]
  match (p.accept key t).outcome with
  | .error _ => rfl
  | .ok none => rfl
  | .ok (some _) => rfl

theorem Spec.render_append {outs : Spec} (h : ∀ p ∈ outs, p.Within t.depth) (c : Trail) :
    outs.render (c ++ t) = outs.render t :=
  Spec.render_congr fun p hp => (h p hp).resolve_append c

/-- One level more on the trail makes up for the level that the descent has left behind. -/
theorem Trail.outcome_descend_below [Engine] (c : Trail) {levels : Spec}
    (h : ∀ (i : Nat) (p : Pattern), levels[i]? = some p → p.Within (t.depth + i)) (keys : List Text) :
    ((c ++ t).descend levels keys).outcome = (t.descend levels keys).outcome.map (Option.map (c ++ ·)) := by
  induction levels generalizing t keys with
  | nil => rfl
  | cons p levels ih =>
    cases keys with
    | nil => rfl
    | cons key keys =>
      have hp : p.Within t.depth := h 0 p rfl
      rw [Trail.outcome_descend_cons, Trail.outcome_descend_cons, hp.outcome_enter c key]
      match hu : (t.enter p key).outcome with
      | .error _ => rfl
      | .ok none => rfl
      | .ok (some u) =>
        obtain ⟨l, -, rfl⟩ := Trail.exists_leaf_of_enter hu
        apply ih
        intro i q hq
        have hdepth : (t.push (.leaf l)).depth + i = t.depth + (i + 1) := by
          rw [Trail.depth_push]
          omega
        rw [hdepth]
        exact h (i + 1) q hq

end

/-! ## Matching below a matched path -/

namespace Spec

/-- The trail of the whole is the trail of the path followed by that of the spec below it. -/
theorem SelfContained.outcome_accept_append [Engine] {upper lower : Spec} (hlower : lower.SelfContained)
    {ks : List Text} {c : Trail} (hupper : (upper.accept ks).outcome = .ok (some c)) (js : List Text) :
    (Spec.accept (upper ++ lower) (ks ++ js)).outcome =
      (lower.accept js).outcome.map (Option.map (c ++ ·)) := by
  have hlen := length_eq_of_accept hupper
  by_cases hlower_len : lower.length = js.length
  · have hboth : (upper ++ lower).length = (ks ++ js).length := by
      rw [List.length_append, List.length_append, hlen, hlower_len]
    have hbelow : (c.descend lower js).outcome =
        (Trail.empty.descend lower js).outcome.map (Option.map (c ++ ·)) := by
      apply Trail.outcome_descend_below (t := .empty) c
      intro i p hp
      have hi : Trail.empty.depth + i = i := Nat.zero_add i
      rw [hi]
      exact hlower i p hp
    rw [accept_eq_descend hlen] at hupper
    rw [accept_eq_descend hboth, Trail.outcome_descend_append _ _ _ _ _ hlen, hupper,
      accept_eq_descend hlower_len, ← hbelow]
    rfl
  · have hboth : (upper ++ lower).length ≠ (ks ++ js).length := by
      rw [List.length_append, List.length_append]
      omega
    rw [outcome_accept_of_ne hboth, outcome_accept_of_ne hlower_len]
    rfl

end Spec

/-- Below a matched path, a spec that refers to its own levels only matches, does not match or fails just as
it does alone, and an output that refers to its levels only is rendered the same. -/
theorem accept_below_matched_path_iff [Engine] (upper lower : Spec) (ks js : List Text) (c : Trail)
    (hupper : (upper.accept ks).outcome = .ok (some c)) (hlower : lower.SelfContained) :
    (∀ d, (Spec.accept (upper ++ lower) (ks ++ js)).outcome = .ok (some (c ++ d)) ↔
        (lower.accept js).outcome = .ok (some d)) ∧
      ((Spec.accept (upper ++ lower) (ks ++ js)).outcome = .ok none ↔ (lower.accept js).outcome = .ok none) ∧
      (∀ fault, (Spec.accept (upper ++ lower) (ks ++ js)).outcome = .error fault ↔
        (lower.accept js).outcome = .error fault) ∧
      ∀ d, (lower.accept js).outcome = .ok (some d) →
        ∀ outs : Spec, (∀ p ∈ outs, p.Within lower.length) → outs.render (c ++ d) = outs.render d := by
  rw [hlower.outcome_accept_append hupper js]
  obtain ⟨hmatch, hnone, hfault⟩ := c.outcome_map_append_iff (lower.accept js).outcome
  refine ⟨hmatch, hnone, hfault, ?_⟩
  intro d hd outs houts
  rw [← Spec.depth_of_accept hd] at houts
  exact Spec.render_append houts c

open scoped Tabled

/-- The lower spec takes up the later part of its own first key, and the output the earlier one, below a
level that has no such parts. -/
theorem accept_below_matched_path_parts :
    (Spec.accept [.leaf (.exact "root".toList []), .leaf (.glob ⟨[], [['-'], []]⟩),
        .leaf (.template "&(2)".toList [.insert ⟨0, 2⟩])] ["root".toList, "a-b".toList, ['b']]).outcome =
      .ok (some (⟨[.leaf (.exact "root".toList [])]⟩ ++
        ⟨[.leaf (.exact ['b'] []), .leaf (.exact "a-b".toList [['a'], ['b']])]⟩)) ∧
      Spec.render (⟨[.leaf (.exact "root".toList [])]⟩ ++
        ⟨[.leaf (.exact ['b'] []), .leaf (.exact "a-b".toList [['a'], ['b']])]⟩)
        [.leaf (.template "&1(1)".toList [.insert ⟨1, 1⟩])] = .ok [['a']] := by
  have hupper : (Spec.accept [.leaf (.exact "root".toList [])] ["root".toList]).outcome =
      .ok (some ⟨[.leaf (.exact "root".toList [])]⟩) := rfl
  have hlower : Spec.SelfContained [.leaf (.glob ⟨[], [['-'], []]⟩),
      .leaf (.template "&(2)".toList [.insert ⟨0, 2⟩])] := by
    intro i p hp r hr
    match i, hp with
    | 0, hp =>
      obtain rfl := Option.some.inj hp
      cases hr
    | 1, hp =>
      obtain rfl := Option.some.inj hp
      obtain rfl : r = ⟨0, 2⟩ := List.mem_singleton.mp hr
      decide
  have h := accept_below_matched_path_iff _ _ _ ["a-b".toList, ['b']] _ hupper hlower
  have hd : (Spec.accept [.leaf (.glob ⟨[], [['-'], []]⟩), .leaf (.template "&(2)".toList [.insert ⟨0, 2⟩])]
      ["a-b".toList, ['b']]).outcome =
      .ok (some ⟨[.leaf (.exact ['b'] []), .leaf (.exact "a-b".toList [['a'], ['b']])]⟩) := rfl
  refine ⟨(h.1 _).mpr hd, ?_⟩
  rw [h.2.2.2 _ hd]
  · rfl
  · intro p hp r hr
    obtain rfl := List.mem_singleton.mp hp
    obtain rfl : r = ⟨1, 1⟩ := List.mem_singleton.mp hr
    decide

end KeyPath
