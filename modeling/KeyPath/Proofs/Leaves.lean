import KeyPath.Proofs.Decision
import KeyPath.Proofs.Descent
import Mathlib.Data.List.Forall2

/-!
Patterns that ask the same leaves. How the leaves of a pattern are put together to choices makes no difference:
the first leaf that matches or fails has the last word, and no leaf behind it is asked (`accept_by_leaves`). So
patterns with the same leaves can stand for each other, at one level and in a whole spec
(`Spec.outcome_accept_of_leaves`).
-/
namespace KeyPath
set_option autoImplicit false

namespace Pattern

/-! ## Leaves of choices -/

theorem leavesAll_map_leaf (ls : List Leaf) : leavesAll (ls.map leaf) = ls := by
  induction ls with
  | nil => rfl
  | cons l ls ih =>
    rw [List.map_cons, leavesAll, ih]
    rfl

/-- A choice among the branches of a choice offers the same leaves as the branches themselves. -/
theorem leaves_choice_in_choice (ps qs rs : List Pattern) :
    (choice (ps ++ choice qs :: rs)).leaves = (choice (ps ++ qs ++ rs)).leaves := by
  simp only [leaves, leavesAll_eq_flatMap, List.flatMap_append, List.flatMap_cons, List.append_assoc]

/-! ## Matching -/

variable [Engine] {key : Text} {t : Trail} {p q : Pattern}

theorem outcome_accept_of_leaves (h : p.leaves = q.leaves) (key : Text) (t : Trail) :
    (p.accept key t).outcome = (q.accept key t).outcome := by
  rw [outcome_accept, outcome_accept, h]

theorem outcome_accept_eq_none_iff :
    (p.accept key t).outcome = .ok none ↔ ∀ l ∈ p.leaves, (accept key t (leaf l)).outcome = .ok none := by
  simp only [outcome_accept_leaf]
  rw [outcome_accept, firstDecision_eq_none_iff, List.forall_mem_map]

theorem outcome_accept_eq_iff {x : Except Fault (Option Leaf)} (hx : x ≠ .ok none) :
    (p.accept key t).outcome = x ↔
      ∃ (before : List Leaf) (l : Leaf) (behind : List Leaf), p.leaves = before ++ l :: behind ∧
        (∀ m ∈ before, (accept key t (leaf m)).outcome = .ok none) ∧ (accept key t (leaf l)).outcome = x := by
  simp only [outcome_accept_leaf]
  rw [outcome_accept, firstDecision_eq_iff hx]
  constructor
  · rintro ⟨before, behind, hleaves, hbefore⟩
    obtain ⟨ls, rest, hsplit, rfl, hrest⟩ := List.map_eq_append_iff.mp hleaves
    obtain ⟨l, ms, rfl, hl, -⟩ := List.map_eq_cons_iff.mp hrest
    exact ⟨ls, l, ms, hsplit, List.forall_mem_map.mp hbefore, hl⟩
  · rintro ⟨before, l, behind, hleaves, hbefore, rfl⟩
    refine ⟨before.map (Leaf.accept key t), behind.map (Leaf.accept key t), ?_, List.forall_mem_map.mpr hbefore⟩
    rw [hleaves, List.map_append, List.map_cons]

/-- More leaves behind those of a pattern that is decided do not change the decision. -/
theorem outcome_accept_of_leaves_append {more : List Leaf} (h : q.leaves = p.leaves ++ more)
    (hdecided : (p.accept key t).outcome ≠ .ok none) :
    (q.accept key t).outcome = (p.accept key t).outcome := by
  obtain ⟨before, l, behind, hleaves, hbefore, hl⟩ := (outcome_accept_eq_iff hdecided).mp rfl
  refine (outcome_accept_eq_iff hdecided).mpr ⟨before, l, behind ++ more, ?_, hbefore, hl⟩
  rw [h, hleaves, List.append_assoc, List.cons_append]

end Pattern

/-! ## Paths -/

theorem Trail.outcome_descend_of_leaves [Engine] {ps qs : Spec}
    (h : List.Forall₂ (fun p q => p.leaves = q.leaves) ps qs) (t : Trail) (keys : List Text) :
    (t.descend ps keys).outcome = (t.descend qs keys).outcome := by
  induction h generalizing t keys with
  | nil => rfl
  | @cons p q ps qs hleaves _ ih =>
    cases keys with
    | nil => rfl
    | cons key keys =>
      rw [outcome_descend_cons, outcome_descend_cons, outcome_enter, outcome_enter,
        Pattern.outcome_accept_of_leaves hleaves]
      simp only [ih]

/-- Specs whose levels have the same leaves match the same paths, with the same trails and the same faults. -/
theorem Spec.outcome_accept_of_leaves [Engine] {ps qs : Spec} (h : List.Forall₂ (fun p q => p.leaves = q.leaves) ps qs)
    (keys : List Text) : (ps.accept keys).outcome = (qs.accept keys).outcome := by
  by_cases hlen : ps.length = keys.length
  · rw [accept_eq_descend hlen, accept_eq_descend (h.length_eq ▸ hlen), Trail.outcome_descend_of_leaves h]
  · rw [outcome_accept_of_ne hlen, outcome_accept_of_ne (h.length_eq ▸ hlen)]

/-- A pattern does not match if none of its leaves does, and otherwise its outcome is that of the first leaf that
matches or fails. Nothing but the leaves and their order counts, so choices can be regrouped, flattened and left
out where they are empty, and leaves behind the one that decides cannot change the outcome. -/
theorem accept_by_leaves [Engine] (p : Pattern) (key : Text) (t : Trail) :
    ((p.accept key t).outcome = .ok none ↔
        ∀ l ∈ p.leaves, (Pattern.accept key t (.leaf l)).outcome = .ok none) ∧
      (∀ x : Except Fault (Option Leaf), x ≠ .ok none →
        ((p.accept key t).outcome = x ↔
          ∃ (before : List Leaf) (l : Leaf) (behind : List Leaf), p.leaves = before ++ l :: behind ∧
            (∀ m ∈ before, (Pattern.accept key t (.leaf m)).outcome = .ok none) ∧
            (Pattern.accept key t (.leaf l)).outcome = x)) ∧
      (∀ q : Pattern, q.leaves = p.leaves → (q.accept key t).outcome = (p.accept key t).outcome) ∧
      (∀ (q : Pattern) (more : List Leaf), q.leaves = p.leaves ++ more → (p.accept key t).outcome ≠ .ok none →
        (q.accept key t).outcome = (p.accept key t).outcome) ∧
      ((Pattern.choice (p.leaves.map .leaf)).accept key t).outcome = (p.accept key t).outcome ∧
      ∀ ps qs rs : List Pattern, ((Pattern.choice (ps ++ .choice qs :: rs)).accept key t).outcome =
        ((Pattern.choice (ps ++ qs ++ rs)).accept key t).outcome := by
  refine ⟨Pattern.outcome_accept_eq_none_iff, fun x hx => Pattern.outcome_accept_eq_iff hx,
    fun q hq => Pattern.outcome_accept_of_leaves hq key t,
    fun q more hq hdecided => Pattern.outcome_accept_of_leaves_append hq hdecided, ?_, ?_⟩
  · apply Pattern.outcome_accept_of_leaves
    exact Pattern.leavesAll_map_leaf p.leaves
  · intro ps qs rs
    exact Pattern.outcome_accept_of_leaves (Pattern.leaves_choice_in_choice ps qs rs) key t

end KeyPath
