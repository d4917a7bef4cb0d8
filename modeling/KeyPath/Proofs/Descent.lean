import KeyPath.Accept
import Mathlib.Data.List.Induction

/-!
Descents level by level. A descent along two paths in a row is the second descent from where the first
one ended (`Trail.outcome_descend_append`), so matching one level more is matching the path and then
entering that level (`Spec.outcome_accept_concat`).
-/
namespace KeyPath
set_option autoImplicit false

variable [Engine]

/-! ## One level -/

namespace Trail

theorem outcome_enter (t : Trail) (p : Pattern) (key : Text) :
    (t.enter p key).outcome = (p.accept key t).outcome.map (Option.map fun l => t.push (.leaf l)) := by
  rw [enter, Logged.outcome_map]
  match (p.accept key t).outcome with
  | .error _ => rfl
  | .ok none => rfl
  | .ok (some _) => rfl

theorem outcome_descend_cons (t : Trail) (p : Pattern) (ps : Spec) (key : Text) (keys : List Text) :
    (t.descend (p :: ps) (key :: keys)).outcome =
      (t.enter p key).outcome >>= fun next => next.elim (.ok none) fun u => (u.descend ps keys).outcome := by
  rw [descend, Logged.outcome_bind]
  match (t.enter p key).outcome with
  | .error _ => rfl
  | .ok none => rfl
  | .ok (some _) => rfl

theorem exists_leaf_of_enter {t u : Trail} {p : Pattern} {key : Text}
    (h : (t.enter p key).outcome = .ok (some u)) :
    ∃ l, (p.accept key t).outcome = .ok (some l) ∧ u = t.push (.leaf l) := by
  rw [outcome_enter] at h
  match hp : (p.accept key t).outcome, h with
  | .ok (some l), h => exact ⟨l, rfl, (Option.some.inj (Except.ok.inj h)).symm⟩

theorem exists_leaf_of_descend_cons {t v : Trail} {p : Pattern} {ps : Spec} {key : Text} {keys : List Text}
    (h : (t.descend (p :: ps) (key :: keys)).outcome = .ok (some v)) :
    ∃ l, (p.accept key t).outcome = .ok (some l) ∧
      ((t.push (.leaf l)).descend ps keys).outcome = .ok (some v) := by
  rw [outcome_descend_cons] at h
  match hu : (t.enter p key).outcome, h with
  | .ok (some u), h =>
    obtain ⟨l, hl, rfl⟩ := exists_leaf_of_enter hu
    exact ⟨l, hl, h⟩

/-! ## Many levels -/

theorem outcome_descend_append (t : Trail) (ps qs : Spec) (ks js : List Text) (hlen : ps.length = ks.length) :
    (t.descend (ps ++ qs) (ks ++ js)).outcome =
      (t.descend ps ks).outcome >>= fun next => next.elim (.ok none) fun u => (u.descend qs js).outcome := by
  induction ps generalizing t ks with
  | nil =>
    obtain rfl : ks = [] := List.length_eq_zero_iff.mp hlen.symm
    rfl
  | cons p ps ih =>
    cases ks with
    | nil => exact absurd hlen (Nat.succ_ne_zero _)
    | cons key ks =>
      rw [List.cons_append, List.cons_append, outcome_descend_cons, outcome_descend_cons]
      match (t.enter p key).outcome with
      | .error _ => rfl
      | .ok none => rfl
      | .ok (some u) => exact ih u ks (Nat.succ.inj hlen)

/-- What relates two trails and is kept by every level relates the trails at the end of two descents. -/
theorem rel_of_descend {R : Trail → Trail → Prop} {levels : Spec} {ks js : List Text} {t u v w : Trail}
    (hks : levels.length = ks.length) (hjs : levels.length = js.length)
    (hstep : ∀ (i : Nat) (p : Pattern) (k j : Text),
      levels[i]? = some p → ks[i]? = some k → js[i]? = some j →
        ∀ (t u : Trail) (l m : Leaf), R t u → (p.accept k t).outcome = .ok (some l) →
          (p.accept j u).outcome = .ok (some m) → R (t.push (.leaf l)) (u.push (.leaf m)))
    (h : R t u) (hv : (t.descend levels ks).outcome = .ok (some v))
    (hw : (u.descend levels js).outcome = .ok (some w)) : R v w := by
  induction levels generalizing ks js t u with
  | nil =>
    obtain rfl : t = v := Option.some.inj (Except.ok.inj hv)
    obtain rfl : u = w := Option.some.inj (Except.ok.inj hw)
    exact h
  | cons p levels ih =>
    obtain ⟨k, ks, rfl⟩ := List.exists_cons_of_length_eq_add_one hks.symm
    obtain ⟨j, js, rfl⟩ := List.exists_cons_of_length_eq_add_one hjs.symm
    obtain ⟨l, hl, hv⟩ := exists_leaf_of_descend_cons hv
    obtain ⟨m, hm, hw⟩ := exists_leaf_of_descend_cons hw
    have hnext := hstep 0 p k j rfl rfl rfl t u l m h hl hm
    exact ih (Nat.succ.inj hks) (Nat.succ.inj hjs) (fun i => hstep (i + 1)) hnext hv hw

end Trail

/-! ## Whole paths -/

namespace Spec

theorem outcome_accept_nil : (Spec.accept [] []).outcome = .ok (some .empty) := rfl

theorem accept_eq_descend {levels : Spec} {keys : List Text} (hlen : levels.length = keys.length) :
    levels.accept keys = Trail.empty.descend levels keys := by
  rw [accept, if_pos hlen]

theorem outcome_accept_of_ne {levels : Spec} {keys : List Text} (hlen : levels.length ≠ keys.length) :
    (levels.accept keys).outcome = .ok none := by
  rw [accept, if_neg hlen]
  rfl

/-- A path is matched up to its last level, and then the last level is entered. -/
theorem outcome_accept_concat (levels : Spec) (p : Pattern) (keys : List Text) (key : Text)
    (hlen : levels.length = keys.length) :
    (Spec.accept (levels ++ [p]) (keys ++ [key])).outcome =
      (levels.accept keys).outcome >>= fun next => next.elim (.ok none) fun t => (t.enter p key).outcome := by
  have hlen' : (levels ++ [p]).length = (keys ++ [key]).length := by
    rw [List.length_append, List.length_append, hlen]
    rfl
  rw [accept_eq_descend hlen, accept_eq_descend hlen', Trail.outcome_descend_append _ _ _ _ _ hlen]
  congr 1
  funext next
  cases next with
  | none => rfl
  | some t =>
    rw [Option.elim_some, Option.elim_some, Trail.outcome_descend_cons]
    match (t.enter p key).outcome with
    | .error _ => rfl
    | .ok none => rfl
    | .ok (some _) => rfl

/-- The levels above the last one matched too, and the last one put one leaf on their trail. -/
theorem exists_of_accept_concat {levels : Spec} {p : Pattern} {keys : List Text} {key : Text} {u : Trail}
    (hlen : levels.length = keys.length)
    (h : (Spec.accept (levels ++ [p]) (keys ++ [key])).outcome = .ok (some u)) :
    ∃ t l, (levels.accept keys).outcome = .ok (some t) ∧ (p.accept key t).outcome = .ok (some l) ∧
      u = t.push (.leaf l) := by
  rw [outcome_accept_concat levels p keys key hlen] at h
  cases ht : (levels.accept keys).outcome with
  | error fault =>
    rw [ht] at h
    cases h
  | ok found =>
    rw [ht] at h
    cases found with
    | none => cases h
    | some t =>
      obtain ⟨l, hl, hu⟩ := Trail.exists_leaf_of_enter h
      exact ⟨t, l, rfl, hl, hu⟩

theorem length_eq_of_accept {levels : Spec} {keys : List Text} {t : Trail}
    (h : (levels.accept keys).outcome = .ok (some t)) : levels.length = keys.length := by
  by_contra hlen
  rw [outcome_accept_of_ne hlen] at h
  cases h

/-- Every level of a matched path matched on the trail of the levels above it. -/
theorem exists_of_accept_getElem? {levels : Spec} {keys : List Text} {t : Trail}
    (h : (levels.accept keys).outcome = .ok (some t)) {i : Nat} {p : Pattern} (hp : levels[i]? = some p) :
    ∃ u key l, (Spec.accept (levels.take i) (keys.take i)).outcome = .ok (some u) ∧ keys[i]? = some key ∧
      (p.accept key u).outcome = .ok (some l) := by
  have hlen := length_eq_of_accept h
  obtain ⟨hi, rfl⟩ := List.getElem?_eq_some_iff.mp hp
  have hi' : i < keys.length := hlen ▸ hi
  have htake : (levels.take i).length = (keys.take i).length := by
    rw [List.length_take, List.length_take, hlen]
  rw [accept_eq_descend hlen] at h
  rw [← List.take_append_drop i levels, ← List.take_append_drop i keys,
    Trail.outcome_descend_append _ _ _ _ _ htake, List.drop_eq_getElem_cons hi,
    List.drop_eq_getElem_cons hi'] at h
  rw [accept_eq_descend htake, List.getElem?_eq_getElem hi']
  match hu : (Trail.empty.descend (levels.take i) (keys.take i)).outcome, h with
  | .ok (some u), h =>
    obtain ⟨l, hl, -⟩ := Trail.exists_leaf_of_descend_cons h
    exact ⟨u, keys[i], l, rfl, rfl, hl⟩

/-- What relates the empty trail to itself and is kept by every level relates the trails of two paths that the
spec matches. -/
theorem rel_of_accept {R : Trail → Trail → Prop} {levels : Spec} {ks js : List Text} {t u : Trail}
    (hempty : R .empty .empty)
    (hstep : ∀ (i : Nat) (p : Pattern) (k j : Text),
      levels[i]? = some p → ks[i]? = some k → js[i]? = some j →
        ∀ (t u : Trail) (l m : Leaf), R t u → (p.accept k t).outcome = .ok (some l) →
          (p.accept j u).outcome = .ok (some m) → R (t.push (.leaf l)) (u.push (.leaf m)))
    (ht : (levels.accept ks).outcome = .ok (some t)) (hu : (levels.accept js).outcome = .ok (some u)) : R t u := by
  have hks := length_eq_of_accept ht
  have hjs := length_eq_of_accept hu
  rw [accept_eq_descend hks] at ht
  rw [accept_eq_descend hjs] at hu
  exact Trail.rel_of_descend hks hjs hstep hempty ht hu

/-- What holds of the empty path and is kept by every level that matches holds of every matched path. -/
theorem accept_induction {motive : Spec → List Text → Trail → Prop} (hnil : motive [] [] .empty)
    (hconcat : ∀ (levels : Spec) (p : Pattern) (keys : List Text) (key : Text) (t : Trail) (l : Leaf),
      motive levels keys t → (p.accept key t).outcome = .ok (some l) →
        motive (levels ++ [p]) (keys ++ [key]) (t.push (.leaf l)))
    {levels : Spec} {keys : List Text} {t : Trail} (h : (levels.accept keys).outcome = .ok (some t)) :
    motive levels keys t := by
  induction levels using List.reverseRecOn generalizing keys t with
  | nil =>
    obtain rfl : keys = [] := List.length_eq_zero_iff.mp (length_eq_of_accept h).symm
    obtain rfl : Trail.empty = t := Option.some.inj (Except.ok.inj h)
    exact hnil
  | append_singleton levels p ih =>
    have hlen := length_eq_of_accept h
    rcases List.eq_nil_or_concat keys with rfl | ⟨ks, key, rfl⟩
    · simp at hlen
    · simp only [List.concat_eq_append, List.length_append, List.length_singleton,
        Nat.add_right_cancel_iff] at hlen h ⊢
      obtain ⟨t, l, ht, hl, rfl⟩ := exists_of_accept_concat hlen h
      exact hconcat levels p ks key t l (ih ht) hl

theorem depth_of_accept {levels : Spec} {keys : List Text} {t : Trail}
    (h : (levels.accept keys).outcome = .ok (some t)) : t.depth = levels.length := by
  refine accept_induction (motive := fun levels _ t => t.depth = levels.length) rfl ?_ h
  intro levels p keys key t l ih _
  rw [Trail.depth_push, ih, List.length_append, List.length_singleton]

end Spec
end KeyPath
