import KeyPath.Accept

/-!
Which leaf decides a match. A pattern asks its leaves from the left and stops at the first one that
matches or fails (`Pattern.outcome_accept`), so every match and every fault comes from one leaf
(`Pattern.exists_leaf_of_accept`).
-/
namespace KeyPath
set_option autoImplicit false

/-! ## The first decision of several -/

/-- Whether an outcome settles the match, so that nothing else is asked. -/
def decides : Except Fault (Option Leaf) → Bool
  | .ok none => false
  | _ => true

/-- The first outcome that settles the match, and no match if there is none. -/
def firstDecision (xs : List (Except Fault (Option Leaf))) : Except Fault (Option Leaf) :=
  (xs.find? decides).getD (.ok none)

theorem decides_iff {x : Except Fault (Option Leaf)} : decides x = true ↔ x ≠ .ok none := by
  match x with
  | .error _ => exact iff_of_true rfl nofun
  | .ok none => exact iff_of_false Bool.false_ne_true fun h => h rfl
  | .ok (some _) => exact iff_of_true rfl nofun

theorem eq_of_not_decides {x : Except Fault (Option Leaf)} (h : decides x = false) : x = .ok none := by
  match x, h with
  | .ok none, _ => rfl

theorem firstDecision_singleton (x : Except Fault (Option Leaf)) : firstDecision [x] = x := by
  unfold firstDecision
  cases h : decides x with
  | true => rw [List.find?_cons_of_pos h, Option.getD_some]
  | false =>
    rw [List.find?_cons_of_neg (by rw [h]; decide), List.find?_nil, Option.getD_none]
    exact (eq_of_not_decides h).symm

theorem firstDecision_append (xs ys : List (Except Fault (Option Leaf))) :
    firstDecision (xs ++ ys) = if decides (firstDecision xs) then firstDecision xs else firstDecision ys := by
  unfold firstDecision
  rw [List.find?_append]
  cases h : xs.find? decides with
  | none => rfl
  | some x =>
    have hx : decides x = true := List.find?_some h
    rw [Option.some_or, Option.getD_some, if_pos hx]

theorem firstDecision_eq_none_iff {xs : List (Except Fault (Option Leaf))} :
    firstDecision xs = .ok none ↔ ∀ x ∈ xs, x = .ok none := by
  unfold firstDecision
  cases hf : xs.find? decides with
  | none =>
    refine iff_of_true rfl fun x hx => eq_of_not_decides ?_
    exact Bool.eq_false_iff.mpr (List.find?_eq_none.mp hf x hx)
  | some y =>
    have hy : y ≠ .ok none := decides_iff.mp (List.find?_some hf)
    rw [Option.getD_some]
    exact iff_of_false hy fun h => hy (h y (List.mem_of_find?_eq_some hf))

/-- What settles the match has nothing but undecided outcomes in front of it. -/
theorem firstDecision_eq_iff {xs : List (Except Fault (Option Leaf))} {x : Except Fault (Option Leaf)}
    (hx : x ≠ .ok none) :
    firstDecision xs = x ↔ ∃ before behind, xs = before ++ x :: behind ∧ ∀ y ∈ before, y = .ok none := by
  unfold firstDecision
  constructor
  · intro h
    cases hf : xs.find? decides with
    | none =>
      rw [hf] at h
      exact absurd h.symm hx
    | some y =>
      rw [hf, Option.getD_some] at h
      subst h
      obtain ⟨-, before, behind, rfl, hbefore⟩ := List.find?_eq_some_iff_append.mp hf
      refine ⟨before, behind, rfl, fun z hz => eq_of_not_decides ?_⟩
      rw [← Bool.not_eq_true']
      exact hbefore z hz
  · rintro ⟨before, behind, rfl, hbefore⟩
    have hf : (before ++ x :: behind).find? decides = some x := by
      refine List.find?_eq_some_iff_append.mpr ⟨decides_iff.mpr hx, before, behind, rfl, fun y hy => ?_⟩
      rw [hbefore y hy]
      rfl
    rw [hf, Option.getD_some]

theorem mem_of_firstDecision {xs : List (Except Fault (Option Leaf))} {x : Except Fault (Option Leaf)}
    (h : firstDecision xs = x) (hx : x ≠ .ok none) : x ∈ xs := by
  obtain ⟨before, behind, rfl, -⟩ := (firstDecision_eq_iff hx).mp h
  exact List.mem_append_right before List.mem_cons_self

/-! ## Leaves -/

variable [Engine]

/-- Which leaves match the key, and what each of them puts onto the trail. -/
inductive Leaf.Accepts (key : Text) (t : Trail) : Leaf → Leaf → Prop
  | exact (groups : List Text) : Accepts key t (.exact key groups) (.exact key groups)
  | glob {g : Glob} {cs : List Text} (hcs : g.groups? key = some cs) : Accepts key t (.glob g) (.exact key cs)
  | marker (own : Text) : Accepts key t (.marker own) (.marker own)
  | template {own : Text} {pieces : Template} (hrender : pieces.render t = .ok key) :
      Accepts key t (.template own pieces) (.exact key [])

theorem Leaf.accept_template {key own : Text} {t : Trail} {pieces : Template} {s : Text}
    (hs : pieces.render t = .ok s) :
    (Leaf.template own pieces).accept key t = .ok (if s = key then some (.exact s []) else none) := by
  rw [Leaf.accept, hs]
  rfl

theorem Leaf.accept_eq_some_iff {key : Text} {t : Trail} {l m : Leaf} :
    l.accept key t = .ok (some m) ↔ Leaf.Accepts key t l m := by
  constructor
  · intro h
    cases l with
    | exact own groups =>
      have hm := Except.ok.inj h
      split at hm
      · next hkey =>
        obtain rfl := Option.some.inj hm
        subst hkey
        exact .exact groups
      · cases hm
    | glob g =>
      obtain ⟨cs, hcs, rfl⟩ := Option.map_eq_some_iff.mp (Except.ok.inj h)
      exact .glob hcs
    | marker own =>
      obtain rfl := Option.some.inj (Except.ok.inj h)
      exact .marker own
    | template own pieces =>
      cases hs : pieces.render t with
      | error fault =>
        rw [Leaf.accept, hs] at h
        cases h
      | ok s =>
        rw [accept_template hs] at h
        have hm := Except.ok.inj h
        split at hm
        · next hkey =>
          obtain rfl := Option.some.inj hm
          subst hkey
          exact .template hs
        · cases hm
  · intro h
    cases h with
    | exact groups => exact congrArg Except.ok (if_pos rfl)
    | @glob g cs hcs => rw [Leaf.accept, hcs, Option.map_some]
    | marker own => rfl
    | template hrender => rw [accept_template hrender, if_pos rfl]

/-! ## Patterns -/

namespace Pattern

theorem outcome_accept_leaf (key : Text) (t : Trail) (l : Leaf) :
    (accept key t (leaf l)).outcome = l.accept key t := by
  rw [accept, Logged.outcome_bind, Logged.outcome_ofExcept]
  cases l.accept key t <;> rfl

theorem outcome_accept_choice (key : Text) (t : Trail) (ps : List Pattern) :
    (accept key t (choice ps)).outcome = (acceptFirst key t ps).outcome := by
  rw [accept, Logged.outcome_bind]
  cases (acceptFirst key t ps).outcome <;> rfl

theorem outcome_acceptFirst_cons (key : Text) (t : Trail) (p : Pattern) (ps : List Pattern) :
    (acceptFirst key t (p :: ps)).outcome =
      if decides (accept key t p).outcome then (accept key t p).outcome else (acceptFirst key t ps).outcome := by
  rw [acceptFirst, Logged.outcome_bind]
  match (accept key t p).outcome with
  | .error _ => rfl
  | .ok none => rfl
  | .ok (some _) => rfl

mutual
/-- The first leaf that matches or fails decides. -/
theorem outcome_accept (key : Text) (t : Trail) :
    ∀ p : Pattern, (accept key t p).outcome = firstDecision (p.leaves.map (Leaf.accept key t))
  | leaf l => by rw [outcome_accept_leaf, leaves, List.map_singleton, firstDecision_singleton]
  | choice ps => by rw [outcome_accept_choice, leaves, outcome_acceptFirst key t ps]

theorem outcome_acceptFirst (key : Text) (t : Trail) :
    ∀ ps : List Pattern,
      (acceptFirst key t ps).outcome = firstDecision ((leavesAll ps).map (Leaf.accept key t))
  | [] => rfl
  | p :: ps => by
    rw [outcome_acceptFirst_cons, outcome_accept key t p, outcome_acceptFirst key t ps, leavesAll,
      List.map_append, firstDecision_append]
end

theorem exists_leaf_of_accept {key : Text} {t : Trail} {p : Pattern} {x : Except Fault (Option Leaf)}
    (h : (p.accept key t).outcome = x) (hx : x ≠ .ok none) : ∃ l ∈ p.leaves, l.accept key t = x := by
  rw [outcome_accept] at h
  exact List.mem_map.mp (mem_of_firstDecision h hx)

theorem exists_accepts {key : Text} {t : Trail} {p : Pattern} {m : Leaf}
    (h : (p.accept key t).outcome = .ok (some m)) : ∃ l ∈ p.leaves, Leaf.Accepts key t l m := by
  obtain ⟨l, hl, hlm⟩ := exists_leaf_of_accept h (by intro hc; cases hc)
  exact ⟨l, hl, Leaf.accept_eq_some_iff.mp hlm⟩

end Pattern
end KeyPath
