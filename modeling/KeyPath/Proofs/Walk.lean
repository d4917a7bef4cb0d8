import KeyPath.Proofs.Descent
import KeyPath.Session

/-!
Walks over a tree of keys. A walker goes down by a key that matches the next level and comes back up, in
any order, and keeps the keys that it went down by next to its trail. Wherever it stands, its trail is
the one that matching these keys from the root gives, and a key that it tries has the outcome of matching
the longer path (`walk_agrees_with_accept`). A session that makes the same steps goes through the same
trails (`outcome_session_walk`).
-/
namespace KeyPath
set_option autoImplicit false

variable [Engine]

/-! ## Walkers -/

inductive Move where
  | enter (key : Text)
  | leave
deriving DecidableEq, Repr

/-- Where a walker stands: its trail, and the keys that it went down by, the root first. -/
structure Place where
  trail : Trail
  keys : List Text

namespace Place

def start : Place := ⟨.empty, []⟩

/-- A key that does not match, or fails, leaves the walker where it is, and so does one that is tried
below the last level. -/
def move (levels : Spec) (w : Place) : Move → Place
  | .enter key =>
    match levels[w.trail.depth]? with
    | some p =>
      match (p.accept key w.trail).outcome with
      | .ok (some l) => ⟨w.trail.push (.leaf l), w.keys ++ [key]⟩
      | _ => w
    | none => w
  | .leave => ⟨w.trail.pop, w.keys.dropLast⟩

def after (levels : Spec) (moves : List Move) : Place := moves.foldl (move levels) start

theorem after_concat (levels : Spec) (moves : List Move) (m : Move) :
    after levels (moves ++ [m]) = (after levels moves).move levels m := by
  unfold after
  rw [List.foldl_append]
  rfl

/-! ## What every move keeps -/

/-- The walker's keys match the levels above it, and give its trail. -/
structure Agrees (levels : Spec) (w : Place) : Prop where
  depth_eq : w.trail.depth = w.keys.length
  depth_le : w.keys.length ≤ levels.length
  accepted : (Spec.accept (levels.take w.keys.length) w.keys).outcome = .ok (some w.trail)

variable {levels : Spec} {w : Place}

theorem Agrees.length_take (h : w.Agrees levels) : (levels.take w.keys.length).length = w.keys.length := by
  rw [List.length_take]
  exact Nat.min_eq_left h.depth_le

theorem Agrees.outcome_concat (h : w.Agrees levels) {p : Pattern} (hp : levels[w.keys.length]? = some p)
    (key : Text) :
    (Spec.accept (levels.take (w.keys.length + 1)) (w.keys ++ [key])).outcome =
      (p.accept key w.trail).outcome.map (Option.map fun l => w.trail.push (.leaf l)) := by
  have hlevels : levels.take (w.keys.length + 1) = levels.take w.keys.length ++ [p] := by
    rw [List.take_add_one, hp, Option.toList_some]
  rw [hlevels, Spec.outcome_accept_concat _ p _ key h.length_take, h.accepted, ← Trail.outcome_enter]
  rfl

theorem start_agrees (levels : Spec) : start.Agrees levels :=
  ⟨rfl, Nat.zero_le _, Spec.outcome_accept_nil⟩

theorem Agrees.enter (h : w.Agrees levels) {p : Pattern} (hp : levels[w.keys.length]? = some p) {key : Text}
    {l : Leaf} (hl : (p.accept key w.trail).outcome = .ok (some l)) :
    Agrees levels ⟨w.trail.push (.leaf l), w.keys ++ [key]⟩ := by
  have hlen : (w.keys ++ [key]).length = w.keys.length + 1 := by rw [List.length_append]; rfl
  have hlt : w.keys.length < levels.length := (List.getElem?_eq_some_iff.mp hp).1
  refine ⟨?_, ?_, ?_⟩
  · rw [hlen, ← h.depth_eq]
    rfl
  · rw [hlen]
    exact hlt
  · rw [hlen, h.outcome_concat hp, hl]
    rfl

theorem Agrees.leave (h : w.Agrees levels) : Agrees levels ⟨w.trail.pop, w.keys.dropLast⟩ := by
  obtain ⟨t, keys⟩ := w
  rcases List.eq_nil_or_concat keys with rfl | ⟨ks, key, rfl⟩
  · have hnil : t.nodes = [] := List.length_eq_zero_iff.mp h.depth_eq
    have ht : t.pop = .empty := by
      rw [Trail.pop, hnil]
      rfl
    rw [ht]
    exact start_agrees levels
  · obtain ⟨hdepth, hle, hacc⟩ := h
    simp only [List.concat_eq_append, List.length_append, List.length_singleton] at hdepth hle hacc
    have hp : levels[ks.length]? = some levels[ks.length] := List.getElem?_eq_getElem hle
    have hlen : (levels.take ks.length).length = ks.length := by
      rw [List.length_take]
      omega
    rw [List.take_add_one, hp, Option.toList_some] at hacc
    obtain ⟨u, l, hks, -, rfl⟩ := Spec.exists_of_accept_concat hlen hacc
    have hu : u.depth = ks.length := Nat.succ.inj hdepth
    simp only [List.concat_eq_append, List.dropLast_concat, Trail.pop_push]
    exact ⟨hu, Nat.le_of_succ_le hle, hks⟩

theorem Agrees.move (h : w.Agrees levels) (m : Move) : (w.move levels m).Agrees levels := by
  cases m with
  | leave => exact h.leave
  | enter key =>
    rw [Place.move, h.depth_eq]
    cases hp : levels[w.keys.length]? with
    | none => exact h
    | some p =>
      match hl : (p.accept key w.trail).outcome with
      | .ok (some l) => simpa only [hl] using h.enter hp hl
      | .ok none => simpa only [hl] using h
      | .error _ => simpa only [hl] using h

theorem after_agrees (levels : Spec) (moves : List Move) : (after levels moves).Agrees levels := by
  unfold after
  have hrun : ∀ w : Place, w.Agrees levels → (moves.foldl (Place.move levels) w).Agrees levels := by
    induction moves with
    | nil => exact fun w hw => hw
    | cons m moves ih => exact fun w hw => ih (w.move levels m) (hw.move m)
  exact hrun start (start_agrees levels)

end Place

/-! ## The walk as a session -/

def Move.step (levels : Spec) : Move → Step (Option Pattern)
  | .enter key => fun t =>
    match levels[t.depth]? with
    | some p => Step.enter p key t
    | none => pure (none, t)
  | .leave => Step.pop

theorem outcome_settle_enter (t : Trail) (p : Pattern) (key : Text) :
    ((Step.enter p key).settle t).outcome = .ok (match (p.accept key t).outcome with
      | .ok (some l) => (.ok (some (.leaf l)), t.push (.leaf l))
      | .ok none => (.ok none, t)
      | .error fault => (.error fault, t)) := by
  rw [Step.settle, Logged.outcome_map, Logged.outcome_attempt, Step.enter, Logged.outcome_bind,
    Trail.outcome_enter]
  match (p.accept key t).outcome with
  | .ok (some _) => rfl
  | .ok none => rfl
  | .error _ => rfl

theorem outcome_session_step (levels : Spec) (w : Place) (m : Move) :
    ((m.step levels).settle w.trail).outcome.map Prod.snd = .ok (w.move levels m).trail := by
  cases m with
  | leave => rfl
  | enter key =>
    rw [Place.move]
    cases hp : levels[w.trail.depth]? with
    | none =>
      have hstep : ((Move.enter key).step levels).settle w.trail = pure (.ok none, w.trail) := by
        simp only [Step.settle, Move.step, hp]
        rfl
      rw [hstep]
      rfl
    | some p =>
      have hstep : ((Move.enter key).step levels).settle w.trail = (Step.enter p key).settle w.trail := by
        simp only [Step.settle, Move.step, hp]
      rw [hstep, outcome_settle_enter]
      match hl : (p.accept key w.trail).outcome with
      | .ok (some l) => simp only [hl, Except.map]
      | .ok none => simp only [hl, Except.map]
      | .error _ => simp only [hl, Except.map]

/-- A session that makes the steps of a walk has the walker's trail behind every step. -/
theorem outcome_session_walk (levels : Spec) (w : Place) (moves : List Move) :
    (session w.trail (moves.map (Move.step levels))).outcome.map (List.map Prod.snd) =
      .ok (moves.inits.tail.map fun past => (past.foldl (Place.move levels) w).trail) := by
  induction moves generalizing w with
  | nil => rfl
  | cons m moves ih =>
    have hinits : (m :: moves).inits.tail = [m] :: moves.inits.tail.map (m :: ·) := by
      cases moves <;> simp
    have hstep := outcome_session_step levels w m
    rw [List.map_cons, session, Logged.outcome_bind, hinits, List.map_cons, List.map_map]
    match hx : ((m.step levels).settle w.trail).outcome, hstep with
    | .ok x, hstep =>
      have ht : x.2 = (w.move levels m).trail := Except.ok.inj hstep
      have ih := ih (w.move levels m)
      rw [← ht] at ih
      show ((session x.2 (moves.map (Move.step levels))).outcome.map (x :: ·)).map (List.map Prod.snd) = _
      match hs : (session x.2 (moves.map (Move.step levels))).outcome, ih with
      | .ok xs, ih =>
        have hxs := Except.ok.inj ih
        show Except.ok (x.2 :: xs.map Prod.snd) = _
        rw [hxs, ht]
        rfl

/-! ## The walk and the path -/

/-- After any moves the walker has as many nodes as keys, matching its keys gives its trail, and what it tries next
has the outcome of matching the path with that key at its end. Only a match takes it down, by the node of the match
and its key; it comes back up by taking away the newest of both. A session that makes the same steps goes through
the same trails. -/
theorem walk_agrees_with_accept (levels : Spec) (moves : List Move) :
    let w := Place.after levels moves
    w.trail.depth = w.keys.length ∧
      (Spec.accept (levels.take w.keys.length) w.keys).outcome = .ok (some w.trail) ∧
      (∀ p, levels[w.trail.depth]? = some p → ∀ key,
        (Spec.accept (levels.take (w.keys.length + 1)) (w.keys ++ [key])).outcome =
            (p.accept key w.trail).outcome.map (Option.map fun l => w.trail.push (.leaf l)) ∧
          Place.after levels (moves ++ [.enter key]) =
            match (p.accept key w.trail).outcome with
            | .ok (some l) => ⟨w.trail.push (.leaf l), w.keys ++ [key]⟩
            | _ => w) ∧
      (levels[w.trail.depth]? = none → ∀ key, Place.after levels (moves ++ [.enter key]) = w) ∧
      Place.after levels (moves ++ [.leave]) = ⟨w.trail.pop, w.keys.dropLast⟩ ∧
      (session .empty (moves.map (Move.step levels))).outcome.map (List.map Prod.snd) =
        .ok (moves.inits.tail.map fun past => (Place.after levels past).trail) := by
  intro w
  have h : w.Agrees levels := Place.after_agrees levels moves
  refine ⟨h.depth_eq, h.accepted, ?enter, ?below, Place.after_concat levels moves .leave,
    outcome_session_walk levels .start moves⟩
  case enter =>
    intro p hp key
    constructor
    · rw [h.depth_eq] at hp
      exact h.outcome_concat hp key
    · rw [Place.after_concat, Place.move, hp]
  case below =>
    intro hp key
    rw [Place.after_concat, Place.move, hp]

end KeyPath
