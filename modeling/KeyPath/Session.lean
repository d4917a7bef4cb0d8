import KeyPath.Accept

/-!
Sessions: steps that read and change one trail, as a walk over a tree of keys makes them. A step that
fails leaves the trail as it was, and the session goes on.
-/
namespace KeyPath
set_option autoImplicit false

/-- A step gives an answer and the trail behind it. -/
abbrev Step (α : Type) := Trail → Logged (α × Trail)

namespace Step

variable {α β : Type}

/-- A step that only looks at the trail. -/
def look (f : Trail → Logged α) : Step α := fun t => (·, t) <$> f t

def push (p : Pattern) : Step Unit := fun t => pure ((), t.push p)

/-- The answer is the node that is taken away, if there was one. -/
def pop : Step (Option Pattern) := fun t => pure (t.newest?, t.pop)

/-- Goes down one level if the key matches; the answer is the new node. -/
def enter [Engine] (p : Pattern) (key : Text) : Step (Option Pattern) := fun t => do
  match ← t.enter p key with
  | some next => return (next.newest?, next)
  | none => return (none, t)

/-- Matches a whole path from the root, and takes its trail if it matches. -/
def walk [Engine] (levels : Spec) (keys : List Text) : Step Bool := fun t => do
  match ← levels.accept keys with
  | some next => return (true, next)
  | none => return (false, t)

def map (f : α → β) (step : Step α) : Step β := fun t => (fun x => (f x.1, x.2)) <$> step t

/-- The outcome of a step and the trail behind it, which is the old one after a fault. -/
def settle (step : Step α) (t : Trail) : Logged (Except Fault α × Trail) :=
  (fun
    | .ok (a, next) => (.ok a, next)
    | .error fault => (.error fault, t)) <$> (step t).attempt

end Step

/-- Every step's outcome, each with the trail behind the step. -/
def session {α : Type} (t : Trail) : List (Step α) → Logged (List (Except Fault α × Trail))
  | [] => pure []
  | step :: steps => do
    let x ← step.settle t
    (x :: ·) <$> session x.2 steps

end KeyPath
