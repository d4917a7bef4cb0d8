import KeyPath.Render

/-!
Matching keys against patterns. A match gives the leaf that goes onto the trail: the pattern itself for
exact keys and markers, and an exact key for globs, with what the stars captured, and for templates. A
choice takes its first branch that matches and stops at a fault. The journal has an entry for every
pattern that was decided, a choice behind the branches that were tried.
-/
namespace KeyPath
set_option autoImplicit false

variable [Engine]

/-- What the stars capture: the groups of the match behind the whole match, a group that takes no part as an
empty text. -/
def Glob.groups? (g : Glob) (key : Text) : Option (List Text) :=
  (Engine.captures? g.regex key).map fun captures => captures.tail.map (·.getD [])

def Leaf.accept (key : Text) (t : Trail) : Leaf → Except Fault (Option Leaf)
  | .exact own groups => .ok (if own = key then some (.exact own groups) else none)
  | .glob g => .ok ((g.groups? key).map (.exact key ·))
  | .marker own => .ok (some (.marker own))
  | .template _ pieces => do
    let rendered ← pieces.render t
    return if rendered = key then some (.exact rendered []) else none

namespace Pattern

/-- Enters the decision on a pattern into the journal. -/
def conclude (key : Text) (p : Pattern) (found : Option Leaf) : Logged (Option Leaf) := do
  Logged.note (.tried key p.key found.isSome)
  return found

mutual
def accept (key : Text) (t : Trail) : Pattern → Logged (Option Leaf)
  | leaf l => do
    let found ← Logged.ofExcept (l.accept key t)
    conclude key (leaf l) found
  | choice ps => do
    let found ← acceptFirst key t ps
    conclude key (choice ps) found

def acceptFirst (key : Text) (t : Trail) : List Pattern → Logged (Option Leaf)
  | [] => pure none
  | p :: ps => do
    match ← accept key t p with
    | some l => return some l
    | none => acceptFirst key t ps
end

end Pattern

/-! ## Paths -/

/-- Goes one level down: the trail is longer by the leaf that the key was matched to. -/
def Trail.enter (t : Trail) (p : Pattern) (key : Text) : Logged (Option Trail) :=
  (·.map fun l => t.push l) <$> p.accept key t

/-- Goes down level by level; a key that does not match ends the walk. -/
def Trail.descend (t : Trail) : Spec → List Text → Logged (Option Trail)
  | p :: ps, key :: keys => do
    match ← t.enter p key with
    | some t => t.descend ps keys
    | none => return none
  | _, _ => return some t

/-- A path matches if it has a key for every level and each level matches, from the root down. -/
def Spec.accept (levels : Spec) (keys : List Text) : Logged (Option Trail) :=
  if levels.length = keys.length then Trail.empty.descend levels keys else pure none

end KeyPath
