import KeyPath.Journal
import KeyPath.Regex

/-!
From the written key to its pattern. A bar makes a choice; of a key without bars an ampersand or an
opening bracket makes a template, a star a glob, an at-sign a marker, and anything else is exact. A
star never goes together with an ampersand or a bracket, and this is asked of the key as a whole. A glob is kept only
if the engine takes its regular expression.
-/
namespace KeyPath
set_option autoImplicit false

/-- Whether the key has a sign that makes it a template. -/
def Text.hasTemplateSign (key : Text) : Bool := key.contains '&' || key.contains '['

/-- Whether the key asks for a glob and for a template at once. -/
def Text.mixesSigns (key : Text) : Bool := key.contains '*' && key.hasTemplateSign

/-- The leaf of a key without bars. -/
def Leaf.ofKey [Engine] (key : Text) : Except Fault Leaf :=
  if key.mixesSigns then .error (.mixedSigns key)
  else if key.hasTemplateSign then
    match Template.read key with
    | .ok pieces => .ok (.template key pieces)
    | .error flaw => .error (.malformed key flaw)
  else if key.contains '*' then
    let g := Glob.ofKey key
    match Engine.refusal? g.regex with
    | none => .ok (.glob g)
    | some reason => .error (.refusedGlob key reason)
  else if key.contains '@' then .ok (.marker key)
  else .ok (.exact key [])

namespace Pattern

variable [Engine]

def branchOfKey (key : Text) : Logged Pattern := do
  let l ← Logged.ofExcept (Leaf.ofKey key)
  Logged.note (.compiled key l.kind)
  return l

def branchesOfKeys : List Text → Logged (List Pattern)
  | [] => pure []
  | key :: keys => do
    let p ← branchOfKey key
    (p :: ·) <$> branchesOfKeys keys

/-- The journal names every key that became a pattern, a choice behind its branches. -/
def ofKey (key : Text) : Logged Pattern :=
  if key.contains '|' then
    if key.mixesSigns then Logged.fail (.mixedSigns key)
    else do
      let branches ← branchesOfKeys (key.splitOn '|')
      Logged.note (.compiled key .choice)
      return choice branches
  else branchOfKey key

end Pattern
end KeyPath
