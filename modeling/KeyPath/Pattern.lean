import KeyPath.Glob
import KeyPath.Template

/-!
Patterns for one key of a path. A `Leaf` is an exact key, a glob, a marker that takes any key, or a
template; a choice offers several patterns, tried from the left. `Pattern.key` is the written form and
`Pattern.leaves` lists the leaves in the order in which they are tried.
-/
namespace KeyPath
set_option autoImplicit false

/-- An exact key that comes from a match may carry the texts that the match captured. -/
inductive Leaf where
  | exact (key : Text) (groups : List Text)
  | glob (g : Glob)
  | marker (key : Text)
  | template (key : Text) (pieces : Template)
deriving DecidableEq, Repr

inductive Pattern where
  | leaf (l : Leaf)
  | choice (branches : List Pattern)

instance : Coe Leaf Pattern := ⟨.leaf⟩

instance : Inhabited Pattern := ⟨.choice []⟩

inductive Kind where
  | exact
  | glob
  | marker
  | template
  | choice
deriving DecidableEq, Repr

/-- How a kind is named in messages: by the sign that makes it, if there is one. -/
def Kind.name : Kind → Text
  | .exact => "literal".toList
  | .glob => Text.quoted ['*']
  | .marker => Text.quoted ['@']
  | .template => Text.quoted ['&']
  | .choice => Text.quoted ['|']

namespace Leaf

def kind : Leaf → Kind
  | exact _ _ => .exact
  | glob _ => .glob
  | marker _ => .marker
  | template _ _ => .template

def key : Leaf → Text
  | exact key _ | marker key | template key _ => key
  | glob g => g.key

end Leaf

namespace Pattern

def kind : Pattern → Kind
  | leaf l => l.kind
  | choice _ => .choice

mutual
/-- The written form; a bar stands between the branches of a choice. -/
def key : Pattern → Text
  | leaf l => l.key
  | choice ps => ['|'].intercalate (keys ps)

def keys : List Pattern → List Text
  | [] => []
  | p :: ps => key p :: keys ps
end

mutual
def leaves : Pattern → List Leaf
  | leaf l => [l]
  | choice ps => leavesAll ps

def leavesAll : List Pattern → List Leaf
  | [] => []
  | p :: ps => leaves p ++ leavesAll ps
end

theorem keys_eq_map (ps : List Pattern) : keys ps = ps.map key := by
  induction ps with
  | nil => rfl
  | cons p ps ih => rw [keys, ih, List.map_cons]

theorem leavesAll_eq_flatMap (ps : List Pattern) : leavesAll ps = ps.flatMap leaves := by
  induction ps with
  | nil => rfl
  | cons p ps ih => rw [leavesAll, ih, List.flatMap_cons]

end Pattern
end KeyPath
