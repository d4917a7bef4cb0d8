import KeyPath.Fault

/-!
The trail: what the levels of a path were matched to so far. It is kept newest node first, so a
reference that goes up `n` levels reads the node at place `n`.
-/
namespace KeyPath
set_option autoImplicit false

structure Trail where
  nodes : List Pattern

namespace Trail

def empty : Trail := ⟨[]⟩

/-- A trail from its nodes, the root first. -/
def ofList (ps : List Pattern) : Trail := ⟨ps.reverse⟩

/-- The nodes of a trail, the root first. -/
def toList (t : Trail) : List Pattern := t.nodes.reverse

def depth (t : Trail) : Nat := t.nodes.length

def push (t : Trail) (p : Pattern) : Trail := ⟨p :: t.nodes⟩

def newest? (t : Trail) : Option Pattern := t.nodes.head?

def pop (t : Trail) : Trail := ⟨t.nodes.tail⟩

/-- The node a number of levels above the newest one. -/
def up (t : Trail) (distance : Nat) : Except Fault Pattern :=
  match t.nodes[distance]? with
  | some p => .ok p
  | none => .error (.noSuchLevel distance t.depth)

@[simp] theorem toList_ofList (ps : List Pattern) : (ofList ps).toList = ps := List.reverse_reverse ps

@[simp] theorem toList_empty : empty.toList = [] := rfl

@[simp] theorem toList_push (t : Trail) (p : Pattern) : (t.push p).toList = t.toList ++ [p] := by
  simp [toList, push]

@[simp] theorem toList_pop (t : Trail) : t.pop.toList = t.toList.dropLast := by
  simp [toList, pop]

@[simp] theorem length_toList (t : Trail) : t.toList.length = t.depth := by
  simp [toList, depth]

@[simp] theorem depth_push (t : Trail) (p : Pattern) : (t.push p).depth = t.depth + 1 := rfl

theorem pop_push (t : Trail) (p : Pattern) : (t.push p).pop = t := rfl

end Trail
end KeyPath
