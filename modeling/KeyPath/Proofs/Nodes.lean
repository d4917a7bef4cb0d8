import KeyPath.Proofs.Choice
import Mathlib.Data.List.Nodup

/-!
The nodes of a pattern: its leaves and its choices, at any depth. They are listed with every choice behind the
nodes below it, as a walk from the leaves up meets them, and a node can be told from another one like it by the
way down to it (`Spot`).
-/
namespace KeyPath
set_option autoImplicit false

namespace Pattern

/-- Induction with a hypothesis for every branch of a choice. -/
@[elab_as_elim]
theorem branchInduction {motive : Pattern → Prop} (leaf : ∀ l, motive (leaf l))
    (choice : ∀ ps, (∀ p ∈ ps, motive p) → motive (choice ps)) : ∀ p, motive p
  | .leaf l => leaf l
  | .choice ps => choice ps fun p _ => branchInduction leaf choice p

/-! ## Lists of nodes -/

mutual
/-- All nodes, a choice behind the nodes of its branches. -/
def nodes : Pattern → List Pattern
  | leaf l => [leaf l]
  | choice ps => nodesAll ps ++ [choice ps]

def nodesAll : List Pattern → List Pattern
  | [] => []
  | p :: ps => nodes p ++ nodesAll ps
end

theorem mem_nodesAll {p : Pattern} {ps : List Pattern} : p ∈ nodesAll ps ↔ ∃ q ∈ ps, p ∈ q.nodes := by
  induction ps with
  | nil => simp [nodesAll]
  | cons q ps ih => rw [nodesAll, List.mem_append, ih, List.exists_mem_cons_iff]

theorem kind_or_leaf_of_mem_nodes {p q : Pattern} (hq : q ∈ p.nodes) :
    q.kind = .choice ∨ ∃ l ∈ p.leaves, q = .leaf l := by
  induction p using branchInduction with
  | leaf l =>
    obtain rfl := List.mem_singleton.mp hq
    exact .inr ⟨l, List.mem_singleton_self l, rfl⟩
  | choice ps ih =>
    obtain hq | hq := List.mem_append.mp hq
    · obtain ⟨p, hp, hq⟩ := mem_nodesAll.mp hq
      obtain hkind | ⟨l, hl, rfl⟩ := ih p hp hq
      · exact .inl hkind
      · refine .inr ⟨l, ?_, rfl⟩
        rw [leaves, leavesAll_eq_flatMap]
        exact List.mem_flatMap.mpr ⟨p, hp, hl⟩
    · obtain rfl := List.mem_singleton.mp hq
      exact .inl rfl

/-- The written form of a leaf stands in that of the pattern. -/
theorem mem_key_of_mem_leaves {p : Pattern} {l : Leaf} (hl : l ∈ p.leaves) {c : Char} (hc : c ∈ l.key) :
    c ∈ p.key := by
  induction p using branchInduction with
  | leaf m =>
    obtain rfl := List.mem_singleton.mp hl
    exact hc
  | choice ps ih =>
    rw [leaves, leavesAll_eq_flatMap] at hl
    obtain ⟨p, hp, hlp⟩ := List.mem_flatMap.mp hl
    rw [key, keys_eq_map]
    exact Text.mem_intercalate (List.mem_map_of_mem hp) (ih p hp hlp)

/-- Without the signs of globs and markers a compiled key has no such nodes. -/
theorem kind_of_mem_nodes [Engine] {key : Text} {p q : Pattern} (h : (ofKey key).outcome = .ok p) (hq : q ∈ p.nodes) :
    ('*' ∉ key → q.kind ≠ .glob) ∧ ('@' ∉ key → q.kind ≠ .marker) := by
  obtain hkind | ⟨l, hl, rfl⟩ := kind_or_leaf_of_mem_nodes hq
  · rw [hkind]
    exact ⟨fun _ => nofun, fun _ => nofun⟩
  · have hkey : ∀ c ∈ l.key, c ∈ key := fun c hc => key_of_ofKey h ▸ mem_key_of_mem_leaves hl hc
    obtain ⟨own, -, hown⟩ := exists_key_of_mem_leaves h hl
    rw [hown.key_eq] at hkey
    cases hown with
    | template _ _ _ => exact ⟨fun _ => nofun, fun _ => nofun⟩
    | glob _ hstar _ => exact ⟨fun hnot => absurd (hkey '*' hstar) hnot, fun _ => nofun⟩
    | marker _ _ hat => exact ⟨fun _ => nofun, fun hnot => absurd (hkey '@' hat) hnot⟩
    | exact _ _ _ => exact ⟨fun _ => nofun, fun _ => nofun⟩

end Pattern

/-! ## Places of nodes -/

/-- A choice on the way down, by the branches on both sides of the one that is taken. -/
structure Turn where
  front : List Pattern
  behind : List Pattern

/-- A node with the way down to it, the outermost choice first. -/
structure Spot where
  way : List Turn
  node : Pattern

namespace Spot

def below (turn : Turn) (s : Spot) : Spot := ⟨turn :: s.way, s.node⟩

/-- The whole pattern, put together again from the node outwards. -/
def whole (s : Spot) : Pattern := s.way.foldr (fun turn p => .choice (turn.front ++ p :: turn.behind)) s.node

/-- The choices around a node, from the inside out. -/
def around (node : Pattern) : List Turn → List Spot
  | [] => []
  | turn :: way => (around node way).map (below turn) ++ [⟨[], whole ⟨turn :: way, node⟩⟩]

end Spot

namespace Pattern

mutual
/-- The nodes of a pattern with their places, in the order of `nodes`. -/
def spots : Pattern → List Spot
  | leaf l => [⟨[], leaf l⟩]
  | choice ps => spotsBehind [] ps ++ [⟨[], choice ps⟩]

/-- The nodes of the branches behind some others of the same choice. -/
def spotsBehind (front : List Pattern) : List Pattern → List Spot
  | [] => []
  | p :: ps => (spots p).map (Spot.below ⟨front, ps⟩) ++ spotsBehind (front ++ [p]) ps
end

theorem map_node_below (turn : Turn) (ss : List Spot) :
    (ss.map (Spot.below turn)).map Spot.node = ss.map Spot.node := List.map_map

mutual
theorem map_node_spots : ∀ p : Pattern, p.spots.map Spot.node = p.nodes
  | leaf l => rfl
  | choice ps => by
    rw [spots, nodes, List.map_append, map_node_spotsBehind [] ps]
    rfl

theorem map_node_spotsBehind (front : List Pattern) :
    ∀ ps : List Pattern, (spotsBehind front ps).map Spot.node = nodesAll ps
  | [] => rfl
  | p :: ps => by
    rw [spotsBehind, nodesAll, List.map_append, map_node_below, map_node_spots p,
      map_node_spotsBehind (front ++ [p]) ps]
end

mutual
/-- Every node has its place in the pattern. -/
theorem whole_of_mem_spots : ∀ p : Pattern, ∀ s ∈ p.spots, s.whole = p
  | leaf l => by
    intro s hs
    obtain rfl := List.mem_singleton.mp hs
    rfl
  | choice ps => by
    intro s hs
    obtain hs | hs := List.mem_append.mp hs
    · exact whole_of_mem_spotsBehind [] ps s hs
    · obtain rfl := List.mem_singleton.mp hs
      rfl

theorem whole_of_mem_spotsBehind (front : List Pattern) :
    ∀ ps : List Pattern, ∀ s ∈ spotsBehind front ps, s.whole = choice (front ++ ps)
  | [] => fun s hs => absurd hs List.not_mem_nil
  | p :: ps => by
    intro s hs
    obtain hs | hs := List.mem_append.mp hs
    · obtain ⟨inner, hinner, rfl⟩ := List.mem_map.mp hs
      exact congrArg (fun q => choice (front ++ q :: ps)) (whole_of_mem_spots p inner hinner)
    · rw [whole_of_mem_spotsBehind (front ++ [p]) ps s hs, List.append_assoc, List.singleton_append]
end

/-- Branches that stand in front of others stand in front of all the nodes below them. -/
theorem exists_way_of_mem_spotsBehind {front ps : List Pattern} {s : Spot} (hs : s ∈ spotsBehind front ps) :
    ∃ turn way, s.way = turn :: way ∧ front <+: turn.front := by
  induction ps generalizing front with
  | nil => cases hs
  | cons p ps ih =>
    obtain hs | hs := List.mem_append.mp hs
    · obtain ⟨inner, -, rfl⟩ := List.mem_map.mp hs
      exact ⟨⟨front, ps⟩, inner.way, rfl, List.prefix_rfl⟩
    · obtain ⟨turn, way, hway, hfront⟩ := ih hs
      exact ⟨turn, way, hway, (List.prefix_append front [p]).trans hfront⟩

theorem below_injective (turn : Turn) : Function.Injective (Spot.below turn) := by
  rintro ⟨way, node⟩ ⟨way', node'⟩ h
  obtain ⟨hway, rfl⟩ := Spot.mk.inj h
  obtain ⟨-, rfl⟩ := List.cons.inj hway
  rfl

mutual
/-- No two nodes have the same place. -/
theorem nodup_spots : ∀ p : Pattern, p.spots.Nodup
  | leaf l => List.nodup_singleton _
  | choice ps => by
    refine List.Nodup.append (nodup_spotsBehind [] ps) (List.nodup_singleton _) ?_
    intro s hs hroot
    obtain rfl := List.mem_singleton.mp hroot
    obtain ⟨turn, way, hway, -⟩ := exists_way_of_mem_spotsBehind hs
    cases hway

theorem nodup_spotsBehind (front : List Pattern) : ∀ ps : List Pattern, (spotsBehind front ps).Nodup
  | [] => List.nodup_nil
  | p :: ps => by
    refine List.Nodup.append ((nodup_spots p).map (below_injective _)) (nodup_spotsBehind (front ++ [p]) ps) ?_
    intro s hs hbehind
    obtain ⟨inner, -, rfl⟩ := List.mem_map.mp hs
    obtain ⟨turn, way, hway, hfront⟩ := exists_way_of_mem_spotsBehind hbehind
    obtain ⟨rfl, -⟩ := List.cons.inj hway
    -- The branch itself does not stand in front of its own nodes.
    have hlength := hfront.length_le
    rw [List.length_append, List.length_singleton] at hlength
    exact Nat.not_succ_le_self _ hlength
end

end Pattern
end KeyPath
