import KeyPath.Proofs.Decision
import KeyPath.Proofs.Nodes

/-!
How far a match gets in its search. A choice is searched from the left, and the search goes on past a branch only
if the key does not match it, so the nodes it gets to can be told from the pattern (`Spot.Reached`). If nothing is
decided, it gets to all nodes (`Pattern.visited_of_undecided`). Otherwise the last nodes it gets to are the leaf
that decides and the choices around that leaf (`Pattern.exists_deciding_leaf`).
-/
namespace KeyPath
set_option autoImplicit false

/-! ## The nodes that are reached -/

section
variable [Engine] (key : Text) (t : Trail)

/-- The key does not match the pattern, and nothing fails. -/
def Pattern.Undecided (p : Pattern) : Prop := (p.accept key t).outcome = .ok none

instance (p : Pattern) : Decidable (p.Undecided key t) :=
  decidable_of_iff (decides (p.accept key t).outcome = false) ⟨eq_of_not_decides, congrArg decides⟩

/-- The search gets to a node if it goes past all that stands in front of the way down to the node. -/
def Spot.Reached (s : Spot) : Prop := ∀ turn ∈ s.way, ∀ p ∈ turn.front, p.Undecided key t

instance : DecidablePred (Spot.Reached key t) := fun s =>
  inferInstanceAs (Decidable (∀ turn ∈ s.way, ∀ p ∈ turn.front, p.Undecided key t))

namespace Pattern

/-- The nodes that the search gets to, in the order in which it leaves them. -/
def visited (p : Pattern) : List Spot := p.spots.filter fun s => s.Reached key t

def visitedBehind (front ps : List Pattern) : List Spot := (spotsBehind front ps).filter fun s => s.Reached key t

end Pattern
end

section
variable [Engine] {key : Text} {t : Trail}

theorem Spot.reached_below {turn : Turn} {s : Spot} :
    (s.below turn).Reached key t ↔ (∀ p ∈ turn.front, p.Undecided key t) ∧ s.Reached key t :=
  List.forall_mem_cons

namespace Pattern
variable {front : List Pattern} {p : Pattern}

theorem visited_leaf (l : Leaf) : visited key t (leaf l) = [⟨[], leaf l⟩] := rfl

theorem visited_choice (ps : List Pattern) :
    visited key t (choice ps) = visitedBehind key t [] ps ++ [⟨[], choice ps⟩] := by
  rw [visited, spots, List.filter_append]
  rfl

theorem visitedBehind_cons (hfront : ∀ p ∈ front, p.Undecided key t) (p : Pattern) (ps : List Pattern) :
    visitedBehind key t front (p :: ps) =
      (visited key t p).map (Spot.below ⟨front, ps⟩) ++ visitedBehind key t (front ++ [p]) ps := by
  rw [visitedBehind, spotsBehind, List.filter_append, List.filter_map]
  congr 2
  refine List.filter_congr fun s _ => ?_
  rw [Function.comp_apply, decide_eq_decide, Spot.reached_below]
  exact and_iff_right hfront

/-- What stands behind a decided branch is not reached. -/
theorem visitedBehind_cons_of_decided (hfront : ∀ p ∈ front, p.Undecided key t) (hp : ¬ p.Undecided key t)
    (ps : List Pattern) :
    visitedBehind key t front (p :: ps) = (visited key t p).map (Spot.below ⟨front, ps⟩) := by
  have hbehind : visitedBehind key t (front ++ [p]) ps = [] := by
    refine List.filter_eq_nil_iff.mpr fun s hs => ?_
    obtain ⟨turn, way, hway, hsub⟩ := exists_way_of_mem_spotsBehind hs
    have hfront : p ∈ turn.front := hsub.subset (List.mem_append_right front List.mem_cons_self)
    rw [decide_eq_true_iff]
    exact fun hreached => hp (hreached turn (hway ▸ List.mem_cons_self) p hfront)
  rw [visitedBehind_cons hfront, hbehind, List.append_nil]

theorem undecided_concat (hfront : ∀ p ∈ front, p.Undecided key t) (hp : p.Undecided key t) :
    ∀ q ∈ front ++ [p], q.Undecided key t :=
  List.forall_mem_append.mpr ⟨hfront, List.forall_mem_singleton.mpr hp⟩

/-! ## Searches that are not decided -/

theorem outcome_acceptFirst_cons_of_undecided (hp : p.Undecided key t) (ps : List Pattern) :
    (acceptFirst key t (p :: ps)).outcome = (acceptFirst key t ps).outcome := by
  rw [outcome_acceptFirst_cons, hp]
  rfl

theorem outcome_acceptFirst_cons_of_decided (hp : ¬ p.Undecided key t) (ps : List Pattern) :
    (acceptFirst key t (p :: ps)).outcome = (accept key t p).outcome := by
  rw [outcome_acceptFirst_cons, if_pos (decides_iff.mpr hp)]

theorem undecided_choice_iff {ps : List Pattern} :
    (choice ps).Undecided key t ↔ ∀ p ∈ ps, p.Undecided key t := by
  rw [Undecided, outcome_accept_choice]
  induction ps with
  | nil => exact iff_of_true rfl nofun
  | cons p ps ih =>
    rw [List.forall_mem_cons]
    by_cases hp : p.Undecided key t
    · rw [outcome_acceptFirst_cons_of_undecided hp, ih, and_iff_right hp]
    · rw [outcome_acceptFirst_cons_of_decided hp]
      exact iff_of_false hp fun h => hp h.1

theorem undecided_of_mem_nodes {q : Pattern} (h : p.Undecided key t) (hq : q ∈ p.nodes) : q.Undecided key t := by
  induction p using branchInduction with
  | leaf l =>
    obtain rfl := List.mem_singleton.mp hq
    exact h
  | choice ps ih =>
    obtain hq | hq := List.mem_append.mp hq
    · obtain ⟨p, hp, hq⟩ := mem_nodesAll.mp hq
      exact ih p hp (undecided_choice_iff.mp h p hp) hq
    · obtain rfl := List.mem_singleton.mp hq
      exact h

theorem undecided_of_mem_spots (h : p.Undecided key t) {s : Spot} (hs : s ∈ p.spots) : s.node.Undecided key t := by
  refine undecided_of_mem_nodes h ?_
  rw [← map_node_spots]
  exact List.mem_map_of_mem hs

mutual
/-- A search that is not decided gets to all nodes. -/
theorem visited_of_undecided : ∀ p : Pattern, p.Undecided key t → visited key t p = p.spots
  | leaf l, _ => rfl
  | choice ps, h => by
    rw [visited_choice, visitedBehind_of_undecided ps [] nofun (undecided_choice_iff.mp h), spots]

theorem visitedBehind_of_undecided : ∀ ps front : List Pattern, (∀ p ∈ front, p.Undecided key t) →
    (∀ p ∈ ps, p.Undecided key t) → visitedBehind key t front ps = spotsBehind front ps
  | [], _, _, _ => rfl
  | p :: ps, front, hfront, hall => by
    obtain ⟨hp, hps⟩ := List.forall_mem_cons.mp hall
    rw [visitedBehind_cons hfront, visited_of_undecided p hp,
      visitedBehind_of_undecided ps (front ++ [p]) (undecided_concat hfront hp) hps, spotsBehind]
end

/-! ## Searches that are decided -/

theorem exists_first_decided {ps : List Pattern} (h : ¬ ∀ p ∈ ps, p.Undecided key t) :
    ∃ before p behind, ps = before ++ p :: behind ∧ (∀ q ∈ before, q.Undecided key t) ∧ ¬ p.Undecided key t := by
  induction ps with
  | nil => exact absurd nofun h
  | cons p ps ih =>
    by_cases hp : p.Undecided key t
    · rw [List.forall_mem_cons, and_iff_right hp] at h
      obtain ⟨before, q, behind, rfl, hbefore, hq⟩ := ih h
      exact ⟨p :: before, q, behind, rfl, List.forall_mem_cons.mpr ⟨hp, hbefore⟩, hq⟩
    · exact ⟨[], p, ps, rfl, nofun, hp⟩

theorem outcome_acceptFirst_of_first_decided {before : List Pattern} (hbefore : ∀ q ∈ before, q.Undecided key t)
    (hp : ¬ p.Undecided key t) (behind : List Pattern) :
    (acceptFirst key t (before ++ p :: behind)).outcome = (accept key t p).outcome := by
  induction before with
  | nil => exact outcome_acceptFirst_cons_of_decided hp behind
  | cons q before ih =>
    obtain ⟨hq, hbefore⟩ := List.forall_mem_cons.mp hbefore
    rw [List.cons_append, outcome_acceptFirst_cons_of_undecided hq, ih hbefore]

/-- Branches that the key does not match are searched through before those behind them. -/
theorem visitedBehind_append {before : List Pattern} (hfront : ∀ p ∈ front, p.Undecided key t)
    (hbefore : ∀ p ∈ before, p.Undecided key t) (ps : List Pattern) :
    ∃ tried, visitedBehind key t front (before ++ ps) = tried ++ visitedBehind key t (front ++ before) ps ∧
      ∀ s ∈ tried, s.node.Undecided key t := by
  induction before generalizing front with
  | nil => exact ⟨[], by rw [List.append_nil]; rfl, nofun⟩
  | cons p before ih =>
    obtain ⟨hp, hbefore⟩ := List.forall_mem_cons.mp hbefore
    obtain ⟨tried, htried, hundecided⟩ := ih (undecided_concat hfront hp) hbefore
    refine ⟨p.spots.map (Spot.below ⟨front, before ++ ps⟩) ++ tried, ?_, ?_⟩
    · rw [List.cons_append, visitedBehind_cons hfront, visited_of_undecided p hp, htried, List.append_assoc,
        List.append_assoc, List.singleton_append]
    · refine List.forall_mem_append.mpr ⟨fun s hs => ?_, hundecided⟩
      obtain ⟨inner, hinner, rfl⟩ := List.mem_map.mp hs
      have hnode := undecided_of_mem_spots hp hinner
      exact hnode

/-- The search ends with a leaf and the choices around it, and these have the outcome of the whole. The key matches
none of the nodes before them. -/
structure DecidedBy (key : Text) (t : Trail) (p : Pattern) (l : Leaf) (way : List Turn) (tried : List Spot) :
    Prop where
  visited_eq : visited key t p = tried ++ ⟨way, leaf l⟩ :: Spot.around (leaf l) way
  undecided : ∀ s ∈ tried, s.node.Undecided key t
  outcome_eq : ∀ s ∈ (⟨way, leaf l⟩ :: Spot.around (leaf l) way : List Spot),
    (s.node.accept key t).outcome = (p.accept key t).outcome

section
variable {l : Leaf} {way : List Turn} {tried : List Spot}

theorem DecidedBy.whole_eq (h : p.DecidedBy key t l way tried) : Spot.whole ⟨way, leaf l⟩ = p := by
  have hmem : ⟨way, leaf l⟩ ∈ visited key t p := by
    rw [h.visited_eq]
    exact List.mem_append_right tried List.mem_cons_self
  exact whole_of_mem_spots p _ (List.mem_of_mem_filter hmem)

theorem DecidedBy.accept_leaf (h : p.DecidedBy key t l way tried) : l.accept key t = (p.accept key t).outcome := by
  rw [← h.outcome_eq _ List.mem_cons_self, outcome_accept_leaf]

/-- What decides the first decided branch of a choice decides the choice. -/
theorem DecidedBy.choice (h : p.DecidedBy key t l way tried) (hp : ¬ p.Undecided key t) {before : List Pattern}
    (hbefore : ∀ q ∈ before, q.Undecided key t) (behind : List Pattern) :
    ∃ tried, DecidedBy key t (choice (before ++ p :: behind)) l (⟨before, behind⟩ :: way) tried := by
  have haround : (⟨⟨before, behind⟩ :: way, leaf l⟩ :: Spot.around (leaf l) (⟨before, behind⟩ :: way) : List Spot) =
      (⟨way, leaf l⟩ :: Spot.around (leaf l) way : List Spot).map (Spot.below ⟨before, behind⟩) ++
        [⟨[], .choice (before ++ p :: behind)⟩] := by
    rw [← h.whole_eq]
    rfl
  have houtcome : (accept key t (.choice (before ++ p :: behind))).outcome = (p.accept key t).outcome := by
    rw [outcome_accept_choice, outcome_acceptFirst_of_first_decided hbefore hp]
  have hnone : ∀ q ∈ ([] : List Pattern), q.Undecided key t := nofun
  obtain ⟨first, hfirst, hundecided⟩ := visitedBehind_append hnone hbefore (p :: behind)
  refine ⟨first ++ tried.map (Spot.below ⟨before, behind⟩), ?visited, ?undecided, ?outcome⟩
  case visited =>
    rw [visited_choice, hfirst, List.nil_append, visitedBehind_cons_of_decided hbefore hp, h.visited_eq, haround,
      List.map_append, List.append_assoc, List.append_assoc, List.append_assoc]
  case undecided =>
    refine List.forall_mem_append.mpr ⟨hundecided, fun s hs => ?_⟩
    obtain ⟨inner, hinner, rfl⟩ := List.mem_map.mp hs
    exact h.undecided inner hinner
  case outcome =>
    rw [haround, houtcome]
    refine List.forall_mem_append.mpr ⟨fun s hs => ?_, List.forall_mem_singleton.mpr houtcome⟩
    obtain ⟨inner, hinner, rfl⟩ := List.mem_map.mp hs
    exact h.outcome_eq inner hinner

end

/-- A decided search ends with the leaf that decides it and the choices around that leaf. -/
theorem exists_deciding_leaf (h : ¬ p.Undecided key t) : ∃ l way tried, p.DecidedBy key t l way tried := by
  induction p using branchInduction with
  | leaf l => exact ⟨l, [], [], rfl, nofun, List.forall_mem_singleton.mpr rfl⟩
  | choice ps ih =>
    obtain ⟨before, p, behind, rfl, hbefore, hp⟩ := exists_first_decided (mt undecided_choice_iff.mpr h)
    obtain ⟨l, way, tried, hdecided⟩ := ih p (List.mem_append_right before List.mem_cons_self) hp
    obtain ⟨tried, hchoice⟩ := hdecided.choice hp hbefore behind
    exact ⟨l, _, tried, hchoice⟩

end Pattern
end
end KeyPath
