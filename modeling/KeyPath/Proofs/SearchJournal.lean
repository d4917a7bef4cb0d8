import KeyPath.Proofs.Search

/-!
What the journal of a match tells about the search. A node makes its entry when the search leaves it, unless it
fails, so there is one entry for each node that is reached and does not fail, in the order of the nodes. The entries
of a match stand at the end: that of the leaf that matches and those of the choices around it
(`journal_of_accept`).
-/
namespace KeyPath
set_option autoImplicit false

/-! ## The nodes that are finished -/

instance {α : Type} : (x : Except Fault α) → Decidable (∃ a, x = .ok a)
  | .ok a => isTrue ⟨a, rfl⟩
  | .error _ => isFalse nofun

section
variable [Engine] (key : Text) (t : Trail)

/-- The node is reached and does not fail. -/
def Spot.Finished (s : Spot) : Prop := s.Reached key t ∧ ∃ found, (s.node.accept key t).outcome = .ok found

instance : DecidablePred (Spot.Finished key t) := fun s =>
  inferInstanceAs (Decidable (s.Reached key t ∧ ∃ found, (s.node.accept key t).outcome = .ok found))

def Pattern.finished (p : Pattern) : List Spot := p.spots.filter fun s => s.Finished key t

/-- Whether the key matches. -/
def Pattern.matched (p : Pattern) : Bool :=
  match (p.accept key t).outcome with
  | .ok found => found.isSome
  | .error _ => false

end

/-- The entry of a node. -/
def Spot.entry (key : Text) (matched : Bool) (s : Spot) : Entry := .tried key s.node.key matched

namespace Pattern

/-- What an outcome enters into the journal. -/
def conclusion (key : Text) (p : Pattern) : Except Fault (Option Leaf) → List Entry
  | .ok found => [.tried key p.key found.isSome]
  | .error _ => []

theorem entries_bind_conclude (key : Text) (x : Logged (Option Leaf)) (p : Pattern) :
    (x >>= conclude key p).entries = x.entries ++ conclusion key p x.outcome := by
  cases hx : x.outcome with
  | error fault => rw [Logged.entries_bind_error hx, conclusion, List.append_nil]
  | ok found =>
    rw [Logged.entries_bind_ok hx]
    rfl

variable [Engine] {key : Text} {t : Trail} {p : Pattern}

theorem finished_eq (p : Pattern) : finished key t p =
    (visited key t p).filter fun s => ∃ found, (s.node.accept key t).outcome = .ok found := by
  rw [finished, visited, List.filter_filter]
  refine List.filter_congr fun s _ => ?_
  rw [Bool.and_comm, ← Bool.decide_and]
  rfl

theorem finished_of_undecided (h : p.Undecided key t) : finished key t p = p.spots := by
  rw [finished_eq, visited_of_undecided p h, List.filter_eq_self]
  intro s hs
  rw [decide_eq_true_iff]
  exact ⟨none, undecided_of_mem_spots h hs⟩

section
variable {l : Leaf} {way : List Turn} {tried : List Spot}

theorem DecidedBy.finished_of_ok (h : p.DecidedBy key t l way tried) {found : Option Leaf}
    (hp : (p.accept key t).outcome = .ok found) :
    finished key t p = tried ++ ⟨way, leaf l⟩ :: Spot.around (leaf l) way := by
  rw [finished_eq, h.visited_eq, List.filter_eq_self]
  intro s hs
  rw [decide_eq_true_iff]
  obtain hs | hs := List.mem_append.mp hs
  · exact ⟨none, h.undecided s hs⟩
  · exact ⟨found, (h.outcome_eq s hs).trans hp⟩

theorem DecidedBy.finished_of_error (h : p.DecidedBy key t l way tried) {fault : Fault}
    (hp : (p.accept key t).outcome = .error fault) : finished key t p = tried := by
  have htried : ∀ s ∈ tried, ∃ found, (s.node.accept key t).outcome = .ok found :=
    fun s hs => ⟨none, h.undecided s hs⟩
  have hrest : ∀ s ∈ (⟨way, leaf l⟩ :: Spot.around (leaf l) way : List Spot),
      ¬ ∃ found, (s.node.accept key t).outcome = .ok found := by
    rintro s hs ⟨found, hfound⟩
    cases ((h.outcome_eq s hs).trans hp).symm.trans hfound
  rw [finished_eq, h.visited_eq, List.filter_append, List.filter_eq_self.mpr, List.filter_eq_nil_iff.mpr,
    List.append_nil]
  · exact fun s hs => by rw [decide_eq_true_iff]; exact hrest s hs
  · exact fun s hs => by rw [decide_eq_true_iff]; exact htried s hs

end

theorem matched_of_ok {found : Option Leaf} (h : (p.accept key t).outcome = .ok found) :
    matched key t p = found.isSome := by
  rw [matched, h]

/-! ## Entries -/

theorem entries_acceptFirst_cons_of_undecided (hp : p.Undecided key t) (ps : List Pattern) :
    (acceptFirst key t (p :: ps)).entries = (accept key t p).entries ++ (acceptFirst key t ps).entries :=
  Logged.entries_bind_ok hp _

theorem entries_acceptFirst_cons_of_decided (hp : ¬ p.Undecided key t) (ps : List Pattern) :
    (acceptFirst key t (p :: ps)).entries = (accept key t p).entries := by
  match hx : (accept key t p).outcome with
  | .error fault => exact Logged.entries_bind_error hx _
  | .ok none => exact absurd hx hp
  | .ok (some l) =>
    rw [acceptFirst, Logged.entries_bind_ok hx]
    exact List.append_nil _

/-- What the node of a spot enters into the journal. -/
def record (key : Text) (t : Trail) (s : Spot) : List Entry := conclusion key s.node (accept key t s.node).outcome

theorem flatMap_record_below (turn : Turn) (ss : List Spot) :
    (ss.map (Spot.below turn)).flatMap (record key t) = ss.flatMap (record key t) :=
  List.flatMap_map _ _ ss

mutual
/-- Each node that is reached makes its own entry. -/
theorem entries_accept : ∀ p : Pattern, (accept key t p).entries = (visited key t p).flatMap (record key t)
  | leaf l => by
    rw [visited_leaf, List.flatMap_singleton, record, outcome_accept_leaf]
    exact entries_bind_conclude key (Logged.ofExcept (l.accept key t)) (leaf l)
  | choice ps => by
    rw [visited_choice, List.flatMap_append, List.flatMap_singleton, record, outcome_accept_choice,
      ← entries_acceptFirst ps [] nofun]
    exact entries_bind_conclude key (acceptFirst key t ps) (choice ps)

theorem entries_acceptFirst : ∀ ps front : List Pattern, (∀ p ∈ front, p.Undecided key t) →
    (acceptFirst key t ps).entries = (visitedBehind key t front ps).flatMap (record key t)
  | [], _, _ => rfl
  | p :: ps, front, hfront => by
    by_cases hp : p.Undecided key t
    · rw [entries_acceptFirst_cons_of_undecided hp, entries_accept p,
        entries_acceptFirst ps (front ++ [p]) (undecided_concat hfront hp), visitedBehind_cons hfront,
        List.flatMap_append, flatMap_record_below]
    · rw [entries_acceptFirst_cons_of_decided hp, entries_accept p, visitedBehind_cons_of_decided hfront hp,
        flatMap_record_below]
end

theorem flatMap_record (ss : List Spot) : ss.flatMap (record key t) =
    (ss.filter fun s => ∃ found, (s.node.accept key t).outcome = .ok found).map fun s =>
      s.entry key (s.node.matched key t) := by
  induction ss with
  | nil => rfl
  | cons s ss ih =>
    rw [List.flatMap_cons, ih]
    cases hs : (accept key t s.node).outcome with
    | error fault =>
      rw [List.filter_cons_of_neg (by simp [hs]), record, hs]
      rfl
    | ok found =>
      rw [List.filter_cons_of_pos (by simp [hs]), List.map_cons, matched_of_ok hs, record, hs]
      rfl

theorem entries_accept_eq_map (p : Pattern) : (accept key t p).entries =
    (finished key t p).map fun s => s.entry key (s.node.matched key t) := by
  rw [entries_accept, flatMap_record, finished_eq]

theorem map_entry_of_outcome {ss : List Spot} {found : Option Leaf}
    (h : ∀ s ∈ ss, (s.node.accept key t).outcome = .ok found) :
    (ss.map fun s => s.entry key (s.node.matched key t)) = ss.map (Spot.entry key found.isSome) :=
  List.map_congr_left fun s hs => by rw [matched_of_ok (h s hs)]

end Pattern

/-! ## Journals -/

/-- The journal of a match has one entry for each node that is reached and does not fail, none of them twice, and
they come in the order of the nodes. If the key matches, the last entries are those of the leaf that matches and
of the choices around it, from the inside out, and only these say so. If it does not match, every node has an
entry. If the match fails, no entry is one of a match, and neither the leaf that fails nor a choice around it has
an entry, although they are all reached. -/
theorem journal_of_accept [Engine] (key : Text) (t : Trail) (p : Pattern) :
    let journal := (p.accept key t).entries
    let finished := p.finished key t
    (journal = finished.map fun s => s.entry key (s.node.matched key t)) ∧
      finished.Nodup ∧
      (∀ m, (p.accept key t).outcome = .ok (some m) → ∃ l way tried,
        l.accept key t = .ok (some m) ∧ Spot.whole ⟨way, .leaf l⟩ = p ∧
        finished = tried ++ ⟨way, .leaf l⟩ :: Spot.around (.leaf l) way ∧
        journal = tried.map (Spot.entry key false) ++
          (⟨way, .leaf l⟩ :: Spot.around (.leaf l) way : List Spot).map (Spot.entry key true)) ∧
      ((p.accept key t).outcome = .ok none → journal = p.nodes.map fun q => .tried key q.key false) ∧
      ∀ fault, (p.accept key t).outcome = .error fault →
        journal = finished.map (Spot.entry key false) ∧
        ∃ l way, l.accept key t = .error fault ∧ Spot.whole ⟨way, .leaf l⟩ = p ∧
          p.visited key t = finished ++ ⟨way, .leaf l⟩ :: Spot.around (.leaf l) way ∧
          ∀ s ∈ (⟨way, .leaf l⟩ :: Spot.around (.leaf l) way : List Spot), s ∉ finished := by
  intro journal finished
  have hjournal : journal = finished.map fun s => s.entry key (s.node.matched key t) :=
    Pattern.entries_accept_eq_map p
  refine ⟨hjournal, (Pattern.nodup_spots p).filter _, fun m hm => ?some, fun hnone => ?none, fun fault hfault => ?error⟩
  case some =>
    have hdecided : ¬ p.Undecided key t := fun h => by cases hm.symm.trans h
    obtain ⟨l, way, tried, h⟩ := Pattern.exists_deciding_leaf hdecided
    have hfinished : finished = tried ++ ⟨way, .leaf l⟩ :: Spot.around (.leaf l) way := h.finished_of_ok hm
    refine ⟨l, way, tried, h.accept_leaf.trans hm, h.whole_eq, hfinished, ?_⟩
    rw [hjournal, hfinished, List.map_append, Pattern.map_entry_of_outcome h.undecided,
      Pattern.map_entry_of_outcome fun s hs => (h.outcome_eq s hs).trans hm]
    rfl
  case none =>
    have hfinished : finished = p.spots := Pattern.finished_of_undecided hnone
    rw [hjournal, hfinished, Pattern.map_entry_of_outcome fun s hs => Pattern.undecided_of_mem_spots hnone hs,
      ← Pattern.map_node_spots, List.map_map]
    rfl
  case error =>
    have hdecided : ¬ p.Undecided key t := fun h => by cases hfault.symm.trans h
    obtain ⟨l, way, tried, h⟩ := Pattern.exists_deciding_leaf hdecided
    have hfinished : finished = tried := h.finished_of_error hfault
    refine ⟨?_, l, way, h.accept_leaf.trans hfault, h.whole_eq, ?_, ?_⟩
    · rw [hjournal, hfinished]
      exact Pattern.map_entry_of_outcome h.undecided
    · rw [hfinished]
      exact h.visited_eq
    · intro s hs hmem
      rw [hfinished] at hmem
      cases ((h.outcome_eq s hs).trans hfault).symm.trans (h.undecided s hmem)

/-- Past one leaf, the search ends at the first branch of the choice inside. -/
example [Engine] : (Pattern.accept ['b'] .empty (.choice [.leaf (.exact ['a'] []),
    .choice [.leaf (.exact ['b'] []), .leaf (.exact ['c'] [])], .leaf (.marker ['@'])])).entries =
      [.tried ['b'] ['a'] false, .tried ['b'] ['b'] true, .tried ['b'] "b|c".toList true,
        .tried ['b'] "a|b|c|@".toList true] := rfl

end KeyPath
