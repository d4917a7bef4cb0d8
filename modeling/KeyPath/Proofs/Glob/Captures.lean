import KeyPath.Proofs.Glob.Expression
import Mathlib.Data.List.Lex

/-!
What a glob captures. The captures of a key are texts that, put in the place of the stars, give the key;
of all such texts they are the ones whose lengths come first in the lexicographic order
(`Glob.captures?_eq_some_iff`), and a key without any such texts does not match
(`Glob.captures?_eq_none_iff`). The induction is on the stars, and inside it, for one star, on the text.
What an engine with leftmost-first matches captures is the same (`Glob.fills_of_groups?`).
-/
namespace KeyPath.Glob
set_option autoImplicit false

/-! ## One star -/

variable {s : Text} {next : Text → Option (List Text)}

theorem searchStar_of_here {u : Text} {ds : List Text} (h : (Text.after? s u).bind next = some ds) :
    searchStar s next u = some ([] :: ds) := by
  cases u with
  | nil => rw [searchStar, h, Option.map_some]
  | cons x u => rw [searchStar, h]

theorem searchStar_nil_of_not_here (h : (Text.after? s []).bind next = none) :
    searchStar s next [] = none := by
  rw [searchStar, h, Option.map_none]

theorem searchStar_cons_of_not_here {x : Char} {u : Text} (h : (Text.after? s (x :: u)).bind next = none) :
    searchStar s next (x :: u) = (searchStar s next u).map (lengthen x) := by
  rw [searchStar, h]

theorem bind_after?_eq_some_iff {u : Text} {ds : List Text} :
    (Text.after? s u).bind next = some ds ↔ ∃ v, u = s ++ v ∧ next v = some ds := by
  rw [Option.bind_eq_some_iff]
  constructor
  · rintro ⟨v, hv, hds⟩
    exact ⟨v, Text.after?_eq_some_iff.mp hv, hds⟩
  · rintro ⟨v, hv, hds⟩
    exact ⟨v, Text.after?_eq_some_iff.mpr hv, hds⟩

theorem next_eq_none_of_not_here {u v : Text} (h : (Text.after? s u).bind next = none) (hu : u = s ++ v) :
    next v = none := by
  rw [Text.after?_eq_some_iff.mpr hu] at h
  exact h

/-- A star that finds no capture leaves nothing that the rest could go on with. -/
theorem next_eq_none_of_searchStar {u : Text} (h : searchStar s next u = none) :
    ∀ c v, u = c ++ (s ++ v) → next v = none := by
  induction u with
  | nil =>
    intro c v hu
    obtain ⟨rfl, hv⟩ := List.append_eq_nil_iff.mp hu.symm
    cases hhere : (Text.after? s []).bind next with
    | none => exact next_eq_none_of_not_here hhere hv.symm
    | some ds =>
      rw [searchStar_of_here hhere] at h
      cases h
  | cons x u ih =>
    intro c v hu
    cases hhere : (Text.after? s (x :: u)).bind next with
    | some ds =>
      rw [searchStar_of_here hhere] at h
      cases h
    | none =>
      rw [searchStar_cons_of_not_here hhere, Option.map_eq_none_iff] at h
      cases c with
      | nil => exact next_eq_none_of_not_here hhere hu
      | cons y c => exact ih h c v (List.cons.inj hu).2

/-- The capture of a star is the shortest one behind which the rest can go on. -/
theorem exists_capture_of_searchStar {u : Text} {cs : List Text} (h : searchStar s next u = some cs) :
    ∃ c v ds, cs = c :: ds ∧ u = c ++ (s ++ v) ∧ next v = some ds ∧
      ∀ c' v', c'.length < c.length → u = c' ++ (s ++ v') → next v' = none := by
  induction u generalizing cs with
  | nil =>
    cases hhere : (Text.after? s []).bind next with
    | none =>
      rw [searchStar_nil_of_not_here hhere] at h
      cases h
    | some ds =>
      rw [searchStar_of_here hhere] at h
      obtain ⟨v, hu, hds⟩ := bind_after?_eq_some_iff.mp hhere
      exact ⟨[], v, ds, (Option.some.inj h).symm, hu, hds, fun c' _ hc' => absurd hc' (Nat.not_lt_zero _)⟩
  | cons x u ih =>
    cases hhere : (Text.after? s (x :: u)).bind next with
    | some ds =>
      rw [searchStar_of_here hhere] at h
      obtain ⟨v, hu, hds⟩ := bind_after?_eq_some_iff.mp hhere
      exact ⟨[], v, ds, (Option.some.inj h).symm, hu, hds, fun c' _ hc' => absurd hc' (Nat.not_lt_zero _)⟩
    | none =>
      rw [searchStar_cons_of_not_here hhere, Option.map_eq_some_iff] at h
      obtain ⟨ds', hds', rfl⟩ := h
      obtain ⟨c, v, ds, rfl, rfl, hds, hshort⟩ := ih hds'
      refine ⟨x :: c, v, ds, rfl, rfl, hds, ?_⟩
      intro c' v' hlen hu
      cases c' with
      | nil => exact next_eq_none_of_not_here hhere hu
      | cons y c' => exact hshort c' v' (Nat.lt_of_succ_lt_succ hlen) (List.cons.inj hu).2

/-! ## All stars -/

/-- The text is cut into one capture for each star and the segments behind the stars. -/
def CutRest (segments : List Text) (u : Text) (cs : List Text) : Prop :=
  cs.length = segments.length ∧ u = fillRest segments cs

theorem cutRest_nil_iff {u : Text} {cs : List Text} : CutRest [] u cs ↔ u = [] ∧ cs = [] := by
  constructor
  · rintro ⟨hlen, hu⟩
    obtain rfl : cs = [] := List.length_eq_zero_iff.mp hlen
    exact ⟨hu, rfl⟩
  · rintro ⟨rfl, rfl⟩
    exact ⟨rfl, rfl⟩

theorem cutRest_cons_iff {segments : List Text} {u : Text} {cs : List Text} :
    CutRest (s :: segments) u cs ↔ ∃ c v ds, cs = c :: ds ∧ u = c ++ (s ++ v) ∧ CutRest segments v ds := by
  constructor
  · rintro ⟨hlen, hu⟩
    cases cs with
    | nil => exact absurd hlen.symm (Nat.succ_ne_zero _)
    | cons c ds =>
      refine ⟨c, fillRest segments ds, ds, rfl, ?_, Nat.succ.inj hlen, rfl⟩
      rw [hu, fillRest, List.append_assoc]
  · rintro ⟨c, v, ds, rfl, rfl, hlen, rfl⟩
    refine ⟨congrArg Nat.succ hlen, ?_⟩
    rw [fillRest, List.append_assoc]

theorem not_cutRest_of_searchRest {segments : List Text} {u : Text} (h : searchRest segments u = none)
    (cs : List Text) : ¬ CutRest segments u cs := by
  induction segments generalizing u cs with
  | nil =>
    intro hcut
    obtain ⟨rfl, -⟩ := cutRest_nil_iff.mp hcut
    cases h
  | cons s segments ih =>
    intro hcut
    obtain ⟨c, v, ds, -, hu, hrest⟩ := cutRest_cons_iff.mp hcut
    exact ih (next_eq_none_of_searchStar h c v hu) ds hrest

theorem cutRest_of_searchRest {segments : List Text} {u : Text} {cs : List Text}
    (h : searchRest segments u = some cs) : CutRest segments u cs := by
  induction segments generalizing u cs with
  | nil =>
    change (if u = [] then some [] else none) = some cs at h
    split at h
    · next hu => exact cutRest_nil_iff.mpr ⟨hu, (Option.some.inj h).symm⟩
    · cases h
  | cons s segments ih =>
    obtain ⟨c, v, ds, rfl, hu, hds, -⟩ := exists_capture_of_searchStar h
    exact cutRest_cons_iff.mpr ⟨c, v, ds, rfl, hu, ih hds⟩

/-- Of two cuts with the same segment behind the first captures, the one whose first capture is not the longer
one comes first, if it also does where the first captures are the same. -/
theorem lengths_cons_le {c d v w : Text} {cs ds : List Text} (hu : c ++ (s ++ v) = d ++ (s ++ w))
    (hle : c.length ≤ d.length) (hrest : v = w → cs.map List.length ≤ ds.map List.length) :
    (c :: cs).map List.length ≤ (d :: ds).map List.length := by
  rw [List.map_cons, List.map_cons]
  rcases Nat.lt_or_eq_of_le hle with hlt | heq
  · exact le_of_lt (List.Lex.rel hlt)
  · obtain ⟨rfl, htail⟩ := List.append_inj hu heq
    exact List.cons_le_cons c.length (hrest (List.append_cancel_left htail))

theorem lengths_le_of_searchRest {segments : List Text} {u : Text} {cs ds : List Text}
    (h : searchRest segments u = some cs) (hcut : CutRest segments u ds) :
    cs.map List.length ≤ ds.map List.length := by
  induction segments generalizing u cs ds with
  | nil =>
    obtain ⟨-, rfl⟩ := cutRest_nil_iff.mp hcut
    obtain ⟨-, rfl⟩ := cutRest_nil_iff.mp (cutRest_of_searchRest h)
    exact le_refl _
  | cons s segments ih =>
    obtain ⟨c, v, cs', rfl, hu, hcs', hshort⟩ := exists_capture_of_searchStar h
    obtain ⟨d, w, ds', rfl, hw, hcut'⟩ := cutRest_cons_iff.mp hcut
    -- The other cut cannot have a shorter first capture, since the rest would fail behind it.
    have hle : c.length ≤ d.length := by
      apply Nat.le_of_not_lt
      intro hlt
      exact not_cutRest_of_searchRest (hshort d w hlt hw) ds' hcut'
    refine lengths_cons_le (hu.symm.trans hw) hle ?_
    rintro rfl
    exact ih hcs' hcut'

theorem eq_of_cutRest_of_lengths {segments : List Text} {u : Text} {cs ds : List Text}
    (hcs : CutRest segments u cs) (hds : CutRest segments u ds)
    (hlen : cs.map List.length = ds.map List.length) : cs = ds := by
  induction segments generalizing u cs ds with
  | nil => rw [(cutRest_nil_iff.mp hcs).2, (cutRest_nil_iff.mp hds).2]
  | cons s segments ih =>
    obtain ⟨c, v, cs', rfl, hu, hcs'⟩ := cutRest_cons_iff.mp hcs
    obtain ⟨d, w, ds', rfl, hw, hds'⟩ := cutRest_cons_iff.mp hds
    obtain ⟨hhead, htail⟩ := List.cons.inj hlen
    obtain ⟨rfl, hrest⟩ := List.append_inj (hu.symm.trans hw) hhead
    obtain rfl : v = w := List.append_cancel_left hrest
    rw [ih hcs' hds' htail]

/-! ## The whole key -/

/-- The captures, one for each star, give the key when they are put in the place of the stars. -/
def Fills (g : Glob) (key : Text) (cs : List Text) : Prop :=
  cs.length = g.stars ∧ g.fill cs = key

variable {g : Glob} {key : Text} {cs : List Text}

theorem fills_iff : g.Fills key cs ↔ ∃ u, Text.after? g.first key = some u ∧ CutRest g.rest u cs := by
  unfold Fills
  constructor
  · rintro ⟨hlen, rfl⟩
    exact ⟨fillRest g.rest cs, Text.after?_eq_some_iff.mpr rfl, hlen, rfl⟩
  · rintro ⟨u, hu, hlen, rfl⟩
    exact ⟨hlen, (Text.after?_eq_some_iff.mp hu).symm⟩

theorem captures?_eq_none_iff : g.captures? key = none ↔ ∀ cs, ¬ g.Fills key cs := by
  rw [captures?_eq_search, search]
  constructor
  · intro h cs hfills
    obtain ⟨u, hu, hcut⟩ := fills_iff.mp hfills
    rw [hu, Option.bind_some] at h
    exact not_cutRest_of_searchRest h cs hcut
  · intro h
    rw [Option.bind_eq_none_iff]
    intro u hu
    cases hs : searchRest g.rest u with
    | none => rfl
    | some cs => exact absurd (fills_iff.mpr ⟨u, hu, cutRest_of_searchRest hs⟩) (h cs)

/-- The captures of a key, and no others, fill the stars with lengths that come first in the
lexicographic order. -/
theorem captures?_eq_some_iff :
    g.captures? key = some cs ↔
      g.Fills key cs ∧ ∀ ds, g.Fills key ds → cs.map List.length ≤ ds.map List.length := by
  have hleast : ∀ {es}, g.captures? key = some es →
      g.Fills key es ∧ ∀ ds, g.Fills key ds → es.map List.length ≤ ds.map List.length := by
    intro es h
    rw [captures?_eq_search, search, Option.bind_eq_some_iff] at h
    obtain ⟨u, hu, hs⟩ := h
    refine ⟨fills_iff.mpr ⟨u, hu, cutRest_of_searchRest hs⟩, ?_⟩
    intro ds hds
    obtain ⟨v, hv, hcut⟩ := fills_iff.mp hds
    obtain rfl : u = v := Option.some.inj (hu.symm.trans hv)
    exact lengths_le_of_searchRest hs hcut
  refine ⟨hleast, ?_⟩
  rintro ⟨hfills, hmin⟩
  cases hc : g.captures? key with
  | none => exact absurd hfills (captures?_eq_none_iff.mp hc cs)
  | some es =>
    obtain ⟨hes, hesmin⟩ := hleast hc
    have hlen : es.map List.length = cs.map List.length := le_antisymm (hesmin cs hfills) (hmin es hes)
    obtain ⟨u, hu, hcut⟩ := fills_iff.mp hes
    obtain ⟨v, hv, hcut'⟩ := fills_iff.mp hfills
    obtain rfl : u = v := Option.some.inj (hu.symm.trans hv)
    rw [eq_of_cutRest_of_lengths hcut hcut' hlen]

theorem fills_of_groups? [Engine] [Engine.LeftmostFirst] (h : g.groups? key = some cs) : g.Fills key cs := by
  rw [groups?_eq_captures?] at h
  exact (captures?_eq_some_iff.mp h).1

end KeyPath.Glob
