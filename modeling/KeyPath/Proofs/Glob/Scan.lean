import KeyPath.Proofs.Glob.Match

/-!
Matching a key with stars in one scan. What stands in front of the first star and behind the last one is taken
off the two ends of the key. The segments in between are looked for from the left, each at its leftmost place
behind the one before it, and no place is given up again (`Glob.scan`). The scan captures what the search
captures (`Glob.captures?_eq_scan`), so a match never has to go back (`accept_eq_scan`). The reason is that the
leftmost place leaves the most text to the segments behind it, and a capture can take in what they do not need
(`Glob.CutAround.exists_append`).
-/
namespace KeyPath
set_option autoImplicit false

/-! ## Places in a text -/

namespace Text

/-- The leftmost place, from `pos` on, at which `s` stands in the text and ends no later than at `stop`. -/
def leftmost? (s text : Text) (pos stop : Nat) : Option Nat :=
  (List.range' pos (stop + 1 - pos)).find? fun i =>
    decide (i + s.length ≤ stop ∧ text.extract i (i + s.length) = s)

theorem extract_append (a u b : Text) : (a ++ (u ++ b)).extract a.length (a.length + u.length) = u := by
  rw [List.extract_eq_take_drop, List.drop_left, Nat.add_sub_cancel_left, List.take_left]

theorem extract_append_append (a c s v b : Text) :
    (a ++ (c ++ (s ++ v) ++ b)).extract (a.length + c.length) (a.length + c.length + s.length) = s := by
  have hassoc : a ++ (c ++ (s ++ v) ++ b) = a ++ c ++ (s ++ (v ++ b)) := by simp only [List.append_assoc]
  rw [hassoc, ← List.length_append]
  exact extract_append (a ++ c) s (v ++ b)

section
variable {s u : Text} {i : Nat}

/-- A text stands at a place inside `u` if and only if `u` can be cut at that place. -/
theorem stands_iff (a b : Text) :
    (a.length ≤ i ∧ i + s.length ≤ a.length + u.length ∧ (a ++ (u ++ b)).extract i (i + s.length) = s) ↔
      ∃ c v, u = c ++ (s ++ v) ∧ i = a.length + c.length := by
  constructor
  · rintro ⟨hpos, hstop, hs⟩
    obtain ⟨k, rfl⟩ := Nat.exists_eq_add_of_le hpos
    have hk : k ≤ u.length := by omega
    have hfits : s.length ≤ (u.drop k).length := by
      rw [List.length_drop]
      omega
    rw [List.extract_eq_take_drop, Nat.add_sub_cancel_left, ← List.drop_drop, List.drop_left,
      List.drop_append_of_le_length hk, List.take_append_of_le_length hfits] at hs
    have hcut : s ++ (u.drop k).drop s.length = u.drop k := by
      calc s ++ (u.drop k).drop s.length = (u.drop k).take s.length ++ (u.drop k).drop s.length := by rw [hs]
        _ = u.drop k := List.take_append_drop _ _
    refine ⟨u.take k, (u.drop k).drop s.length, ?_, ?_⟩
    · rw [hcut, List.take_append_drop]
    · rw [List.length_take, Nat.min_eq_left hk]
  · rintro ⟨c, v, rfl, rfl⟩
    refine ⟨Nat.le_add_right _ _, ?_, extract_append_append a c s v b⟩
    rw [List.length_append, List.length_append]
    omega

theorem leftmost?_eq_none_iff (a b : Text) :
    leftmost? s (a ++ (u ++ b)) a.length (a.length + u.length) = none ↔ ∀ c v, u ≠ c ++ (s ++ v) := by
  rw [leftmost?, List.find?_range'_eq_none]
  constructor
  · intro h c v hu
    obtain ⟨hpos, hstop, hs⟩ := (stands_iff a b).mpr ⟨c, v, hu, rfl⟩
    have hnot := h (a.length + c.length) hpos (by omega)
    rw [decide_eq_true ⟨hstop, hs⟩] at hnot
    cases hnot
  · intro h i hpos _
    rw [Bool.not_eq_true', decide_eq_false_iff_not]
    rintro ⟨hstop, hs⟩
    obtain ⟨c, v, hu, -⟩ := (stands_iff a b).mp ⟨hpos, hstop, hs⟩
    exact h c v hu

/-- The leftmost place is where the text in front of it is shortest. -/
theorem exists_cut_of_leftmost? {a b : Text}
    (h : leftmost? s (a ++ (u ++ b)) a.length (a.length + u.length) = some i) :
    ∃ c v, u = c ++ (s ++ v) ∧ i = a.length + c.length ∧ ∀ d w, u = d ++ (s ++ w) → c.length ≤ d.length := by
  rw [leftmost?, List.find?_range'_eq_some] at h
  obtain ⟨hi, hmem, hbefore⟩ := h
  obtain ⟨hstop, hs⟩ := of_decide_eq_true hi
  obtain ⟨c, v, hu, rfl⟩ := (stands_iff a b).mp ⟨(List.mem_range'_1.mp hmem).1, hstop, hs⟩
  refine ⟨c, v, hu, rfl, ?_⟩
  intro d w hw
  apply Nat.le_of_not_lt
  intro hlt
  obtain ⟨hpos, hstop', hs'⟩ := (stands_iff a b).mpr ⟨d, w, hw, rfl⟩
  have hnot := hbefore (a.length + d.length) hpos (Nat.add_lt_add_left hlt _)
  rw [decide_eq_true ⟨hstop', hs'⟩] at hnot
  cases hnot

/-- Two cuts at one segment: behind the earlier place there is all that is behind the later one, and more. -/
theorem suffix_of_cuts {c d v w : Text} (hu : c ++ (s ++ v) = d ++ (s ++ w)) (hle : c.length ≤ d.length) : w <:+ v := by
  have hlen := congrArg List.length hu
  simp only [List.length_append] at hlen
  have hv : v <:+ c ++ (s ++ v) := (List.suffix_append s v).trans (List.suffix_append c (s ++ v))
  have hw : w <:+ c ++ (s ++ v) := hu ▸ (List.suffix_append s w).trans (List.suffix_append d (s ++ w))
  exact List.suffix_of_suffix_length_le hw hv (by omega)

end

theorem exists_eq_append_of_ends {first last key : Text} (hlen : first.length + last.length ≤ key.length)
    (hfirst : first <+: key) (hlast : last <:+ key) : ∃ u, key = first ++ (u ++ last) := by
  obtain ⟨w, rfl⟩ := hfirst
  rw [List.length_append, Nat.add_le_add_iff_left] at hlen
  obtain ⟨u, rfl⟩ := List.suffix_of_suffix_length_le hlast (List.suffix_append first w) hlen
  exact ⟨u, rfl⟩

end Text

/-! ## The scan -/

namespace Glob

/-- Takes every segment at its leftmost place in what is left of the key before `stop`. -/
def scanFrom (key : Text) (stop : Nat) : Nat → List Text → Option (List Text)
  | pos, [] => some [key.extract pos stop]
  | pos, s :: inner =>
    (Text.leftmost? s key pos stop).bind fun i =>
      (scanFrom key stop (i + s.length) inner).map (key.extract pos i :: ·)

/-- The captures of a key that begins with `first` and ends with `last`, with the segments in between. -/
def scan (first : Text) (inner : List Text) (last key : Text) : Option (List Text) :=
  if first.length + last.length ≤ key.length ∧ first <+: key ∧ last <:+ key then
    scanFrom key (key.length - last.length) first.length inner
  else none

/-- The text is cut into the segments, with one capture in front of each of them and one behind them all. -/
def CutAround : List Text → Text → List Text → Prop
  | [], u, cs => cs = [u]
  | s :: inner, u, cs => ∃ c v ds, cs = c :: ds ∧ u = c ++ (s ++ v) ∧ CutAround inner v ds

section
variable {u v w last : Text} {inner cs ds : List Text}

/-- Text in front of a cut goes into the first capture. -/
theorem CutAround.exists_append (h : CutAround inner v ds) (x : Text) : ∃ es, CutAround inner (x ++ v) es := by
  cases inner with
  | nil => exact ⟨[x ++ v], rfl⟩
  | cons s inner =>
    obtain ⟨c, v', ds', -, rfl, hrest⟩ := h
    exact ⟨(x ++ c) :: ds', x ++ c, v', ds', rfl, by rw [List.append_assoc], hrest⟩

/-- The segment behind the last star stands at the end, however the stars are filled. -/
theorem cutRest_concat_iff :
    CutRest (inner ++ [last]) w cs ↔ ∃ u, w = u ++ last ∧ CutAround inner u cs := by
  induction inner generalizing w cs with
  | nil =>
    simp only [List.nil_append, cutRest_cons_iff, cutRest_nil_iff]
    constructor
    · rintro ⟨c, _, _, rfl, rfl, rfl, rfl⟩
      exact ⟨c, by rw [List.append_nil], rfl⟩
    · rintro ⟨u, rfl, rfl⟩
      exact ⟨u, [], [], rfl, by rw [List.append_nil], rfl, rfl⟩
  | cons s inner ih =>
    simp only [List.cons_append, cutRest_cons_iff, ih]
    constructor
    · rintro ⟨c, _, ds, rfl, rfl, u, rfl, hu⟩
      exact ⟨c ++ (s ++ u), by simp only [List.append_assoc], c, u, ds, rfl, rfl, hu⟩
    · rintro ⟨_, rfl, c, u, ds, rfl, rfl, hu⟩
      exact ⟨c, u ++ last, ds, rfl, by simp only [List.append_assoc], u, rfl, hu⟩

theorem fills_concat_iff {first key : Text} :
    Fills ⟨first, inner ++ [last]⟩ key cs ↔ ∃ u, key = first ++ (u ++ last) ∧ CutAround inner u cs := by
  simp only [fills_iff, Text.after?_eq_some_iff, cutRest_concat_iff]
  constructor
  · rintro ⟨_, rfl, u, rfl, hu⟩
    exact ⟨u, rfl, hu⟩
  · rintro ⟨u, rfl, hu⟩
    exact ⟨u ++ last, rfl, u, rfl, hu⟩

/-- One step of the scan: no place for the segment, or the leftmost one and a scan of what stands behind it. -/
theorem scanFrom_cons (a u b s : Text) (inner : List Text) :
    ((∀ c v, u ≠ c ++ (s ++ v)) ∧
        scanFrom (a ++ (u ++ b)) (a.length + u.length) a.length (s :: inner) = none) ∨
      ∃ c v, u = c ++ (s ++ v) ∧ (∀ d w, u = d ++ (s ++ w) → c.length ≤ d.length) ∧
        scanFrom (a ++ (u ++ b)) (a.length + u.length) a.length (s :: inner) =
          (scanFrom ((a ++ (c ++ s)) ++ (v ++ b)) ((a ++ (c ++ s)).length + v.length) (a ++ (c ++ s)).length
            inner).map (c :: ·) := by
  rw [scanFrom]
  cases hi : Text.leftmost? s (a ++ (u ++ b)) a.length (a.length + u.length) with
  | none => exact .inl ⟨(Text.leftmost?_eq_none_iff a b).mp hi, rfl⟩
  | some i =>
    obtain ⟨c, v, rfl, rfl, hleast⟩ := Text.exists_cut_of_leftmost? hi
    refine .inr ⟨c, v, rfl, hleast, ?_⟩
    have hkey : a ++ (c ++ (s ++ v) ++ b) = (a ++ (c ++ s)) ++ (v ++ b) := by simp only [List.append_assoc]
    have hpos : a.length + c.length + s.length = (a ++ (c ++ s)).length := by
      simp only [List.length_append, Nat.add_assoc]
    have hstop : a.length + (c ++ (s ++ v)).length = (a ++ (c ++ s)).length + v.length := by
      simp only [List.length_append, Nat.add_assoc]
    have hcapture : (a ++ (c ++ (s ++ v) ++ b)).extract a.length (a.length + c.length) = c := by
      rw [List.append_assoc c]
      exact Text.extract_append a c (s ++ v ++ b)
    rw [Option.bind_some, hcapture, hkey, hpos, hstop]

/-- Where the scan gives up, the text cannot be cut at all: the leftmost place leaves the most text to the
segments behind it, and what they do not need goes into a capture. -/
theorem not_cutAround_of_scanFrom {a b : Text}
    (h : scanFrom (a ++ (u ++ b)) (a.length + u.length) a.length inner = none) (ds : List Text) :
    ¬ CutAround inner u ds := by
  induction inner generalizing a u ds with
  | nil => cases h
  | cons s inner ih =>
    rintro ⟨d, w, ds, rfl, hw, hrest⟩
    obtain ⟨hnone, -⟩ | ⟨c, v, hu, hleast, hstep⟩ := scanFrom_cons a u b s inner
    · exact hnone d w hw
    · rw [hstep, Option.map_eq_none_iff] at h
      obtain ⟨x, rfl⟩ := Text.suffix_of_cuts (hu.symm.trans hw) (hleast d w hw)
      obtain ⟨es, hes⟩ := hrest.exists_append x
      exact ih h es hes

/-- The scan cuts the text, and of all cuts it has the lengths that come first in the lexicographic order. -/
theorem least_cutAround_of_scanFrom {a b : Text}
    (h : scanFrom (a ++ (u ++ b)) (a.length + u.length) a.length inner = some cs) :
    CutAround inner u cs ∧ ∀ ds, CutAround inner u ds → cs.map List.length ≤ ds.map List.length := by
  induction inner generalizing a u cs with
  | nil =>
    rw [scanFrom, Text.extract_append] at h
    obtain rfl : [u] = cs := Option.some.inj h
    exact ⟨rfl, fun ds hds => hds ▸ le_refl _⟩
  | cons s inner ih =>
    obtain ⟨-, hstep⟩ | ⟨c, v, hu, hleast, hstep⟩ := scanFrom_cons a u b s inner
    · rw [hstep] at h
      cases h
    · rw [hstep] at h
      obtain ⟨cs, hcs, rfl⟩ := Option.map_eq_some_iff.mp h
      obtain ⟨hcut, hmin⟩ := ih hcs
      refine ⟨⟨c, v, cs, rfl, hu, hcut⟩, ?_⟩
      rintro _ ⟨d, w, ds, rfl, hw, hrest⟩
      exact lengths_cons_le (hu.symm.trans hw) (hleast d w hw) fun hvw => hmin ds (hvw ▸ hrest)

end

/-! ## The whole key -/

theorem scan_of_ends (first u last : Text) (inner : List Text) :
    scan first inner last (first ++ (u ++ last)) =
      scanFrom (first ++ (u ++ last)) (first.length + u.length) first.length inner := by
  have hsuffix : last <:+ first ++ (u ++ last) := (List.suffix_append u last).trans (List.suffix_append first _)
  have hlen : (first ++ (u ++ last)).length = first.length + u.length + last.length := by
    simp only [List.length_append, Nat.add_assoc]
  rw [scan, if_pos ⟨by omega, List.prefix_append _ _, hsuffix⟩, hlen, Nat.add_sub_cancel]

/-- The single scan and the search, which tries all captures from the shortest on, find the same captures. -/
theorem captures?_eq_scan (first : Text) (inner : List Text) (last key : Text) :
    captures? ⟨first, inner ++ [last]⟩ key = scan first inner last key := by
  by_cases hends : first.length + last.length ≤ key.length ∧ first <+: key ∧ last <:+ key
  · obtain ⟨u, rfl⟩ := Text.exists_eq_append_of_ends hends.1 hends.2.1 hends.2.2
    have hcut : ∀ {ds}, Fills ⟨first, inner ++ [last]⟩ (first ++ (u ++ last)) ds → CutAround inner u ds := by
      intro ds hds
      obtain ⟨v, hv, hds⟩ := fills_concat_iff.mp hds
      obtain rfl : u = v := List.append_cancel_right (List.append_cancel_left hv)
      exact hds
    rw [scan_of_ends]
    cases hscan : scanFrom (first ++ (u ++ last)) (first.length + u.length) first.length inner with
    | none => exact captures?_eq_none_iff.mpr fun ds hds => not_cutAround_of_scanFrom hscan ds (hcut hds)
    | some cs =>
      obtain ⟨hcs, hmin⟩ := least_cutAround_of_scanFrom hscan
      exact captures?_eq_some_iff.mpr ⟨fills_concat_iff.mpr ⟨u, rfl, hcs⟩, fun ds hds => hmin ds (hcut hds)⟩
  · rw [scan, if_neg hends, captures?_eq_none_iff]
    intro ds hds
    obtain ⟨u, rfl, -⟩ := fills_concat_iff.mp hds
    apply hends
    refine ⟨?_, List.prefix_append _ _, (List.suffix_append u last).trans (List.suffix_append first _)⟩
    simp only [List.length_append]
    omega

end Glob

/-- A key with stars is matched in one scan that never goes back. -/
theorem accept_eq_scan [Engine] [Engine.LeftmostFirst] {first last : Text} {inner : List Text} {p : Pattern}
    (hfree : ∀ s ∈ first :: (inner ++ [last]), '*' ∉ s)
    (hp : (Pattern.ofKey (['*'].intercalate (first :: (inner ++ [last])))).outcome = .ok p)
    (hkind : p.kind = .glob) (key : Text) (t : Trail) :
    (p.accept key t).outcome = .ok ((Glob.scan first inner last key).map (.exact key ·)) := by
  rw [outcome_accept_stars hfree hp hkind, Glob.captures?_eq_scan]

open scoped Tabled

/-- The first place of the text between the stars is taken though it also stands further on, the empty one stands
right behind it, and the end of the key is out of reach for both. -/
theorem accept_eq_scan_overlap :
    (Pattern.accept "aababaa".toList .empty (.leaf (.glob ⟨['a'], ["aba".toList, [], ['a']]⟩))).outcome =
        .ok (some (.exact "aababaa".toList [[], [], "ba".toList])) ∧
      (Pattern.accept "aaba".toList .empty (.leaf (.glob ⟨['a'], ["aba".toList, [], ['a']]⟩))).outcome = .ok none := by
  have hfree : ∀ s ∈ ['a'] :: (["aba".toList, []] ++ [['a']]), '*' ∉ s := by decide
  have hp : (Pattern.ofKey (['*'].intercalate (['a'] :: (["aba".toList, []] ++ [['a']])))).outcome =
      .ok (.leaf (.glob ⟨['a'], ["aba".toList, [], ['a']]⟩)) := rfl
  have hfound : Glob.scan ['a'] ["aba".toList, []] ['a'] "aababaa".toList = some [[], [], "ba".toList] := by decide
  have hnone : Glob.scan ['a'] ["aba".toList, []] ['a'] "aaba".toList = none := by decide
  constructor
  · rw [accept_eq_scan hfree hp rfl, hfound]
    rfl
  · rw [accept_eq_scan hfree hp rfl, hnone]
    rfl

end KeyPath
