import KeyPath.Proofs.Glob.Match

/-!
Keys that are made by filling the stars. A fill comes back as what its star captures if the segment behind the
star cannot be found any earlier than behind the fill, and it cannot where its first character does not occur in
the fill (`Glob.captures?_fill`). The last star captures up to the segment at the end, so it may be filled with
any text.
-/
namespace KeyPath
set_option autoImplicit false

namespace Glob

/-- The segment is not empty, and its first character does not occur in the fill in front of it. -/
def Shuns (s fill : Text) : Prop := ∃ x u, s = x :: u ∧ x ∉ fill

variable {s c d v w last fill : Text} {inner fills ds : List Text}

/-- A segment that shuns a text does not stand at any place in it. -/
theorem Shuns.length_le (h : Shuns s c) (hu : c ++ (s ++ v) = d ++ (s ++ w)) : c.length ≤ d.length := by
  obtain ⟨x, u, rfl, hx⟩ := h
  rcases List.append_eq_append_iff.mp hu with ⟨e, rfl, -⟩ | ⟨e, rfl, he⟩
  · rw [List.length_append]
    exact Nat.le_add_right _ _
  · cases e with
    | nil => rw [List.append_nil]
    | cons y e =>
      obtain rfl : x = y := (List.cons.inj he).1
      exact absurd (List.mem_append_right d List.mem_cons_self) hx

theorem length_eq_of_shuns (h : List.Forall₂ Shuns inner fills) :
    (fills ++ [fill]).length = (inner ++ [last]).length := by
  rw [List.length_append, List.length_append, h.length_eq]
  rfl

/-- However else the key is cut, no star captures less than its fill while those in front of it capture theirs. -/
theorem lengths_le_of_cutRest_fillRest (h : List.Forall₂ Shuns inner fills)
    (hcut : CutRest (inner ++ [last]) (fillRest (inner ++ [last]) (fills ++ [fill])) ds) :
    (fills ++ [fill]).map List.length ≤ ds.map List.length := by
  induction h generalizing ds with
  | nil =>
    obtain ⟨d, v, ds, rfl, hv, hrest⟩ := cutRest_cons_iff.mp hcut
    obtain ⟨rfl, rfl⟩ := cutRest_nil_iff.mp hrest
    change fill ++ last ++ [] = d ++ (last ++ []) at hv
    rw [List.append_assoc] at hv
    obtain rfl : fill = d := List.append_cancel_right hv
    exact le_refl _
  | cons hshuns _ ih =>
    obtain ⟨d, v, ds, rfl, hv, hrest⟩ := cutRest_cons_iff.mp hcut
    rw [List.cons_append, List.cons_append, fillRest, List.append_assoc] at hv
    refine lengths_cons_le hv (hshuns.length_le hv) ?_
    rintro rfl
    exact ih hrest

theorem captures?_fill (first last fill : Text) (h : List.Forall₂ Shuns inner fills) :
    captures? ⟨first, inner ++ [last]⟩ (Glob.fill ⟨first, inner ++ [last]⟩ (fills ++ [fill])) =
      some (fills ++ [fill]) := by
  refine captures?_eq_some_iff.mpr ⟨⟨length_eq_of_shuns h, rfl⟩, ?_⟩
  intro ds hds
  obtain ⟨u, hu, hcut⟩ := fills_iff.mp hds
  have hrest : fillRest (inner ++ [last]) (fills ++ [fill]) = u :=
    List.append_cancel_left (Text.after?_eq_some_iff.mp hu)
  exact lengths_le_of_cutRest_fillRest h (hrest ▸ hcut)

end Glob

/-- Filling the stars of a key gives a key that matches, and its sub-keys are that key and the fills. -/
theorem accept_filled_key [Engine] [Engine.LeftmostFirst] {first last : Text} {inner fills : List Text} {p : Pattern}
    (hfree : ∀ s ∈ first :: (inner ++ [last]), '*' ∉ s)
    (hp : (Pattern.ofKey (['*'].intercalate (first :: (inner ++ [last])))).outcome = .ok p)
    (hkind : p.kind = .glob) (hfills : List.Forall₂ Glob.Shuns inner fills) (fill : Text) (t : Trail) :
    let filled := Glob.fill ⟨first, inner ++ [last]⟩ (fills ++ [fill])
    ∃ m, (p.accept filled t).outcome = .ok (some m) ∧ m = .exact filled (fills ++ [fill]) ∧
      ∀ index s, (Pattern.leaf m).capture index = .ok s ↔ (filled :: (fills ++ [fill]))[index]? = some s := by
  intro filled
  refine ⟨_, ?_, rfl, fun index s => Pattern.capture_exact_eq_ok_iff⟩
  rw [outcome_accept_stars hfree hp hkind, Glob.captures?_fill first last fill hfills]
  rfl

open scoped Tabled

/-- Both segments between the stars stand again in what is filled in behind them. -/
theorem accept_filled_key_again :
    List.Forall₂ Glob.Shuns ["ab".toList, ['b']] ["xb".toList, "aca".toList] ∧
      (Pattern.accept "axbabacababb".toList .empty (.leaf (.glob ⟨['a'], ["ab".toList, ['b'], []]⟩))).outcome =
        .ok (some (.exact "axbabacababb".toList ["xb".toList, "aca".toList, "abb".toList])) := by
  have hfree : ∀ s ∈ ['a'] :: (["ab".toList, ['b']] ++ [[]]), '*' ∉ s := by decide
  have hp : (Pattern.ofKey (['*'].intercalate (['a'] :: (["ab".toList, ['b']] ++ [[]])))).outcome =
      .ok (.leaf (.glob ⟨['a'], ["ab".toList, ['b'], []]⟩)) := rfl
  have hfills : List.Forall₂ Glob.Shuns ["ab".toList, ['b']] ["xb".toList, "aca".toList] :=
    .cons ⟨'a', ['b'], rfl, by decide⟩ (.cons ⟨'b', [], rfl, by decide⟩ .nil)
  obtain ⟨m, hm, rfl, -⟩ := accept_filled_key hfree hp rfl hfills "abb".toList .empty
  exact ⟨hfills, hm⟩

end KeyPath
