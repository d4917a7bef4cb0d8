import KeyPath.Proofs.Compiled
import KeyPath.Proofs.Decision
import KeyPath.Proofs.Glob.Captures

/-!
Matching a key with stars. The texts between the stars of the written key are the segments of its glob
(`Glob.ofKey_intercalate`), so what a match captures is told by the written key alone
(`accept_stars_iff`).
-/
namespace KeyPath
set_option autoImplicit false

/-! ## The segments of a written key -/

namespace Glob

theorem ofKey_of_no_star {s : Text} (hs : '*' ∉ s) : ofKey s = ⟨s, []⟩ := by
  induction s with
  | nil => rfl
  | cons c s ih =>
    rw [List.mem_cons, not_or] at hs
    rw [ofKey, ih hs.2]
    exact if_neg (Ne.symm hs.1)

theorem ofKey_append_star {s : Text} (hs : '*' ∉ s) (u : Text) :
    ofKey (s ++ '*' :: u) = ⟨s, (ofKey u).first :: (ofKey u).rest⟩ := by
  induction s with
  | nil =>
    rw [List.nil_append, ofKey]
    exact if_pos rfl
  | cons c s ih =>
    rw [List.mem_cons, not_or] at hs
    rw [List.cons_append, ofKey, ih hs.2]
    exact if_neg (Ne.symm hs.1)

theorem ofKey_intercalate {s₀ : Text} {ss : List Text} (hfree : ∀ s ∈ s₀ :: ss, '*' ∉ s) :
    ofKey (['*'].intercalate (s₀ :: ss)) = ⟨s₀, ss⟩ := by
  induction ss generalizing s₀ with
  | nil =>
    rw [List.intercalate_singleton]
    exact ofKey_of_no_star (hfree s₀ List.mem_cons_self)
  | cons s₁ ss ih =>
    have hrest := ih fun s hs => hfree s (List.mem_cons_of_mem s₀ hs)
    rw [List.intercalate_cons_cons, List.append_assoc, List.singleton_append,
      ofKey_append_star (hfree s₀ List.mem_cons_self), hrest]

end Glob

/-! ## Matching -/

section
variable [Engine] [Engine.LeftmostFirst]

theorem outcome_accept_glob (key : Text) (t : Trail) (g : Glob) :
    (Pattern.accept key t (.leaf (.glob g))).outcome = .ok ((g.captures? key).map (.exact key ·)) := by
  rw [Pattern.outcome_accept_leaf, ← Glob.groups?_eq_captures?]
  rfl

/-- A key that is written with stars between the given segments searches for these segments. -/
theorem outcome_accept_stars {s₀ : Text} {ss : List Text} {p : Pattern} (hfree : ∀ s ∈ s₀ :: ss, '*' ∉ s)
    (hp : (Pattern.ofKey (['*'].intercalate (s₀ :: ss))).outcome = .ok p) (hkind : p.kind = .glob)
    (key : Text) (t : Trail) :
    (p.accept key t).outcome = .ok ((Glob.captures? ⟨s₀, ss⟩ key).map (.exact key ·)) := by
  have hglob := Pattern.eq_glob_of_ofKey hp hkind
  rw [Glob.ofKey_intercalate hfree] at hglob
  rw [hglob, outcome_accept_glob]

/-- A key that is written with stars between the given segments never fails to decide. It matches the keys
that some captures fill it to, and captures those whose lengths come first in the lexicographic order. -/
theorem accept_stars_iff {s₀ : Text} {ss : List Text} {p : Pattern} (hfree : ∀ s ∈ s₀ :: ss, '*' ∉ s)
    (hp : (Pattern.ofKey (['*'].intercalate (s₀ :: ss))).outcome = .ok p) (hkind : p.kind = .glob)
    (key : Text) (t : Trail) :
    (∃ found, (p.accept key t).outcome = .ok found) ∧
      ((∃ m, (p.accept key t).outcome = .ok (some m)) ↔ ∃ cs, Glob.Fills ⟨s₀, ss⟩ key cs) ∧
      ((p.accept key t).outcome = .ok none ↔ ¬ ∃ cs, Glob.Fills ⟨s₀, ss⟩ key cs) ∧
      ∀ m, (p.accept key t).outcome = .ok (some m) ↔
        ∃ cs, m = .exact key cs ∧ Glob.Fills ⟨s₀, ss⟩ key cs ∧
          ∀ ds, Glob.Fills ⟨s₀, ss⟩ key ds → cs.map List.length ≤ ds.map List.length := by
  have hglob := Pattern.eq_glob_of_ofKey hp hkind
  rw [Glob.ofKey_intercalate hfree] at hglob
  subst hglob
  rw [outcome_accept_glob]
  cases hc : Glob.captures? ⟨s₀, ss⟩ key with
  | none =>
    have hnone : ¬ ∃ cs, Glob.Fills ⟨s₀, ss⟩ key cs :=
      fun ⟨cs, hcs⟩ => Glob.captures?_eq_none_iff.mp hc cs hcs
    refine ⟨⟨none, rfl⟩, ⟨?_, fun h => absurd h hnone⟩, ⟨fun _ => hnone, fun _ => rfl⟩, fun m => ⟨?_, ?_⟩⟩
    · rintro ⟨m, hm⟩
      cases hm
    · intro hm
      cases hm
    · rintro ⟨cs, -, hcs, -⟩
      exact absurd ⟨cs, hcs⟩ hnone
  | some cs =>
    obtain ⟨hfills, hleast⟩ := Glob.captures?_eq_some_iff.mp hc
    refine ⟨⟨_, rfl⟩, ⟨fun _ => ⟨cs, hfills⟩, fun _ => ⟨_, rfl⟩⟩, ⟨?_, fun h => absurd ⟨cs, hfills⟩ h⟩, ?_⟩
    · intro h
      cases h
    · intro m
      constructor
      · intro hm
        obtain rfl : Leaf.exact key cs = m := Option.some.inj (Except.ok.inj hm)
        exact ⟨cs, rfl, hfills, hleast⟩
      · rintro ⟨ds, rfl, hds, hdsleast⟩
        have heq := hc.symm.trans (Glob.captures?_eq_some_iff.mpr ⟨hds, hdsleast⟩)
        rw [Option.some.inj heq]
        rfl

end

open scoped Tabled

/-- The text between the stars stands twice in the key, and the first star stops at the first of them. -/
theorem accept_stars_twice :
    (Pattern.accept "xbyb".toList .empty (.leaf (.glob ⟨[], [['b'], []]⟩))).outcome =
        .ok (some (.exact "xbyb".toList [['x'], ['y', 'b']])) ∧
      Glob.Fills ⟨[], [['b'], []]⟩ "xbyb".toList [['x', 'b', 'y'], []] ∧
      ∀ ds, Glob.Fills ⟨[], [['b'], []]⟩ "xbyb".toList ds → [1, 2] ≤ ds.map List.length := by
  have hfree : ∀ s ∈ [[], ['b'], []], '*' ∉ s := by decide
  have hp : (Pattern.ofKey (['*'].intercalate [[], ['b'], []])).outcome =
      .ok (.leaf (.glob ⟨[], [['b'], []]⟩)) := rfl
  have h := (accept_stars_iff hfree hp rfl "xbyb".toList .empty).2.2.2 (.exact "xbyb".toList [['x'], ['y', 'b']])
  have hm : (Pattern.accept "xbyb".toList .empty (.leaf (.glob ⟨[], [['b'], []]⟩))).outcome =
      .ok (some (.exact "xbyb".toList [['x'], ['y', 'b']])) := rfl
  obtain ⟨cs, hcs, -, hleast⟩ := h.mp hm
  obtain rfl := (Leaf.exact.inj hcs).2
  exact ⟨hm, ⟨rfl, rfl⟩, hleast⟩

end KeyPath
