import KeyPath.Proofs.ReadBack
import KeyPath.Regex.Tabled

/-!
Which keys of a path matter. The key at a marker never does: two paths that differ at markers only have the
same outcome, be it a trail, no match or a fault (`outcome_accept_of_eq_but_at_markers`). In a spec without
choices the keys at globs are the only ones that are free, since the trail of the levels above says what every
other level takes; so two matched paths with the same keys at globs have the same trail, and a spec without
globs, markers and choices matches the path that its levels render to and no other one
(`path_of_keys_at_globs`).
-/
namespace KeyPath
set_option autoImplicit false

/-! ## Keys that are ignored -/

section
variable [Engine]

/-- The outcome is the same for every key. -/
def Pattern.IgnoresKey (p : Pattern) : Prop :=
  ∀ (t : Trail) (k j : Text), (p.accept k t).outcome = (p.accept j t).outcome

theorem Pattern.ignoresKey_marker (own : Text) : IgnoresKey (.leaf (.marker own)) := by
  intro t k j
  rw [outcome_accept_leaf, outcome_accept_leaf]
  rfl

theorem Trail.outcome_enter_of_ignoresKey {p : Pattern} (h : p.IgnoresKey) (t : Trail) (k j : Text) :
    (t.enter p k).outcome = (t.enter p j).outcome := by
  rw [outcome_enter, outcome_enter, h t k j]

/-- Two descents whose keys differ at levels that ignore them have the same outcome. -/
theorem Trail.outcome_descend_congr {levels : Spec} {ks js : List Text} (hlen : ks.length = js.length)
    (h : ∀ (i : Nat) (p : Pattern), levels[i]? = some p → ks[i]? = js[i]? ∨ p.IgnoresKey) (t : Trail) :
    (t.descend levels ks).outcome = (t.descend levels js).outcome := by
  induction levels generalizing ks js t with
  | nil => rfl
  | cons p levels ih =>
    cases ks with
    | nil =>
      obtain rfl : js = [] := List.length_eq_zero_iff.mp hlen.symm
      rfl
    | cons k ks =>
      obtain ⟨j, js, rfl⟩ := List.exists_cons_of_length_eq_add_one hlen.symm
      have henter : (t.enter p k).outcome = (t.enter p j).outcome := by
        obtain hkey | hp := h 0 p rfl
        · rw [Option.some.inj hkey]
        · exact outcome_enter_of_ignoresKey hp t k j
      have hbelow : ∀ u : Trail, (u.descend levels ks).outcome = (u.descend levels js).outcome :=
        ih (Nat.succ.inj hlen) fun i => h (i + 1)
      rw [outcome_descend_cons, outcome_descend_cons, henter]
      simp only [hbelow]

/-- Two paths that differ at most at markers have the same outcome, and whatever is rendered or matched on the
trail of the one comes out as on the trail of the other. -/
theorem outcome_accept_of_eq_but_at_markers {levels : Spec} {ks js : List Text} (hlen : ks.length = js.length)
    (h : ∀ i : Nat, ks[i]? ≠ js[i]? → ∃ own, levels[i]? = some (.leaf (.marker own))) :
    (levels.accept ks).outcome = (levels.accept js).outcome ∧
      ∀ t u, (levels.accept ks).outcome = .ok (some t) → (levels.accept js).outcome = .ok (some u) →
        (∀ outs : Spec, outs.render t = outs.render u) ∧ ∀ (p : Pattern) key, p.accept key t = p.accept key u := by
  have houtcome : (levels.accept ks).outcome = (levels.accept js).outcome := by
    by_cases hks : levels.length = ks.length
    · rw [Spec.accept_eq_descend hks, Spec.accept_eq_descend (hks.trans hlen)]
      apply Trail.outcome_descend_congr hlen
      intro i p hp
      by_cases hkey : ks[i]? = js[i]?
      · exact .inl hkey
      · obtain ⟨own, hown⟩ := h i hkey
        obtain rfl := Option.some.inj (hp.symm.trans hown)
        exact .inr (Pattern.ignoresKey_marker own)
    · rw [Spec.outcome_accept_of_ne hks, Spec.outcome_accept_of_ne (hlen ▸ hks)]
  refine ⟨houtcome, ?_⟩
  intro t u ht hu
  rw [houtcome, hu] at ht
  obtain rfl := Option.some.inj (Except.ok.inj ht)
  exact ⟨fun _ => rfl, fun _ _ => rfl⟩

end

section
open scoped Tabled

/-- Behind the marker a glob is matched and taken up again, whatever the key at the marker is. -/
theorem outcome_accept_of_eq_but_at_markers_parts :
    (Spec.accept [.leaf (.marker ['@']), .leaf (.glob ⟨[], [['-'], []]⟩),
        .leaf (.template "&(1)".toList [.insert ⟨0, 1⟩])] ["x".toList, "a-b".toList, ['a']]).outcome =
      (Spec.accept [.leaf (.marker ['@']), .leaf (.glob ⟨[], [['-'], []]⟩),
        .leaf (.template "&(1)".toList [.insert ⟨0, 1⟩])] ["other".toList, "a-b".toList, ['a']]).outcome := by
  have hlen : ["x".toList, "a-b".toList, ['a']].length = ["other".toList, "a-b".toList, ['a']].length := rfl
  have hdiffer : ∀ i : Nat, ["x".toList, "a-b".toList, ['a']][i]? ≠ ["other".toList, "a-b".toList, ['a']][i]? →
      ∃ own, [Pattern.leaf (.marker ['@']), .leaf (.glob ⟨[], [['-'], []]⟩),
        .leaf (.template "&(1)".toList [.insert ⟨0, 1⟩])][i]? = some (.leaf (.marker own)) := by
    intro i hi
    match i, hi with
    | 0, _ => exact ⟨['@'], rfl⟩
    | 1, hi => exact absurd rfl hi
    | 2, hi => exact absurd rfl hi
    | _ + 3, hi => exact absurd rfl hi
  exact (outcome_accept_of_eq_but_at_markers hlen hdiffer).1

end

section
variable [Engine]

/-! ## Keys that are told by the trail -/

/-- On one trail a leaf that is not a glob puts down the same node whatever it matches, and so does a glob for
one key. -/
theorem Leaf.Accepts.unique {k j : Text} {t : Trail} {l m m' : Leaf} (h : Leaf.Accepts k t l m)
    (h' : Leaf.Accepts j t l m') (hkey : l.kind = .glob → k = j) : m = m' := by
  cases h with
  | exact groups =>
    cases h' with
    | exact => rfl
  | @glob g cs hcs =>
    obtain rfl := hkey rfl
    cases h' with
    | glob hds => rw [Option.some.inj (hcs.symm.trans hds)]
  | marker own =>
    cases h' with
    | marker => rfl
  | template hrender =>
    cases h' with
    | template hrender' => rw [Except.ok.inj (hrender.symm.trans hrender')]

namespace Spec
variable {levels : Spec} {ks js : List Text} {t u : Trail}

/-- Without choices the keys at globs tell the trail. -/
theorem trail_eq_of_keys_at_globs (hleaf : ∀ p ∈ levels, ∃ l, p = .leaf l)
    (ht : (levels.accept ks).outcome = .ok (some t)) (hu : (levels.accept js).outcome = .ok (some u))
    (hglob : ∀ (i : Nat) (p : Pattern), levels[i]? = some p → p.kind = .glob → ks[i]? = js[i]?) : t = u := by
  refine rel_of_accept (R := Eq) rfl ?_ ht hu
  rintro i p k j hp hk hj t _ m m' rfl hm hm'
  obtain ⟨l, rfl⟩ := hleaf p (List.mem_of_getElem? hp)
  rw [Pattern.outcome_accept_leaf, Leaf.accept_eq_some_iff] at hm hm'
  have hkey : l.kind = .glob → k = j := by
    intro hkind
    have hsame := hglob i (.leaf l) hp hkind
    rw [hk, hj] at hsame
    exact Option.some.inj hsame
  rw [hm.unique hm' hkey]

/-- The trail tells the keys at all levels but markers. -/
theorem key_eq_of_trail (hleaf : ∀ p ∈ levels, ∃ l, p = .leaf l)
    (ht : (levels.accept ks).outcome = .ok (some t)) (hu : (levels.accept js).outcome = .ok (some t)) {i : Nat}
    {p : Pattern} (hp : levels[i]? = some p) (hkind : p.kind ≠ .marker) : ks[i]? = js[i]? := by
  have hnode : ∀ {keys : List Text}, (levels.accept keys).outcome = .ok (some t) →
      ∃ key groups, keys[i]? = some key ∧ t.toList[i]? = some (.leaf (.exact key groups)) := by
    intro keys hkeys
    have hi : i < keys.length := length_eq_of_accept hkeys ▸ (List.getElem?_eq_some_iff.mp hp).1
    obtain ⟨q, node, hq, hget, hkeep⟩ := exists_node_of_accept hkeys hi
    obtain rfl := Option.some.inj (hp.symm.trans hq)
    obtain ⟨l, rfl⟩ := hleaf p (List.mem_of_getElem? hp)
    obtain ⟨groups, rfl⟩ | ⟨own, -, hown⟩ := hkeep
    · exact ⟨keys[i], groups, List.getElem?_eq_getElem hi, hget⟩
    · obtain rfl := List.mem_singleton.mp hown
      exact absurd rfl hkind
  obtain ⟨k, groups, hk, hknode⟩ := hnode ht
  obtain ⟨j, groups', hj, hjnode⟩ := hnode hu
  obtain ⟨rfl, -⟩ : k = j ∧ groups = groups' := by simpa [hknode] using hjnode
  rw [hk, hj]

end Spec

/-! ## Levels that take one key -/

/-- A plain pattern matches the key that it renders to. -/
theorem Pattern.Plain.exists_accept_iff_render {p : Pattern} (hp : p.Plain) {key : Text} {t : Trail} :
    (∃ l, (p.accept key t).outcome = .ok (some l)) ↔ p.render t = .ok key := by
  obtain ⟨own, rfl⟩ | ⟨own, pieces, rfl⟩ := hp
  · simp only [outcome_accept_leaf, Leaf.accept_eq_some_iff]
    constructor
    · rintro ⟨l, hl⟩
      cases hl with
      | exact => rfl
    · intro hrender
      obtain rfl := Except.ok.inj hrender
      exact ⟨_, .exact []⟩
  · simp only [outcome_accept_leaf, Leaf.accept_eq_some_iff]
    constructor
    · rintro ⟨l, hl⟩
      cases hl with
      | template hrender => exact hrender
    · exact fun hrender => ⟨_, .template hrender⟩

namespace Spec
variable {levels : Spec}

/-- A path is matched if and only if each of its keys is what its level renders to on the trail of the levels
above it. -/
theorem exists_accept_iff_render (hplain : ∀ p ∈ levels, p.Plain) (ks : List Text) :
    (∃ t, (levels.accept ks).outcome = .ok (some t)) ↔ ks.length = levels.length ∧
      ∀ (i : Nat) (p : Pattern), levels[i]? = some p →
        ∃ u key, (Spec.accept (levels.take i) (ks.take i)).outcome = .ok (some u) ∧ ks[i]? = some key ∧
          p.render u = .ok key := by
  constructor
  · rintro ⟨t, ht⟩
    refine ⟨(length_eq_of_accept ht).symm, ?_⟩
    intro i p hp
    obtain ⟨u, key, l, hu, hkey, hl⟩ := exists_of_accept_getElem? ht hp
    exact ⟨u, key, hu, hkey, (hplain p (List.mem_of_getElem? hp)).exists_accept_iff_render.mp ⟨l, hl⟩⟩
  · rintro ⟨hlen, hrender⟩
    -- The last level says that the levels above it are matched, and that it takes the last key.
    obtain rfl | ⟨qs, p, rfl⟩ := List.eq_nil_or_concat levels
    · obtain rfl : ks = [] := List.length_eq_zero_iff.mp hlen
      exact ⟨.empty, outcome_accept_nil⟩
    · obtain rfl | ⟨ks, k, rfl⟩ := List.eq_nil_or_concat ks
      · simp at hlen
      · simp only [List.concat_eq_append, List.length_append, List.length_singleton,
          Nat.add_right_cancel_iff] at hlen hrender hplain ⊢
        obtain ⟨u, key, hu, hkey, hp⟩ := hrender qs.length p (by simp)
        rw [List.take_left, ← hlen, List.take_left] at hu
        obtain rfl : k = key := by simpa [← hlen] using hkey
        obtain ⟨l, hl⟩ := (hplain p (by simp)).exists_accept_iff_render.mpr hp
        refine ⟨u.push (.leaf l), ?_⟩
        rw [outcome_accept_concat _ _ _ _ hlen.symm, hu]
        change (u.enter p k).outcome = _
        rw [Trail.outcome_enter, hl]
        rfl

end Spec

/-- In a spec whose keys have no bars, two matched paths with the same keys at globs have the same trail, and the
same keys at all levels but markers. If the keys of the spec have no stars and at-signs either, it matches one
path at most, which has the keys that the levels render to, each on the trail of the levels above it. -/
theorem path_of_keys_at_globs {keys : List Text} {levels : Spec} (hbar : ∀ key ∈ keys, '|' ∉ key)
    (hlevels : (Spec.ofKeys keys).outcome = .ok levels) :
    (∀ ks js t u, (levels.accept ks).outcome = .ok (some t) → (levels.accept js).outcome = .ok (some u) →
        (∀ (i : Nat) (p : Pattern), levels[i]? = some p → p.kind = .glob → ks[i]? = js[i]?) →
        (∀ (i : Nat) (p : Pattern), levels[i]? = some p → p.kind ≠ .marker → ks[i]? = js[i]?) ∧ t = u) ∧
      ((∀ key ∈ keys, '*' ∉ key ∧ '@' ∉ key) →
        (∀ ks js t u, (levels.accept ks).outcome = .ok (some t) → (levels.accept js).outcome = .ok (some u) →
          ks = js) ∧
        ∀ ks, (∃ t, (levels.accept ks).outcome = .ok (some t)) ↔ ks.length = levels.length ∧
          ∀ (i : Nat) (p : Pattern), levels[i]? = some p →
            ∃ u key, (Spec.accept (levels.take i) (ks.take i)).outcome = .ok (some u) ∧ ks[i]? = some key ∧
              p.render u = .ok key) := by
  have hleaf : ∀ p ∈ levels, ∃ l, p = .leaf l := fun p hp => Spec.exists_leaf_of_ofKeys hbar hlevels hp
  have hsame : ∀ ks js t u, (levels.accept ks).outcome = .ok (some t) → (levels.accept js).outcome = .ok (some u) →
      (∀ (i : Nat) (p : Pattern), levels[i]? = some p → p.kind = .glob → ks[i]? = js[i]?) →
      (∀ (i : Nat) (p : Pattern), levels[i]? = some p → p.kind ≠ .marker → ks[i]? = js[i]?) ∧ t = u := by
    intro ks js t u ht hu hglob
    obtain rfl := Spec.trail_eq_of_keys_at_globs hleaf ht hu hglob
    exact ⟨fun i p => Spec.key_eq_of_trail hleaf ht hu, rfl⟩
  refine ⟨hsame, ?_⟩
  intro hfree
  have hplain : ∀ p ∈ levels, p.Plain :=
    fun p hp => Spec.exact_or_template_of_forall₂ (fun key hkey => ⟨hbar key hkey, hfree key hkey⟩)
      (Spec.forall₂_of_ofKeys hlevels) hp
  have hkind : ∀ {i : Nat} {p : Pattern}, levels[i]? = some p → p.kind ≠ .glob ∧ p.kind ≠ .marker :=
    fun hp => (hplain _ (List.mem_of_getElem? hp)).kind_ne
  refine ⟨?_, Spec.exists_accept_iff_render hplain⟩
  intro ks js t u ht hu
  have hagree := (hsame ks js t u ht hu fun i p hp hglob => absurd hglob (hkind hp).1).1
  apply List.ext_getElem?
  intro i
  cases hp : levels[i]? with
  | some p => exact hagree i p hp (hkind hp).2
  | none =>
    rw [List.getElem?_eq_none_iff] at hp
    have hks := Spec.length_eq_of_accept ht
    have hjs := Spec.length_eq_of_accept hu
    rw [List.getElem?_eq_none (hks ▸ hp), List.getElem?_eq_none (hjs ▸ hp)]

end

open scoped Tabled

/-- Below a glob and a marker the template takes the key that the glob captured, and below an exact key it takes
that key with a text behind it. -/
theorem path_of_keys_at_globs_parts :
    (∃ t, (Spec.accept [.leaf (.glob ⟨[], [['-'], []]⟩), .leaf (.marker ['@']),
        .leaf (.template "&1(2)".toList [.insert ⟨1, 2⟩])] ["a-b".toList, ['x'], ['b']]).outcome = .ok (some t) ∧
      (Spec.accept [.leaf (.glob ⟨[], [['-'], []]⟩), .leaf (.marker ['@']),
        .leaf (.template "&1(2)".toList [.insert ⟨1, 2⟩])] ["a-b".toList, ['y'], ['b']]).outcome = .ok (some t)) ∧
      ∃ t, (Spec.accept [.leaf (.exact ['a'] []), .leaf (.template "&-b".toList [.insert ⟨0, 0⟩, .text "-b".toList])]
        [['a'], "a-b".toList]).outcome = .ok (some t) := by
  have hread : Template.read "&1(2)".toList = .ok [.insert ⟨1, 2⟩] := by decide +kernel
  have hread' : Template.read "&-b".toList = .ok [.insert ⟨0, 0⟩, .text "-b".toList] := by decide +kernel
  have hlevels : (Spec.ofKeys ["*-*".toList, ['@'], "&1(2)".toList]).outcome =
      .ok [.leaf (.glob ⟨[], [['-'], []]⟩), .leaf (.marker ['@']),
        .leaf (.template "&1(2)".toList [.insert ⟨1, 2⟩])] :=
    Spec.outcome_ofKeys_of_forall₂
      (.cons rfl (.cons rfl (.cons (Pattern.outcome_ofKey_template rfl (by decide) (by decide) hread) .nil)))
  have hlevels' : (Spec.ofKeys [['a'], "&-b".toList]).outcome =
      .ok [.leaf (.exact ['a'] []), .leaf (.template "&-b".toList [.insert ⟨0, 0⟩, .text "-b".toList])] :=
    Spec.outcome_ofKeys_of_forall₂
      (.cons rfl (.cons (Pattern.outcome_ofKey_template rfl (by decide) (by decide) hread') .nil))
  constructor
  · have hsame := (path_of_keys_at_globs (by decide) hlevels).1 ["a-b".toList, ['x'], ['b']]
      ["a-b".toList, ['y'], ['b']] _ _ rfl rfl
    have hglob : ∀ (i : Nat) (p : Pattern), [Pattern.leaf (.glob ⟨[], [['-'], []]⟩), .leaf (.marker ['@']),
        .leaf (.template "&1(2)".toList [.insert ⟨1, 2⟩])][i]? = some p → p.kind = .glob →
        ["a-b".toList, ['x'], ['b']][i]? = ["a-b".toList, ['y'], ['b']][i]? := by
      intro i p hp hkind
      match i, hp with
      | 0, _ => rfl
      | 1, hp =>
        obtain rfl := Option.some.inj hp
        cases hkind
      | _ + 2, _ => rfl
    exact ⟨_, rfl, (hsame hglob).2 ▸ rfl⟩
  · refine (((path_of_keys_at_globs (by decide) hlevels').2 (by decide)).2 [['a'], "a-b".toList]).mpr ⟨rfl, ?_⟩
    intro i p hp
    match i, hp with
    | 0, hp =>
      obtain rfl := Option.some.inj hp
      exact ⟨.empty, ['a'], rfl, rfl, rfl⟩
    | 1, hp =>
      obtain rfl := Option.some.inj hp
      exact ⟨⟨[.leaf (.exact ['a'] [])]⟩, "a-b".toList, rfl, rfl, rfl⟩

end KeyPath
