import KeyPath.Proofs.Scope

/-!
The shape of a trail. A spec without choices puts nodes onto the trail whose kinds and numbers of captures do
not depend on the keys (`Leaf.Accepts.sameShape`), so two paths that it matches have trails of the same shape.
Rendering goes through the same references on both, and unless it reads an index it ends the same way: it
succeeds on both trails or fails on both, for the same cause (`render_alike_of_accept`).
-/
namespace KeyPath
set_option autoImplicit false

/-! ## Endings that are alike -/

/-- The same fault, except that a missing sub-key may be missing from another key with as many sub-keys. -/
inductive Fault.Alike : Fault → Fault → Prop
  | same (fault : Fault) : Alike fault fault
  | noSuchCapture (key key' : Text) (index available : Nat) :
      Alike (.noSuchCapture key index available) (.noSuchCapture key' index available)

/-- Two outcomes that succeed with related results, or fail with faults that are alike. -/
inductive EndAlikeWith {α : Type} (P : α → α → Prop) : Except Fault α → Except Fault α → Prop
  | ok {a b : α} (h : P a b) : EndAlikeWith P (.ok a) (.ok b)
  | error {f g : Fault} (h : f.Alike g) : EndAlikeWith P (.error f) (.error g)

section
variable {α β : Type} {P : α → α → Prop} {Q : β → β → Prop}

theorem EndAlikeWith.bind {x y : Except Fault α} {f g : α → Except Fault β} (h : EndAlikeWith P x y)
    (hfg : ∀ a b, P a b → EndAlikeWith Q (f a) (g b)) : EndAlikeWith Q (x >>= f) (y >>= g) := by
  cases h with
  | @ok a b hab => exact hfg a b hab
  | error hf => exact .error hf

theorem EndAlikeWith.exists_ok_iff {x y : Except Fault α} (h : EndAlikeWith P x y) :
    (∃ a, x = .ok a) ↔ ∃ b, y = .ok b := by
  cases h with
  | @ok a b _ => exact ⟨fun _ => ⟨b, rfl⟩, fun _ => ⟨a, rfl⟩⟩
  | error _ => simp

theorem EndAlikeWith.alike {x y : Except Fault α} (h : EndAlikeWith P x y) {f g : Fault} (hx : x = .error f)
    (hy : y = .error g) : f.Alike g := by
  subst hx hy
  cases h with
  | error hfg => exact hfg

end

/-- Two outcomes that succeed, with whatever results, or fail with faults that are alike. -/
abbrev EndAlike {α : Type} : Except Fault α → Except Fault α → Prop := EndAlikeWith fun _ _ => True

/-! ## Nodes and trails -/

/-- Exact keys with as many captures, or the same marker. -/
inductive Pattern.SameShape : Pattern → Pattern → Prop
  | exact {key key' : Text} {groups groups' : List Text} (hlen : groups.length = groups'.length) :
      SameShape (.leaf (.exact key groups)) (.leaf (.exact key' groups'))
  | marker (own : Text) : SameShape (.leaf (.marker own)) (.leaf (.marker own))

/-- Whatever a leaf matches, the node has the shape that the leaf gives it. -/
theorem Leaf.Accepts.sameShape [Engine] [Engine.LeftmostFirst] {k j : Text} {t u : Trail} {l m m' : Leaf}
    (h : Leaf.Accepts k t l m) (h' : Leaf.Accepts j u l m') : Pattern.SameShape (.leaf m) (.leaf m') := by
  cases h with
  | exact groups =>
    cases h' with
    | exact => exact .exact rfl
  | @glob g cs hcs =>
    cases h' with
    | @glob _ ds hds => exact .exact (by rw [(Glob.fills_of_groups? hcs).1, (Glob.fills_of_groups? hds).1])
  | marker own =>
    cases h' with
    | marker => exact .marker own
  | template _ =>
    cases h' with
    | template _ => exact .exact rfl

theorem Pattern.SameShape.capture {p q : Pattern} (h : p.SameShape q) (n : Nat) :
    EndAlike (p.capture n) (q.capture n) := by
  cases h with
  | marker own => exact .error (.same _)
  | @exact key key' groups groups' hlen =>
    have hlen' : (key :: groups).length = (key' :: groups').length := by simp [hlen]
    rw [Pattern.capture, Pattern.capture]
    rcases Nat.lt_or_ge n (key :: groups).length with hn | hn
    · rw [List.getElem?_eq_getElem hn, List.getElem?_eq_getElem (hlen' ▸ hn)]
      exact .ok trivial
    · rw [List.getElem?_eq_none hn, List.getElem?_eq_none (hlen' ▸ hn), hlen]
      exact .error (.noSuchCapture key key' n _)

namespace Trail

def SameShape (t u : Trail) : Prop := List.Forall₂ Pattern.SameShape t.nodes u.nodes

variable {t u : Trail}

theorem SameShape.up (h : t.SameShape u) (distance : Nat) :
    EndAlikeWith Pattern.SameShape (t.up distance) (u.up distance) := by
  have hlen : t.nodes.length = u.nodes.length := h.length_eq
  rw [Trail.up, Trail.up, depth, depth]
  rcases Nat.lt_or_ge distance t.nodes.length with hd | hd
  · have hd' : distance < u.nodes.length := hlen ▸ hd
    rw [List.getElem?_eq_getElem hd, List.getElem?_eq_getElem hd']
    exact .ok (h.get hd hd')
  · rw [List.getElem?_eq_none hd, List.getElem?_eq_none (hlen ▸ hd), hlen]
    exact .error (.same _)

theorem SameShape.resolve (h : t.SameShape u) (r : Reference) : EndAlike (t.resolve r) (u.resolve r) :=
  (h.up r.up).bind fun _ _ hnode => hnode.capture r.group

end Trail

/-! ## Rendering on trails of the same shape -/

section
variable {t u : Trail}

theorem Piece.render_alike (h : t.SameShape u) {q : Piece} (hq : q.readsIndex = false) :
    EndAlike (q.render t) (q.render u) := by
  cases q with
  | text s => exact .ok trivial
  | index n => exact .ok trivial
  | insert r => exact h.resolve r
  | insertIndex r => cases hq

theorem Template.render_alike (h : t.SameShape u) {pieces : Template}
    (hpieces : pieces.any Piece.readsIndex = false) : EndAlike (pieces.render t) (pieces.render u) := by
  induction pieces with
  | nil => exact .ok trivial
  | cons q pieces ih =>
    rw [List.any_cons, Bool.or_eq_false_iff] at hpieces
    refine (Piece.render_alike h hpieces.1).bind fun _ _ _ => ?_
    exact (ih hpieces.2).bind fun _ _ _ => .ok trivial

theorem Pattern.render_alike (h : t.SameShape u) {p : Pattern} (hp : p.readsIndex = false) :
    EndAlike (p.render t) (p.render u) := by
  match p, hp with
  | .leaf (.exact _ _), _ => exact .ok trivial
  | .leaf (.glob _), _ => exact .error (.same _)
  | .leaf (.marker _), _ => exact .error (.same _)
  | .leaf (.template own pieces), hp =>
    have hpieces : Pattern.pieces (.leaf (.template own pieces)) = pieces := List.append_nil pieces
    rw [readsIndex, hpieces] at hp
    exact Template.render_alike h hp
  | .choice _, _ => exact .error (.same _)

theorem Spec.render_alike (h : t.SameShape u) {outs : Spec} (houts : ∀ p ∈ outs, p.readsIndex = false) :
    EndAlike (outs.render t) (outs.render u) := by
  induction outs with
  | nil => exact .ok trivial
  | cons p outs ih =>
    obtain ⟨hp, hrest⟩ := List.forall_mem_cons.mp houts
    refine (Pattern.render_alike h hp).bind fun _ _ _ => ?_
    exact (ih hrest).bind fun _ _ _ => .ok trivial

end

/-! ## Specs without choices -/

/-- Two paths that a spec without choices matches have trails of the same shape. -/
theorem Spec.sameShape_of_accept [Engine] [Engine.LeftmostFirst] {levels : Spec} {ks js : List Text} {t u : Trail}
    (hleaf : ∀ p ∈ levels, ∃ l, p = .leaf l) (ht : (levels.accept ks).outcome = .ok (some t))
    (hu : (levels.accept js).outcome = .ok (some u)) : t.SameShape u := by
  refine rel_of_accept .nil ?_ ht hu
  intro i p k j hp _ _ t u m m' h hm hm'
  obtain ⟨l, rfl⟩ := hleaf p (List.mem_of_getElem? hp)
  rw [Pattern.outcome_accept_leaf, Leaf.accept_eq_some_iff] at hm hm'
  exact .cons (hm.sameShape hm') h

/-- Below a spec whose keys have no bars, whether an output that reads no index can be rendered does not depend
on the path that was matched, and neither does the cause if it cannot. -/
theorem render_alike_of_accept [Engine] [Engine.LeftmostFirst] {keys : List Text} {levels : Spec}
    (hbar : ∀ key ∈ keys, '|' ∉ key) (hlevels : (Spec.ofKeys keys).outcome = .ok levels)
    {ks js : List Text} {t u : Trail} (ht : (levels.accept ks).outcome = .ok (some t))
    (hu : (levels.accept js).outcome = .ok (some u)) {outs : Spec} (houts : ∀ p ∈ outs, p.readsIndex = false) :
    ((∃ parts, outs.render t = .ok parts) ↔ ∃ parts, outs.render u = .ok parts) ∧
      ∀ f g, outs.render t = .error f → outs.render u = .error g → f.Alike g := by
  have hshape : t.SameShape u :=
    Spec.sameShape_of_accept (fun p hp => Spec.exists_leaf_of_ofKeys hbar hlevels hp) ht hu
  have hrender := Spec.render_alike hshape houts
  exact ⟨hrender.exists_ok_iff, fun f g => hrender.alike⟩

open scoped Tabled

/-- The two keys have as many parts as there are stars, so the second part is there in both and the third one is
missing from both. -/
theorem render_alike_of_accept_parts :
    (∃ parts, Spec.render ⟨[.leaf (.marker ['@']), .leaf (.exact "c-dd".toList [['c'], "dd".toList])]⟩
      [.leaf (.template "&1(2)".toList [.insert ⟨1, 2⟩])] = .ok parts) ∧
      Fault.Alike (.noSuchCapture "a-b".toList 3 3) (.noSuchCapture "c-dd".toList 3 3) := by
  have hbar : ∀ key ∈ ["*-*".toList, ['@']], '|' ∉ key := by decide
  have hlevels : (Spec.ofKeys ["*-*".toList, ['@']]).outcome =
      .ok [.leaf (.glob ⟨[], [['-'], []]⟩), .leaf (.marker ['@'])] := rfl
  have ht : (Spec.accept [.leaf (.glob ⟨[], [['-'], []]⟩), .leaf (.marker ['@'])] ["a-b".toList, ['x']]).outcome =
      .ok (some ⟨[.leaf (.marker ['@']), .leaf (.exact "a-b".toList [['a'], ['b']])]⟩) := rfl
  have hu : (Spec.accept [.leaf (.glob ⟨[], [['-'], []]⟩), .leaf (.marker ['@'])] ["c-dd".toList, ['y']]).outcome =
      .ok (some ⟨[.leaf (.marker ['@']), .leaf (.exact "c-dd".toList [['c'], "dd".toList])]⟩) := rfl
  have hpart : ∀ p ∈ [Pattern.leaf (.template "&1(2)".toList [.insert ⟨1, 2⟩])], p.readsIndex = false := by decide
  have hnone : ∀ p ∈ [Pattern.leaf (.template "&1(3)".toList [.insert ⟨1, 3⟩])], p.readsIndex = false := by decide
  constructor
  · exact (render_alike_of_accept hbar hlevels ht hu hpart).1.mp ⟨_, rfl⟩
  · exact (render_alike_of_accept hbar hlevels ht hu hnone).2 _ _ rfl rfl

end KeyPath
