import KeyPath.Proofs.Compiled
import KeyPath.Proofs.Decision
import KeyPath.Proofs.Descent
import KeyPath.Proofs.Glob.Captures
import KeyPath.Proofs.Template.Grammar
import KeyPath.Render

/-!
Scoping. What the levels of a spec offer is known before any key is matched: a node that a leaf puts onto
the trail has at least the sub-keys that the leaf offers (`Leaf.exists_capture_of_accepts`), whichever
branch of a choice it came from. So if every reference of a spec is in scope, matching can fail on
captured texts that are no indices and on nothing else, and the same holds of rendering
(`faults_of_scoped`). The invariant of the descent is `Trail.Supports`.
-/
namespace KeyPath
set_option autoImplicit false

/-! ## What levels offer and what they ask for -/

/-- The number of sub-keys that a node has for sure when the leaf put it onto the trail. -/
def Leaf.offers : Leaf → Nat
  | exact _ _ | template _ _ => 1
  | glob g => g.stars + 1
  | marker _ => 0

def Leaf.pieces : Leaf → Template
  | template _ pieces => pieces
  | _ => []

def Piece.readsIndex : Piece → Bool
  | insertIndex _ => true
  | _ => false

namespace Pattern

/-- Any leaf may be the one that matches, so only the least of their offers is sure. -/
def offers (p : Pattern) : Nat := (p.leaves.map Leaf.offers).min?.getD 0

def pieces (p : Pattern) : Template := p.leaves.flatMap Leaf.pieces

def references (p : Pattern) : List Reference := p.pieces.filterMap Piece.reference?

def readsIndex (p : Pattern) : Bool := p.pieces.any Piece.readsIndex

theorem offers_le {p : Pattern} {l : Leaf} (hl : l ∈ p.leaves) : p.offers ≤ l.offers := by
  unfold offers
  cases hmin : (p.leaves.map Leaf.offers).min? with
  | none => exact Nat.zero_le _
  | some n => exact (List.min?_eq_some_iff.mp hmin).2 l.offers (List.mem_map_of_mem hl)

theorem mem_pieces {p : Pattern} {l : Leaf} (hl : l ∈ p.leaves) {q : Piece} (hq : q ∈ l.pieces) :
    q ∈ p.pieces :=
  List.mem_flatMap.mpr ⟨l, hl, hq⟩

end Pattern

/-- The level that the reference goes up to, from below `depth` levels, is there and offers the sub-key. -/
def Reference.InScope (levels : Spec) (depth : Nat) (r : Reference) : Prop :=
  r.up < depth ∧ ∃ p, levels[depth - 1 - r.up]? = some p ∧ r.group < p.offers

def Spec.Scoped (levels : Spec) : Prop :=
  ∀ (i : Nat) (p : Pattern), levels[i]? = some p → ∀ r ∈ p.references, r.InScope levels i

/-! ## Faults about indices -/

/-- The only faults are texts that are no indices, and there are none unless `reads` holds. -/
def OnlyBadIndex {α : Type} (reads : Prop) (x : Except Fault α) : Prop :=
  ∀ fault, x = .error fault → reads ∧ ∃ s, fault = .notAnIndex s

section
variable {α β : Type} {reads : Prop}

theorem onlyBadIndex_ok (reads : Prop) (a : α) : OnlyBadIndex reads (.ok a) := by
  intro fault h
  cases h

theorem OnlyBadIndex.mono {reads' : Prop} {x : Except Fault α} (h : OnlyBadIndex reads x)
    (himp : reads → reads') : OnlyBadIndex reads' x :=
  fun fault hf => ⟨himp (h fault hf).1, (h fault hf).2⟩

theorem OnlyBadIndex.bind {x : Except Fault α} {f : α → Except Fault β} (hx : OnlyBadIndex reads x)
    (hf : ∀ a, x = .ok a → OnlyBadIndex reads (f a)) : OnlyBadIndex reads (x >>= f) := by
  match x, hx, hf with
  | .ok a, _, hf => exact hf a rfl
  | .error fault, hx, _ =>
    intro fault' h
    cases h
    exact hx fault rfl

theorem OnlyBadIndex.eq_ok_or {x : Except Fault α} (h : OnlyBadIndex reads x) :
    (∃ a, x = .ok a) ∨ ∃ s, x = .error (.notAnIndex s) := by
  match x, h with
  | .ok a, _ => exact .inl ⟨a, rfl⟩
  | .error fault, h =>
    obtain ⟨-, s, rfl⟩ := h fault rfl
    exact .inr ⟨s, rfl⟩

theorem OnlyBadIndex.eq_ok {x : Except Fault α} (h : OnlyBadIndex reads x) (hreads : ¬ reads) :
    ∃ a, x = .ok a := by
  match x, h with
  | .ok a, _ => exact ⟨a, rfl⟩
  | .error fault, h => exact absurd (h fault rfl).1 hreads

end

/-! ## Rendering on a trail that has what is asked for -/

theorem Piece.render_onlyBadIndex {t : Trail} {q : Piece}
    (h : ∀ r, q.reference? = some r → ∃ s, t.resolve r = .ok s) :
    OnlyBadIndex (q.readsIndex = true) (q.render t) := by
  cases q with
  | text s => exact onlyBadIndex_ok _ s
  | index n => exact onlyBadIndex_ok _ _
  | insert r =>
    obtain ⟨s, hs⟩ := h r rfl
    rw [Piece.render, hs]
    exact onlyBadIndex_ok _ s
  | insertIndex r =>
    obtain ⟨s, hs⟩ := h r rfl
    rw [Piece.render_insertIndex hs]
    intro fault hf
    cases hn : Numeral.readSigned? s with
    | some n =>
      rw [hn] at hf
      cases hf
    | none =>
      rw [hn] at hf
      cases hf
      exact ⟨rfl, s, rfl⟩

theorem Template.render_onlyBadIndex {t : Trail} {pieces : Template}
    (h : ∀ q ∈ pieces, ∀ r, q.reference? = some r → ∃ s, t.resolve r = .ok s) :
    OnlyBadIndex (pieces.any Piece.readsIndex = true) (pieces.render t) := by
  induction pieces with
  | nil => exact onlyBadIndex_ok _ _
  | cons q pieces ih =>
    rw [Template.render, List.any_cons, Bool.or_eq_true]
    have hq := Piece.render_onlyBadIndex (h q List.mem_cons_self)
    have hrest := ih fun q' hq' => h q' (List.mem_cons_of_mem q hq')
    refine (hq.mono Or.inl).bind fun s _ => (hrest.mono Or.inr).bind fun u _ => ?_
    exact onlyBadIndex_ok _ _

def Pattern.Resolves (t : Trail) (p : Pattern) : Prop := ∀ r ∈ p.references, ∃ s, t.resolve r = .ok s

theorem Pattern.Resolves.template {t : Trail} {p : Pattern} (h : p.Resolves t) {key : Text} {pieces : Template}
    (hl : Leaf.template key pieces ∈ p.leaves) :
    OnlyBadIndex (p.readsIndex = true) (pieces.render t) := by
  have hpieces : ∀ q ∈ pieces, q ∈ p.pieces := fun q hq => p.mem_pieces hl hq
  have hrender : OnlyBadIndex (pieces.any Piece.readsIndex = true) (pieces.render t) :=
    Template.render_onlyBadIndex fun q hq r hr => h r (List.mem_filterMap.mpr ⟨q, hpieces q hq, hr⟩)
  refine hrender.mono fun hany => ?_
  obtain ⟨q, hq, hreads⟩ := List.any_eq_true.mp hany
  exact List.any_eq_true.mpr ⟨q, hpieces q hq, hreads⟩

/-! ## Matching on a trail that has what is asked for -/

theorem Pattern.Resolves.accept [Engine] {t : Trail} {p : Pattern} (h : p.Resolves t) (key : Text) :
    OnlyBadIndex (p.readsIndex = true) (p.accept key t).outcome := by
  intro fault hf
  obtain ⟨l, hl, hlf⟩ := Pattern.exists_leaf_of_accept hf (by intro hc; cases hc)
  cases l with
  | exact own groups => cases hlf
  | glob g => cases hlf
  | marker own => cases hlf
  | template own pieces =>
    rw [Leaf.accept] at hlf
    exact ((h.template hl).bind fun s _ => onlyBadIndex_ok _ _) fault hlf

theorem Pattern.Resolves.enter [Engine] {t : Trail} {p : Pattern} (h : p.Resolves t) (key : Text) :
    OnlyBadIndex (p.readsIndex = true) (t.enter p key).outcome := by
  intro fault hf
  rw [Trail.outcome_enter] at hf
  match hx : (p.accept key t).outcome, hf with
  | .error fault', hf =>
    cases hf
    exact h.accept key fault hx

theorem Leaf.exists_capture_of_accepts [Engine] [Engine.LeftmostFirst] {key : Text} {t : Trail} {l m : Leaf}
    (h : Leaf.Accepts key t l m) {n : Nat} (hn : n < l.offers) : ∃ s, (Pattern.leaf m).capture n = .ok s := by
  have hexact : ∀ (own : Text) (groups : List Text), n < groups.length + 1 →
      ∃ s, (Pattern.leaf (.exact own groups)).capture n = .ok s := by
    intro own groups hlt
    exact ⟨_, Pattern.capture_exact_eq_ok_iff.mpr (List.getElem?_eq_getElem hlt)⟩
  cases h with
  | exact groups => exact hexact key groups (Nat.lt_of_lt_of_le hn (Nat.le_add_left 1 _))
  | @glob g cs hcs =>
    apply hexact key cs
    rw [(Glob.fills_of_groups? hcs).1]
    exact hn
  | marker own => exact absurd hn (Nat.not_lt_zero n)
  | template _ => exact hexact key [] hn

def Pattern.Supports (p node : Pattern) : Prop := ∀ n < p.offers, ∃ s, node.capture n = .ok s

theorem Pattern.supports_of_accept [Engine] [Engine.LeftmostFirst] {key : Text} {t : Trail} {p : Pattern} {m : Leaf}
    (h : (p.accept key t).outcome = .ok (some m)) : p.Supports (.leaf m) := by
  obtain ⟨l, hl, hlm⟩ := p.exists_accepts h
  exact fun n hn => Leaf.exists_capture_of_accepts hlm (Nat.lt_of_lt_of_le hn (p.offers_le hl))

/-! ## The descent -/

/-- Every node of the trail has what its level offers; the newest level comes first. -/
def Trail.Supports (above : List Pattern) (t : Trail) : Prop := List.Forall₂ Pattern.Supports above t.nodes

section
variable {levels above rest : Spec} {t : Trail}

theorem Trail.Supports.resolve (h : t.Supports above) (hlevels : levels = above.reverse ++ rest) {r : Reference}
    (hr : r.InScope levels above.length) : ∃ s, t.resolve r = .ok s := by
  obtain ⟨hup, p, hp, hgroup⟩ := hr
  have hplace : (above.length - 1 - r.up) + r.up + 1 = above.length := by omega
  rw [hlevels, List.getElem?_append_left (by rw [List.length_reverse]; omega),
    List.getElem?_reverse' hplace] at hp
  obtain ⟨hlt, rfl⟩ := List.getElem?_eq_some_iff.mp hp
  have hnode : r.up < t.nodes.length := h.length_eq ▸ hlt
  obtain ⟨s, hs⟩ := List.Forall₂.get h hlt hnode r.group hgroup
  refine ⟨s, ?_⟩
  rw [Trail.resolve, Trail.up, List.getElem?_eq_getElem hnode]
  exact hs

theorem Trail.Supports.resolves (h : t.Supports above) (hlevels : levels = above.reverse ++ rest) {p : Pattern}
    (hp : ∀ r ∈ p.references, r.InScope levels above.length) : p.Resolves t :=
  fun r hr => h.resolve hlevels (hp r hr)

theorem Trail.Supports.enter [Engine] [Engine.LeftmostFirst] (h : t.Supports above) {p : Pattern} {key : Text}
    {u : Trail} (hu : (t.enter p key).outcome = .ok (some u)) : u.Supports (p :: above) := by
  obtain ⟨l, hl, rfl⟩ := Trail.exists_leaf_of_enter hu
  exact .cons (Pattern.supports_of_accept hl) h

theorem Trail.Supports.descend [Engine] [Engine.LeftmostFirst] (hscoped : levels.Scoped) (h : t.Supports above)
    (hlevels : levels = above.reverse ++ rest) (keys : List Text) (hlen : rest.length = keys.length) :
    OnlyBadIndex (∃ p ∈ levels, p.readsIndex = true) (t.descend rest keys).outcome ∧
      ∀ u, (t.descend rest keys).outcome = .ok (some u) → u.Supports levels.reverse := by
  induction rest generalizing above t keys with
  | nil =>
    obtain rfl : keys = [] := List.length_eq_zero_iff.mp hlen.symm
    refine ⟨onlyBadIndex_ok _ _, ?_⟩
    intro u hu
    obtain rfl : t = u := Option.some.inj (Except.ok.inj hu)
    rw [hlevels, List.append_nil, List.reverse_reverse]
    exact h
  | cons p rest ih =>
    cases keys with
    | nil => exact absurd hlen (Nat.succ_ne_zero _)
    | cons key keys =>
      have hp : levels[above.length]? = some p := by
        rw [hlevels, List.getElem?_append_right (Nat.le_of_eq List.length_reverse), List.length_reverse,
          Nat.sub_self, List.getElem?_cons_zero]
      have hmem : p ∈ levels := List.mem_of_getElem? hp
      have hresolves : p.Resolves t := h.resolves hlevels (hscoped above.length p hp)
      have henter : OnlyBadIndex (∃ p ∈ levels, p.readsIndex = true) (t.enter p key).outcome :=
        (hresolves.enter key).mono fun hreads => ⟨p, hmem, hreads⟩
      have hlevels' : levels = (p :: above).reverse ++ rest := by
        rw [hlevels, List.reverse_cons, List.append_assoc, List.singleton_append]
      have hnext : ∀ u, (t.enter p key).outcome = .ok (some u) →
          OnlyBadIndex (∃ p ∈ levels, p.readsIndex = true) (u.descend rest keys).outcome ∧
            ∀ v, (u.descend rest keys).outcome = .ok (some v) → v.Supports levels.reverse := by
        intro u hu
        exact ih (h.enter hu) hlevels' keys (Nat.succ.inj hlen)
      rw [Trail.outcome_descend_cons]
      constructor
      · refine henter.bind fun next hnext' => ?_
        cases next with
        | none => exact onlyBadIndex_ok _ _
        | some u => exact (hnext u hnext').1
      · intro v hv
        match hx : (t.enter p key).outcome, hv with
        | .ok (some u), hv => exact (hnext u hx).2 v hv

end

theorem Spec.Scoped.accept [Engine] [Engine.LeftmostFirst] {levels : Spec} (hscoped : levels.Scoped)
    (keys : List Text) :
    OnlyBadIndex (∃ p ∈ levels, p.readsIndex = true) (levels.accept keys).outcome ∧
      ∀ t, (levels.accept keys).outcome = .ok (some t) → t.Supports levels.reverse := by
  by_cases hlen : levels.length = keys.length
  · rw [Spec.accept_eq_descend hlen]
    exact Trail.Supports.descend hscoped .nil rfl keys hlen
  · rw [Spec.outcome_accept_of_ne hlen]
    refine ⟨onlyBadIndex_ok _ _, ?_⟩
    intro t ht
    cases ht

/-! ## Rendering an output -/

theorem Pattern.Resolves.render {t : Trail} {p : Pattern} (h : p.Resolves t) (hp : p.Plain) :
    OnlyBadIndex (p.readsIndex = true) (p.render t) := by
  obtain ⟨key, rfl⟩ | ⟨key, pieces, rfl⟩ := hp
  · exact onlyBadIndex_ok _ _
  · exact h.template (List.mem_cons_self : Leaf.template key pieces ∈ [Leaf.template key pieces])

theorem Spec.render_onlyBadIndex {t : Trail} {outs : Spec}
    (h : ∀ p ∈ outs, OnlyBadIndex (p.readsIndex = true) (p.render t)) :
    OnlyBadIndex (∃ p ∈ outs, p.readsIndex = true) (outs.render t) := by
  induction outs with
  | nil => exact onlyBadIndex_ok _ _
  | cons p outs ih =>
    have hp := (h p List.mem_cons_self).mono fun hreads => (⟨p, List.mem_cons_self, hreads⟩ :
      ∃ q ∈ p :: outs, q.readsIndex = true)
    have hrest := (ih fun q hq => h q (List.mem_cons_of_mem p hq)).mono
      fun ⟨q, hq, hreads⟩ => (⟨q, List.mem_cons_of_mem p hq, hreads⟩ : ∃ q ∈ p :: outs, q.readsIndex = true)
    rw [Spec.render]
    refine hp.bind fun s _ => hrest.bind fun ss _ => ?_
    exact onlyBadIndex_ok _ _

/-- With all references in scope, matching and rendering fail on nothing but captured texts that are no
indices, and not at all where no piece reads an index. -/
theorem faults_of_scoped [Engine] [Engine.LeftmostFirst] (levels : Spec) (hscoped : levels.Scoped) :
    (∀ keys, (∃ found, (levels.accept keys).outcome = .ok found) ∨
        ∃ s, (levels.accept keys).outcome = .error (.notAnIndex s)) ∧
      ((∀ p ∈ levels, p.readsIndex = false) → ∀ keys, ∃ found, (levels.accept keys).outcome = .ok found) ∧
      ∀ (output : Text) (outs : Spec), '|' ∉ output → (Spec.ofOutput output).outcome = .ok outs →
        (∀ p ∈ outs, ∀ r ∈ p.references, r.InScope levels levels.length) →
        ∀ keys t, (levels.accept keys).outcome = .ok (some t) →
          ((∃ parts, outs.render t = .ok parts) ∨ ∃ s, outs.render t = .error (.notAnIndex s)) ∧
            ((∀ p ∈ outs, p.readsIndex = false) → ∃ parts, outs.render t = .ok parts) := by
  have hnone : ∀ {ps : Spec}, (∀ p ∈ ps, p.readsIndex = false) → ¬ ∃ p ∈ ps, p.readsIndex = true := by
    rintro ps hps ⟨p, hp, hreads⟩
    rw [hps p hp] at hreads
    cases hreads
  refine ⟨fun keys => (hscoped.accept keys).1.eq_ok_or,
    fun hreads keys => (hscoped.accept keys).1.eq_ok (hnone hreads), ?_⟩
  intro output outs hbar houts hrefs keys t ht
  have hsupports : t.Supports levels.reverse := (hscoped.accept keys).2 t ht
  have hlevels : levels = levels.reverse.reverse ++ [] := by rw [List.reverse_reverse, List.append_nil]
  have hrender : OnlyBadIndex (∃ p ∈ outs, p.readsIndex = true) (outs.render t) := by
    refine Spec.render_onlyBadIndex fun p hp => ?_
    have hresolves : p.Resolves t :=
      hsupports.resolves hlevels fun r hr => by rw [List.length_reverse]; exact hrefs p hp r hr
    exact hresolves.render (Spec.exact_or_template_of_ofOutput hbar houts p hp)
  exact ⟨hrender.eq_ok_or, fun hreads => hrender.eq_ok (hnone hreads)⟩

open scoped Tabled

/-- The second level takes up the later part of the first key, and the output the earlier one. -/
theorem faults_of_scoped_parts :
    Spec.Scoped [.leaf (.glob ⟨[], [['-'], []]⟩), .leaf (.template "&(2)".toList [.insert ⟨0, 2⟩])] ∧
      (Spec.ofOutput "&1(1)".toList).outcome =
        .ok [.leaf (.template "&1(1)".toList [.insert ⟨1, 1⟩])] ∧
      ∃ parts, Spec.render ⟨[.leaf (.exact ['b'] []), .leaf (.exact "a-b".toList [['a'], ['b']])]⟩
        [.leaf (.template "&1(1)".toList [.insert ⟨1, 1⟩])] = .ok parts := by
  have hscoped : Spec.Scoped
      [.leaf (.glob ⟨[], [['-'], []]⟩), .leaf (.template "&(2)".toList [.insert ⟨0, 2⟩])] := by
    intro i p hp r hr
    match i, hp with
    | 0, hp =>
      obtain rfl := Option.some.inj hp
      cases hr
    | 1, hp =>
      obtain rfl := Option.some.inj hp
      obtain rfl : r = ⟨0, 2⟩ := List.mem_singleton.mp hr
      exact ⟨by decide, _, rfl, by decide⟩
  have hread : Template.read "&1(1)".toList = .ok [.insert ⟨1, 1⟩] := by
    have hbody : ∀ c ∈ "1(1)".toList, Reference.isBodyChar c = true := List.all_eq_true.mp (by decide)
    change Template.read ('&' :: ("1(1)".toList ++ [])) = _
    rw [Template.read_ampersand hbody (by simp), Template.read_nil]
    rfl
  have hkey : (Pattern.ofKey "&1(1)".toList).outcome =
      .ok (.leaf (.template "&1(1)".toList [.insert ⟨1, 1⟩])) := by
    rw [Pattern.outcome_ofKey_of_no_bar (by decide), Leaf.ofKey_template rfl (by decide), hread]
    rfl
  have houts : (Spec.ofOutput "&1(1)".toList).outcome =
      .ok [.leaf (.template "&1(1)".toList [.insert ⟨1, 1⟩])] := by
    change (Pattern.ofKey "&1(1)".toList >>= fun p => (p :: ·) <$> Spec.ofKeys []).outcome = _
    rw [Logged.outcome_bind, hkey]
    rfl
  refine ⟨hscoped, houts, ?_⟩
  have h := (faults_of_scoped _ hscoped).2.2 "&1(1)".toList _ (by decide) houts ?_ ["a-b".toList, ['b']] _ rfl
  · exact h.2 (by decide)
  · intro p hp r hr
    obtain rfl := List.mem_singleton.mp hp
    obtain rfl : r = ⟨1, 1⟩ := List.mem_singleton.mp hr
    exact ⟨by decide, _, rfl, by decide⟩

end KeyPath
