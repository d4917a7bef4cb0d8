import KeyPath.Render

/-!
Where references lead. The place of a node is counted from the root here, as the path has it:
`Reference.Yields` tells the text that a reference stands for, and `Reference.Fails` why it stands for none
(`Trail.resolve_toldBy`). The last section counts in words of 64 bits: no difference goes below zero, and no
place is looked up that is not there (`Trail.resolveWord_eq`).
-/
namespace KeyPath
set_option autoImplicit false

/-- The values of an outcome are those that `yields` has, and its faults those that `fails` has. -/
structure ToldBy {α : Type} (x : Except Fault α) (yields : α → Prop) (fails : Fault → Prop) : Prop where
  ok_iff : ∀ a, x = .ok a ↔ yields a
  error_iff : ∀ fault, x = .error fault ↔ fails fault

theorem toldBy_of_total {α : Type} {x : Except Fault α} {yields : α → Prop} {fails : Fault → Prop}
    (hyields : ∀ a, yields a → x = .ok a) (hfails : ∀ fault, fails fault → x = .error fault)
    (htotal : (∃ a, yields a) ∨ ∃ fault, fails fault) : ToldBy x yields fails := by
  obtain ⟨a, ha⟩ | ⟨fault, hfault⟩ := htotal
  · have hx := hyields a ha
    refine ⟨fun b => ⟨fun h => ?_, hyields b⟩, fun cause => ⟨fun h => ?_, hfails cause⟩⟩
    · obtain rfl : a = b := Except.ok.inj (hx.symm.trans h)
      exact ha
    · cases hx.symm.trans h
  · have hx := hfails fault hfault
    refine ⟨fun b => ⟨fun h => ?_, hyields b⟩, fun cause => ⟨fun h => ?_, hfails cause⟩⟩
    · cases hx.symm.trans h
    · obtain rfl : fault = cause := Except.error.inj (hx.symm.trans h)
      exact hfault

/-! ## Nodes and their sub-keys -/

namespace Trail

variable {t : Trail} {distance i : Nat} {node : Pattern}

theorem up_of_place (hplace : i + distance + 1 = t.depth) (hnode : t.toList[i]? = some node) :
    t.up distance = .ok node := by
  rw [toList, List.getElem?_reverse' hplace] at hnode
  rw [up, hnode]

theorem up_of_depth_le (hdepth : t.depth ≤ distance) : t.up distance = .error (.noSuchLevel distance t.depth) := by
  rw [up, List.getElem?_eq_none hdepth]

theorem node_or_depth_le (t : Trail) (distance : Nat) :
    (∃ i node, i + distance + 1 = t.depth ∧ t.toList[i]? = some node) ∨ t.depth ≤ distance := by
  rcases Nat.lt_or_ge distance t.depth with hlt | hle
  · have hplace : t.depth - 1 - distance + distance + 1 = t.depth := by omega
    refine .inl ⟨t.depth - 1 - distance, t.nodes[distance], hplace, ?_⟩
    rw [toList, List.getElem?_reverse' hplace]
    exact List.getElem?_eq_getElem hlt
  · exact .inr hle

end Trail

namespace Pattern

theorem exact_or_kind_ne (node : Pattern) :
    (∃ key groups, node = .leaf (.exact key groups)) ∨ node.kind ≠ .exact := by
  match node with
  | .leaf (.exact key groups) => exact .inl ⟨key, groups, rfl⟩
  | .leaf (.glob _) | .leaf (.marker _) | .leaf (.template _ _) | .choice _ => exact .inr nofun

theorem capture_of_kind_ne {node : Pattern} (hkind : node.kind ≠ .exact) (index : Nat) :
    node.capture index = .error (.unsupported .capture node.kind node.key) := by
  match node, hkind with
  | .leaf (.exact _ _), hkind => exact absurd rfl hkind
  | .leaf (.glob _), _ | .leaf (.marker _), _ | .leaf (.template _ _), _ | .choice _, _ => rfl

theorem capture_of_length_le {key : Text} {groups : List Text} {index : Nat} (hle : groups.length + 1 ≤ index) :
    (leaf (.exact key groups)).capture index = .error (.noSuchCapture key index (groups.length + 1)) := by
  rw [capture, List.getElem?_eq_none hle]

end Pattern

/-! ## References -/

section
variable (t : Trail) (r : Reference)

/-- Why no text can be put in for a reference. -/
inductive Reference.Fails : Fault → Prop
  | noSuchLevel (hup : t.depth ≤ r.up) : Fails (.noSuchLevel r.up t.depth)
  | unsupported {i : Nat} {node : Pattern} (hplace : i + r.up + 1 = t.depth) (hnode : t.toList[i]? = some node)
      (hkind : node.kind ≠ .exact) : Fails (.unsupported .capture node.kind node.key)
  | noSuchCapture {i : Nat} {key : Text} {groups : List Text} (hplace : i + r.up + 1 = t.depth)
      (hnode : t.toList[i]? = some (.leaf (.exact key groups))) (hgroup : groups.length + 1 ≤ r.group) :
      Fails (.noSuchCapture key r.group (groups.length + 1))

/-- What is put in for a reference: the key of its node, or what one of the stars captured there. -/
inductive Reference.Yields : Text → Prop
  | key {i : Nat} {key : Text} {groups : List Text} (hplace : i + r.up + 1 = t.depth)
      (hnode : t.toList[i]? = some (.leaf (.exact key groups))) (hgroup : r.group = 0) : Yields key
  | capture {i n : Nat} {key s : Text} {groups : List Text} (hplace : i + r.up + 1 = t.depth)
      (hnode : t.toList[i]? = some (.leaf (.exact key groups))) (hgroup : r.group = n + 1)
      (hs : groups[n]? = some s) : Yields s

theorem Reference.yields_or_fails : (∃ s, r.Yields t s) ∨ ∃ fault, r.Fails t fault := by
  obtain ⟨i, node, hplace, hnode⟩ | hup := t.node_or_depth_le r.up
  · obtain ⟨key, groups, rfl⟩ | hkind := node.exact_or_kind_ne
    · cases hgroup : r.group with
      | zero => exact .inl ⟨key, .key hplace hnode hgroup⟩
      | succ n =>
        cases hs : groups[n]? with
        | some s => exact .inl ⟨s, .capture hplace hnode hgroup hs⟩
        | none =>
          have hle : groups.length + 1 ≤ r.group := by
            rw [hgroup]
            exact Nat.succ_le_succ (List.getElem?_eq_none_iff.mp hs)
          exact .inr ⟨_, .noSuchCapture hplace hnode hle⟩
    · exact .inr ⟨_, .unsupported hplace hnode hkind⟩
  · exact .inr ⟨_, .noSuchLevel hup⟩

end

namespace Trail

variable {t : Trail} {r : Reference} {s : Text} {fault : Fault}

theorem resolve_of_place {i : Nat} {node : Pattern} (hplace : i + r.up + 1 = t.depth)
    (hnode : t.toList[i]? = some node) : t.resolve r = node.capture r.group := by
  rw [resolve, up_of_place hplace hnode]
  rfl

theorem resolve_of_yields (h : r.Yields t s) : t.resolve r = .ok s := by
  cases h with
  | key hplace hnode hgroup =>
    rw [resolve_of_place hplace hnode, hgroup]
    rfl
  | capture hplace hnode hgroup hs =>
    rw [resolve_of_place hplace hnode, hgroup]
    exact Pattern.capture_exact_eq_ok_iff.mpr hs

theorem resolve_of_fails (h : r.Fails t fault) : t.resolve r = .error fault := by
  cases h with
  | noSuchLevel hup =>
    rw [resolve, up_of_depth_le hup]
    rfl
  | unsupported hplace hnode hkind =>
    rw [resolve_of_place hplace hnode]
    exact Pattern.capture_of_kind_ne hkind r.group
  | noSuchCapture hplace hnode hgroup =>
    rw [resolve_of_place hplace hnode]
    exact Pattern.capture_of_length_le hgroup

theorem resolve_toldBy (t : Trail) (r : Reference) : ToldBy (t.resolve r) (r.Yields t) (r.Fails t) :=
  toldBy_of_total (fun _ => resolve_of_yields) (fun _ => resolve_of_fails) (r.yields_or_fails t)

end Trail

/-! ## Words -/

/-- The difference of two words, if it does not go below zero. -/
def Numeral.minus? (a b : UInt64) : Option UInt64 := if b ≤ a then some (a - b) else none

theorem Numeral.minus?_eq_some_iff {a b c : UInt64} : minus? a b = some c ↔ c.toNat + b.toNat = a.toNat := by
  rw [minus?]
  split
  · next hle =>
    have hsub : (a - b).toNat = a.toNat - b.toNat := UInt64.toNat_sub_of_le a b hle
    rw [UInt64.le_iff_toNat_le] at hle
    rw [Option.some.injEq, ← UInt64.toNat_inj, hsub]
    omega
  · next hle =>
    rw [UInt64.le_iff_toNat_le] at hle
    refine iff_of_false nofun ?_
    omega

theorem Numeral.minus?_eq_none_iff {a b : UInt64} : minus? a b = none ↔ a.toNat < b.toNat := by
  rw [minus?]
  split
  · next hle => exact iff_of_false nofun (Nat.not_lt_of_le hle)
  · next hle => exact iff_of_true rfl (Nat.lt_of_not_le hle)

namespace Trail

/-- The place, counted from the root, of the node a number of levels above the newest one. -/
def place? (t : Trail) (distance : UInt64) : Option UInt64 :=
  (Numeral.minus? (.ofNat t.depth) distance).bind (Numeral.minus? · 1)

/-- The lookup of a node at its place; nothing comes out if the trail has no such place. -/
def upWord (t : Trail) (distance : UInt64) : Option (Except Fault Pattern) :=
  match t.place? distance with
  | some i => t.toList[i.toNat]?.map .ok
  | none => some (.error (.noSuchLevel distance.toNat t.depth))

variable {t : Trail} {distance i : UInt64}

theorem toNat_ofNat_depth (hdepth : t.depth < Numeral.bound) : (UInt64.ofNat t.depth).toNat = t.depth :=
  UInt64.toNat_ofNat_of_lt hdepth

theorem toNat_place?_add (hdepth : t.depth < Numeral.bound) (h : t.place? distance = some i) :
    i.toNat + distance.toNat + 1 = t.depth := by
  obtain ⟨above, habove, hi⟩ := Option.bind_eq_some_iff.mp h
  rw [Numeral.minus?_eq_some_iff, toNat_ofNat_depth hdepth] at habove
  have hone : i.toNat + 1 = above.toNat := Numeral.minus?_eq_some_iff.mp hi
  omega

theorem depth_le_of_place? (hdepth : t.depth < Numeral.bound) (h : t.place? distance = none) :
    t.depth ≤ distance.toNat := by
  cases habove : Numeral.minus? (.ofNat t.depth) distance with
  | none =>
    rw [Numeral.minus?_eq_none_iff, toNat_ofNat_depth hdepth] at habove
    exact Nat.le_of_lt habove
  | some above =>
    rw [place?, habove, Option.bind_some] at h
    rw [Numeral.minus?_eq_some_iff, toNat_ofNat_depth hdepth] at habove
    have hone : above.toNat < 1 := Numeral.minus?_eq_none_iff.mp h
    omega

theorem upWord_eq (hdepth : t.depth < Numeral.bound) (distance : UInt64) :
    t.upWord distance = some (t.up distance.toNat) := by
  rw [upWord]
  cases hplace : t.place? distance with
  | none => exact congrArg some (up_of_depth_le (depth_le_of_place? hdepth hplace)).symm
  | some i =>
    have hadd := toNat_place?_add hdepth hplace
    have hlt : i.toNat < t.toList.length := by
      rw [length_toList]
      omega
    have hnode : t.toList[i.toNat]? = some t.toList[i.toNat] := List.getElem?_eq_getElem hlt
    show (t.toList[i.toNat]?).map Except.ok = _
    rw [hnode, up_of_place hadd hnode]
    rfl

end Trail

/-- The lookup of a sub-key; nothing comes out if the number of a star goes below zero. -/
def Pattern.captureWord : Pattern → UInt64 → Option (Except Fault Text)
  | .leaf (.exact key groups), index =>
    if index = 0 then some (.ok key)
    else (Numeral.minus? index 1).map fun n =>
      match groups[n.toNat]? with
      | some s => .ok s
      | none => .error (.noSuchCapture key index.toNat (groups.length + 1))
  | p, _ => some (.error (.unsupported .capture p.kind p.key))

theorem Pattern.captureWord_eq (node : Pattern) (index : UInt64) :
    node.captureWord index = some (node.capture index.toNat) := by
  match node with
  | .leaf (.glob _) | .leaf (.marker _) | .leaf (.template _ _) | .choice _ => rfl
  | .leaf (.exact key groups) =>
    rw [captureWord]
    by_cases hzero : index = 0
    · rw [if_pos hzero, hzero]
      rfl
    · rw [if_neg hzero]
      cases hn : Numeral.minus? index 1 with
      | none =>
        have hlt : index.toNat < 1 := Numeral.minus?_eq_none_iff.mp hn
        exact absurd (UInt64.toNat_inj.mp (Nat.lt_one_iff.mp hlt)) hzero
      | some n =>
        have hadd : n.toNat + 1 = index.toNat := Numeral.minus?_eq_some_iff.mp hn
        rw [capture, ← hadd, List.getElem?_cons_succ]
        rfl

/-- Resolving in words; nothing comes out if a difference goes below zero or a place is not there. -/
def Trail.resolveWord (t : Trail) (up group : UInt64) : Option (Except Fault Text) :=
  match t.upWord up with
  | some (.ok node) => node.captureWord group
  | some (.error fault) => some (.error fault)
  | none => none

theorem Trail.resolveWord_eq {t : Trail} (hdepth : t.depth < Numeral.bound) (up group : UInt64) :
    t.resolveWord up group = some (t.resolve ⟨up.toNat, group.toNat⟩) := by
  rw [resolveWord, upWord_eq hdepth, resolve]
  cases t.up up.toNat with
  | error fault => rfl
  | ok node => exact Pattern.captureWord_eq node group

end KeyPath
