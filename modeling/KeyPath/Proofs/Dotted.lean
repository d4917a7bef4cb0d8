import KeyPath.Proofs.Segments
import KeyPath.Proofs.Template.Rendering
import KeyPath.Regex.Tabled

/-!
Dotted outputs as single keys. No piece but the full stop itself holds a full stop, so a text is cut into its
segments before or after it is read, with the same pieces (`Template.spelling_append_stop_iff`). An output
that is compiled as one key therefore compiles whenever its segments do, renders to their renderings put
back together, and fails as the first of them fails (`ofKey_agrees_with_ofOutput`).
-/
namespace KeyPath
set_option autoImplicit false

/-! ## Reading across a full stop -/

section
variable {u v rest : Text} {p : Piece} {ls : Template}

theorem Piece.Spelling.eq_stop (h : p.Spelling u rest) (hstop : '.' ∈ u) : u = ['.'] ∧ p = .text ['.'] := by
  cases h with
  | char _ _ =>
    obtain rfl := List.mem_singleton.mp hstop
    exact ⟨rfl, rfl⟩
  | @insert b _ _ hb _ =>
    have hmem : '.' ∈ b := List.mem_of_ne_of_mem (by decide) hstop
    exact absurd (hb.isBodyChar _ hmem) (by decide)
  | @index d _ _ hd =>
    have hmem : '.' ∈ d ++ [']'] := List.mem_of_ne_of_mem (by decide) hstop
    rcases List.mem_append.mp hmem with hmem | hmem
    · exact absurd (hd.2.1 _ hmem) (by decide)
    · exact absurd (List.mem_singleton.mp hmem) (by decide)
  | @insertIndex b _ _ hb =>
    have hmem : '.' ∈ b ++ [']'] :=
      List.mem_of_ne_of_mem (by decide) (List.mem_of_ne_of_mem (by decide) hstop)
    rcases List.mem_append.mp hmem with hmem | hmem
    · exact absurd (hb.isBodyChar _ hmem) (by decide)
    · exact absurd (List.mem_singleton.mp hmem) (by decide)

namespace Template
variable {a b : Text}

/-- A full stop belongs to no reference, so a text is read in front of it and behind it on its own. -/
theorem spelling_append_stop_iff :
    Spelling (a ++ '.' :: b) rest ls ↔
      ∃ la lb, ls = la ++ .text ['.'] :: lb ∧ Spelling a [] la ∧ Spelling b rest lb := by
  constructor
  · intro h
    generalize hw : a ++ '.' :: b = w at h
    induction h generalizing a with
    | done => simp at hw
    | @step u v rest p ps hp hps ih =>
      have hbehind : ∀ a', a = u ++ a' → a' ++ '.' :: b = v →
          ∃ la lb, p :: ps = la ++ .text ['.'] :: lb ∧ Spelling a [] la ∧ Spelling b rest lb := by
        rintro a' rfl hv
        obtain ⟨la, lb, rfl, hla, hlb⟩ := ih hv
        refine ⟨p :: la, lb, rfl, .step (hp.of_rest ?_) hla, hlb⟩
        intro c hc
        rw [List.append_nil] at hc
        rw [← hv]
        cases a' with
        | nil => cases hc
        | cons d a' => exact .inl hc
      -- The first piece ends in front of the full stop, or it is the full stop.
      rcases List.append_eq_append_iff.mp hw with ⟨a', hu, hv⟩ | ⟨a', ha, hv⟩
      · cases a' with
        | nil => exact hbehind [] (by simpa using hu.symm) hv
        | cons c a' =>
          obtain ⟨rfl, hb⟩ := List.cons.inj hv
          obtain ⟨rfl, rfl⟩ := hp.eq_stop (by simp [hu])
          obtain ⟨rfl, rfl⟩ : a = [] ∧ a' = [] := by
            have hlen := congrArg List.length hu
            simp only [List.length_append, List.length_cons, List.length_nil] at hlen
            exact ⟨List.length_eq_zero_iff.mp (by omega), List.length_eq_zero_iff.mp (by omega)⟩
          refine ⟨[], ps, rfl, .done, ?_⟩
          rw [hb]
          exact hps
      · exact hbehind a' ha hv.symm
  · rintro ⟨la, lb, rfl, ha, hb⟩
    have hstop : Spelling ('.' :: b) rest (.text ['.'] :: lb) :=
      .step (u := ['.']) (.char (by decide) (by decide)) hb
    refine Spelling.append (ha.of_rest ?_) hstop
    intro c hc
    obtain rfl := Option.some.inj hc
    decide

/-- Full stops at the end are read as they are. -/
theorem spelling_append_stops_iff (n : Nat) :
    Spelling (a ++ List.replicate n '.') [] ls ↔
      ∃ la, ls = la ++ (Piece.text (List.replicate n '.')).letters ∧ Spelling a [] la := by
  have hstops : ∀ m, Spelling (List.replicate m '.') [] (Piece.text (List.replicate m '.')).letters := by
    intro m
    apply spelling_letters_text
    intro c hc
    obtain rfl := List.eq_of_mem_replicate hc
    decide
  cases n with
  | zero => simp [Piece.letters]
  | succ n =>
    rw [List.replicate_succ, spelling_append_stop_iff]
    constructor
    · rintro ⟨la, lb, rfl, ha, hb⟩
      obtain rfl := hb.unique (hstops n)
      exact ⟨la, rfl, ha⟩
    · rintro ⟨la, rfl, ha⟩
      exact ⟨la, _, rfl, ha, hstops n⟩

/-- A path is read as its proper segments, with the full stops behind them. -/
theorem spelling_path_iff {path : Text} :
    Spelling path [] ls ↔
      ∃ la, ls = la ++ (Piece.text (List.replicate path.stopsAtEnd '.')).letters ∧
        Spelling (Text.dotted path.properSegments) [] la := by
  have h := @spelling_append_stops_iff ls (Text.dotted path.properSegments) path.stopsAtEnd
  rwa [Text.dotted_properSegments_append] at h

theorem exists_spelling_dotted_iff {ss : List Text} :
    (∃ ls, Spelling (Text.dotted ss) [] ls) ↔ ∀ s ∈ ss, ∃ ls, Spelling s [] ls := by
  induction ss with
  | nil => exact ⟨fun _ s hs => absurd hs List.not_mem_nil, fun _ => ⟨[], .done⟩⟩
  | cons s ss ih =>
    cases ss with
    | nil => simp [Text.dotted]
    | cons s' ss =>
      rw [Text.dotted_cons_cons, List.forall_mem_cons, ← ih]
      constructor
      · rintro ⟨ls, hls⟩
        obtain ⟨la, lb, -, ha, hb⟩ := spelling_append_stop_iff.mp hls
        exact ⟨⟨la, ha⟩, lb, hb⟩
      · rintro ⟨⟨la, ha⟩, lb, hb⟩
        exact ⟨_, spelling_append_stop_iff.mpr ⟨la, lb, rfl, ha, hb⟩⟩

end Template
end

/-! ## Rendering level by level -/

namespace Spec
variable {t : Trail}

theorem map_dotted_render_cons_cons (p q : Pattern) (ps : Spec) :
    (Spec.render t (p :: q :: ps)).map Text.dotted =
      followedBy (p.render t) (followedBy (.ok ['.']) ((Spec.render t (q :: ps)).map Text.dotted)) := by
  rw [Spec.render, Spec.render]
  cases p.render t with
  | error fault => rfl
  | ok s =>
    cases q.render t with
    | error fault => rfl
    | ok s' =>
      cases Spec.render t ps with
      | error fault => rfl
      | ok ss => exact congrArg Except.ok (Text.dotted_cons_cons s s' ss)

/-- The text of the levels, read as one key, renders to the renderings of the levels. -/
theorem render_of_spelling_dotted [Engine] {ss : List Text} {ps : Spec}
    (hfree : ∀ s ∈ ss, '|' ∉ s ∧ '*' ∉ s ∧ '@' ∉ s)
    (hps : List.Forall₂ (fun key p => (Pattern.ofKey key).outcome = .ok p) ss ps) {ls : Template}
    (hls : Template.Spelling (Text.dotted ss) [] ls) (t : Trail) :
    ls.render t = (ps.render t).map Text.dotted := by
  induction hps generalizing ls with
  | nil =>
    obtain rfl := Template.Spelling.eq_nil hls
    rfl
  | @cons s p ss ps hp hrest ih =>
    obtain ⟨hbar, hstar, hat⟩ := hfree s List.mem_cons_self
    have ih := @ih fun s' hs' => hfree s' (List.mem_cons_of_mem s hs')
    cases hrest with
    | nil =>
      have hone : Text.dotted [s] = s := List.intercalate_singleton
      rw [hone] at hls
      rw [← Pattern.render_of_spelling hbar hstar hat hp hls, Spec.render]
      cases p.render t with
      | error fault => rfl
      | ok u => exact congrArg Except.ok List.intercalate_singleton.symm
    | @cons s' q ss ps hq hrest =>
      rw [Text.dotted_cons_cons] at hls
      obtain ⟨la, lb, rfl, ha, hb⟩ := Template.spelling_append_stop_iff.mp hls
      rw [map_dotted_render_cons_cons, Template.render_append, Template.render_cons, ih hb,
        ← Pattern.render_of_spelling hbar hstar hat hp ha]
      rfl

end Spec

/-! ## The two ways to compile an output -/

/-- An output without stars, bars and at-signs compiles as one key if and only if it compiles level by level,
and renders to what its levels render to, with the full stops that it ends with, or fails with their fault. -/
theorem ofKey_agrees_with_ofOutput [Engine] (output : Text) (hat : '@' ∉ output) (hstar : '*' ∉ output)
    (hbar : '|' ∉ output) :
    ((∃ p, (Pattern.ofKey output).outcome = .ok p) ↔ ∃ ps, (Spec.ofOutput output).outcome = .ok ps) ∧
      ∀ p ps, (Pattern.ofKey output).outcome = .ok p → (Spec.ofOutput output).outcome = .ok ps → ∀ t : Trail,
        (∀ parts, ps.render t = .ok parts →
          p.render t = .ok (Text.dotted parts ++ List.replicate output.stopsAtEnd '.')) ∧
          ∀ fault, ps.render t = .error fault → p.render t = .error fault := by
  have hfree : ∀ s ∈ output.properSegments, '|' ∉ s ∧ '*' ∉ s ∧ '@' ∉ s := by
    intro s hs
    have hsub : ∀ c, c ∈ s → c ∈ output := fun c hc => Text.mem_of_mem_properSegments hs hc
    exact ⟨fun h => hbar (hsub _ h), fun h => hstar (hsub _ h), fun h => hat (hsub _ h)⟩
  rw [Spec.ofOutput_of_no_sign hat hstar]
  constructor
  · have hwhole : (∃ ls, Template.Spelling output [] ls) ↔
        ∃ ls, Template.Spelling (Text.dotted output.properSegments) [] ls := by
      constructor
      · rintro ⟨ls, hls⟩
        obtain ⟨la, -, hla⟩ := Template.spelling_path_iff.mp hls
        exact ⟨la, hla⟩
      · rintro ⟨la, hla⟩
        exact ⟨_, Template.spelling_path_iff.mpr ⟨la, rfl, hla⟩⟩
    rw [Pattern.exists_ofKey_iff_spelling hbar hstar hat, Spec.exists_ofKeys_iff, hwhole,
      Template.exists_spelling_dotted_iff]
    refine forall₂_congr fun s hs => ?_
    obtain ⟨hbar', hstar', hat'⟩ := hfree s hs
    exact (Pattern.exists_ofKey_iff_spelling hbar' hstar' hat').symm
  · intro p ps hp hps t
    obtain ⟨ls, hls⟩ := (Pattern.exists_ofKey_iff_spelling hbar hstar hat).mp ⟨p, hp⟩
    have hrender := Pattern.render_of_spelling hbar hstar hat hp hls t
    obtain ⟨la, rfl, hla⟩ := Template.spelling_path_iff.mp hls
    rw [Template.render_append, Template.render_letters_text,
      Spec.render_of_spelling_dotted hfree (Spec.forall₂_of_ofKeys hps) hla] at hrender
    constructor
    · intro parts hparts
      rw [hrender, hparts]
      rfl
    · intro fault hfault
      rw [hrender, hfault]
      rfl

open scoped Tabled

/-- The full stops at the end are no levels, and the one key keeps them. -/
theorem ofKey_agrees_with_ofOutput_stops :
    (∃ ps, (Spec.ofOutput "a.&..".toList).outcome = .ok ps) ∧
      Pattern.render ⟨[.leaf (.exact ['x'] [])]⟩
        (.leaf (.template "a.&..".toList [.text "a.".toList, .insert ⟨0, 0⟩, .text "..".toList])) =
        .ok "a.x..".toList := by
  have hread : Template.read "a.&..".toList = .ok [.text "a.".toList, .insert ⟨0, 0⟩, .text "..".toList] := by
    decide +kernel
  have hamp : Template.read ['&'] = .ok [.insert ⟨0, 0⟩] := by decide +kernel
  have hkey : (Pattern.ofKey "a.&..".toList).outcome =
      .ok (.leaf (.template "a.&..".toList [.text "a.".toList, .insert ⟨0, 0⟩, .text "..".toList])) := by
    rw [Pattern.outcome_ofKey_of_no_bar (by decide), Leaf.ofKey_template rfl (by decide), hread]
    rfl
  have hlast : (Pattern.ofKey ['&']).outcome = .ok (.leaf (.template ['&'] [.insert ⟨0, 0⟩])) := by
    rw [Pattern.outcome_ofKey_of_no_bar (by decide), Leaf.ofKey_template rfl (by decide), hamp]
    rfl
  have hlevels : (Spec.ofOutput "a.&..".toList).outcome =
      .ok [.leaf (.exact ['a'] []), .leaf (.template ['&'] [.insert ⟨0, 0⟩])] :=
    Spec.outcome_ofKeys_of_forall₂ (.cons rfl (.cons hlast .nil))
  have h := ofKey_agrees_with_ofOutput "a.&..".toList (by decide) (by decide) (by decide)
  exact ⟨h.1.mp ⟨_, hkey⟩, (h.2 _ _ hkey hlevels _).1 [['a'], ['x']] rfl⟩

end KeyPath
