import KeyPath.Text
import Mathlib.Data.List.DropRight

/-!
Dotted paths and their proper segments. A full stop at the end of a path adds an empty segment, which is not
a proper one, so the proper segments put back together are the path without the full stops at its end
(`Text.dotted_properSegments`).
-/
namespace KeyPath.Text
set_option autoImplicit false

/-! ## Cutting at a sign -/

theorem not_mem_of_mem_splitOn {c : Char} {s u : Text} (h : u ∈ s.splitOn c) : c ∉ u := by
  induction s generalizing u with
  | nil =>
    rw [List.splitOn_nil] at h
    obtain rfl := List.mem_singleton.mp h
    exact List.not_mem_nil
  | cons d s ih =>
    rw [List.splitOn_cons_eq_if_modifyHead] at h
    split at h
    · obtain rfl | h := List.mem_cons.mp h
      · exact List.not_mem_nil
      · exact ih h
    · next hd =>
      obtain ⟨v, vs, hv⟩ := List.exists_cons_of_ne_nil (List.splitOn_ne_nil c s)
      rw [hv] at h ih
      obtain rfl | h := List.mem_cons.mp h
      · rw [List.mem_cons, not_or]
        exact ⟨fun hc => hd (by rw [hc, beq_self_eq_true]), ih List.mem_cons_self⟩
      · exact ih (List.mem_cons_of_mem v h)

theorem two_le_length_splitOn {c : Char} {s : Text} (h : c ∈ s) : 2 ≤ (s.splitOn c).length := by
  obtain ⟨a, b, rfl, ha⟩ := List.eq_append_cons_of_mem h
  have hrest : 0 < (b.splitOn c).length := List.length_pos_iff.mpr (List.splitOn_ne_nil c b)
  rw [List.splitOn_append_cons_self_of_not_mem ha, List.length_cons]
  omega

/-! ## Segments -/

theorem stop_not_mem_of_mem_segments {path s : Text} (h : s ∈ segments path) : '.' ∉ s :=
  not_mem_of_mem_splitOn h

theorem dotted_cons_cons (s s' : Text) (ss : List Text) :
    dotted (s :: s' :: ss) = s ++ '.' :: dotted (s' :: ss) := by
  rw [dotted, List.intercalate_cons_cons, List.append_assoc, List.singleton_append]
  rfl

theorem dotted_concat {ss : List Text} (hne : ss ≠ []) (s : Text) : dotted (ss ++ [s]) = dotted ss ++ '.' :: s := by
  induction ss with
  | nil => exact absurd rfl hne
  | cons u ss ih =>
    cases ss with
    | nil => simp [dotted]
    | cons v ss =>
      have hrest := ih (List.cons_ne_nil v ss)
      rw [List.cons_append, List.cons_append, dotted_cons_cons, dotted_cons_cons, ← List.cons_append, hrest]
      simp

theorem mem_dotted {ss : List Text} {c : Char} (hc : c ∈ dotted ss) : c = '.' ∨ ∃ s ∈ ss, c ∈ s := by
  induction ss with
  | nil => cases hc
  | cons s ss ih =>
    cases ss with
    | nil =>
      rw [dotted, List.intercalate_singleton] at hc
      exact .inr ⟨s, List.mem_cons_self, hc⟩
    | cons s' ss =>
      rw [dotted_cons_cons, List.mem_append, List.mem_cons] at hc
      rcases hc with hc | hc | hc
      · exact .inr ⟨s, List.mem_cons_self, hc⟩
      · exact .inl hc
      · rcases ih hc with hstop | ⟨u, hu, hcu⟩
        · exact .inl hstop
        · exact .inr ⟨u, List.mem_cons_of_mem s hu, hcu⟩

theorem segments_ne_nil (path : Text) : segments path ≠ [] := List.splitOn_ne_nil '.' path

theorem segments_concat_stop (path : Text) : segments (path ++ ['.']) = segments path ++ [[]] :=
  List.splitOn_append_cons_self path []

/-- The last segment of a path that does not end in a full stop is not empty. -/
theorem getLast_segments_concat {path : Text} {c : Char} (hc : c ≠ '.') (hne : segments (path ++ [c]) ≠ []) :
    (segments (path ++ [c])).getLast hne ≠ [] := by
  intro hlast
  have hsplit := List.dropLast_append_getLast hne
  rw [hlast] at hsplit
  have hpath := dotted_segments (path ++ [c])
  rw [← hsplit] at hpath
  by_cases hinit : (segments (path ++ [c])).dropLast = []
  · rw [hinit] at hpath
    simp [dotted] at hpath
  · rw [dotted_concat hinit] at hpath
    have hend : ['.'] = [c] := List.append_inj_right' hpath rfl
    exact hc (List.cons.inj hend).1.symm

/-! ## Proper segments -/

theorem properSegments_eq_rdropWhile (path : Text) :
    properSegments path = (segments path).rdropWhile List.isEmpty := rfl

theorem properSegments_concat_stop (path : Text) : properSegments (path ++ ['.']) = properSegments path := by
  rw [properSegments_eq_rdropWhile, segments_concat_stop, List.rdropWhile_concat_pos List.isEmpty _ _ rfl]
  rfl

theorem properSegments_of_last {path : Text} (h : (segments path).getLast (segments_ne_nil path) ≠ []) :
    properSegments path = segments path := by
  rw [properSegments_eq_rdropWhile, List.rdropWhile_eq_self_iff]
  intro hne
  rwa [List.isEmpty_iff]

theorem properSegments_dotted {ss : List Text} (hfree : ∀ s ∈ ss, '.' ∉ s)
    (hlast : ∀ s, ss.getLast? = some s → s ≠ []) : properSegments (dotted ss) = ss := by
  by_cases hne : ss = []
  · subst hne
    rfl
  · rw [properSegments_eq_rdropWhile, segments_dotted hne hfree, List.rdropWhile_eq_self_iff]
    intro hne'
    rw [List.isEmpty_iff]
    exact hlast _ (List.getLast?_eq_some_getLast hne')

/-- The proper segments leave out nothing but the full stops at the end of the path. -/
theorem dotted_properSegments (path : Text) : dotted (properSegments path) = path.rdropWhile (· == '.') := by
  induction path using List.reverseRecOn with
  | nil => rfl
  | append_singleton path c ih =>
    by_cases hc : c = '.'
    · subst hc
      rw [properSegments_concat_stop, ih, List.rdropWhile_concat_pos _ _ _ rfl]
    · rw [properSegments_of_last (getLast_segments_concat hc _), dotted_segments,
        List.rdropWhile_concat_neg _ _ _ (by simpa using hc)]

/-- They are the segments of the path without the full stops at its end, of which the empty path has none. -/
theorem properSegments_eq (path : Text) :
    properSegments path = if path.rdropWhile (· == '.') = [] then [] else segments (path.rdropWhile (· == '.')) := by
  induction path using List.reverseRecOn with
  | nil => rfl
  | append_singleton path c ih =>
    by_cases hc : c = '.'
    · subst hc
      rw [properSegments_concat_stop, ih, List.rdropWhile_concat_pos _ _ _ rfl]
    · rw [properSegments_of_last (getLast_segments_concat hc _),
        List.rdropWhile_concat_neg _ _ _ (by simpa using hc), if_neg (List.concat_ne_nil c path)]

/-- Full stops at the end are no segments, but those in front and in between are. -/
example : properSegments ".a..b..".toList = [[], ['a'], [], ['b']] := by decide

theorem getLast?_properSegments {path s : Text} (h : (properSegments path).getLast? = some s) : s ≠ [] := by
  rw [properSegments_eq_rdropWhile] at h
  obtain ⟨hne, rfl⟩ := List.mem_getLast?_eq_getLast h
  have hlast := List.rdropWhile_last_not List.isEmpty (segments path) hne
  rwa [List.isEmpty_iff] at hlast

/-! ## What is left out at the end -/

theorem rtakeWhile_eq_replicate {α : Type} {p : α → Bool} {x : α} (h : ∀ y, p y = true → y = x) (ys : List α) :
    ys.rtakeWhile p = List.replicate (ys.rtakeWhile p).length x := by
  refine List.eq_replicate_iff.mpr ⟨rfl, ?_⟩
  intro y hy
  exact h y (List.mem_rtakeWhile_imp hy)

/-- The proper segments leave out nothing but the empty segments at the end. -/
theorem exists_segments_eq_properSegments_append (path : Text) :
    ∃ n, segments path = properSegments path ++ List.replicate n [] := by
  have hempty := rtakeWhile_eq_replicate (fun s (hs : List.isEmpty s = true) => List.isEmpty_iff.mp hs) (segments path)
  refine ⟨((segments path).rtakeWhile List.isEmpty).length, ?_⟩
  rw [properSegments_eq_rdropWhile, ← hempty]
  exact List.rdropWhile_append_rtakeWhile.symm

/-- How many full stops the path ends with. -/
def stopsAtEnd (path : Text) : Nat := (path.rtakeWhile (· == '.')).length

theorem dotted_properSegments_append (path : Text) :
    dotted (properSegments path) ++ List.replicate (stopsAtEnd path) '.' = path := by
  have hstops : path.rtakeWhile (· == '.') = List.replicate (stopsAtEnd path) '.' :=
    rtakeWhile_eq_replicate (fun c hc => beq_iff_eq.mp hc) path
  rw [dotted_properSegments, ← hstops]
  exact List.rdropWhile_append_rtakeWhile

end KeyPath.Text
