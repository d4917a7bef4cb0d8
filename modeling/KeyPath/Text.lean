/-!
Texts are lists of code points. A dotted path is cut at every full stop, so empty segments count;
joining the segments gives the path back.
-/
namespace KeyPath
set_option autoImplicit false

abbrev Text := List Char

namespace Text

/-- The segments of a dotted path; the empty text is one empty segment. -/
def segments (path : Text) : List Text := path.splitOn '.'

def dotted (segments : List Text) : Text := ['.'].intercalate segments

theorem dotted_segments (path : Text) : dotted (segments path) = path :=
  List.intercalate_splitOn '.'

theorem segments_dotted {ss : List Text} (hne : ss ≠ []) (h : ∀ s ∈ ss, '.' ∉ s) :
    segments (dotted ss) = ss :=
  List.splitOn_intercalate '.' h hne

/-- The segments of a path, less the empty ones at its end. -/
def properSegments (path : Text) : List Text :=
  ((segments path).reverse.dropWhile List.isEmpty).reverse

/-- What stands behind `s` in a text that begins with `s`. -/
def after? : Text → Text → Option Text
  | [], u => some u
  | _ :: _, [] => none
  | c :: s, d :: u => if c = d then after? s u else none

theorem after?_eq_some_iff {s u v : Text} : after? s u = some v ↔ u = s ++ v := by
  induction s generalizing u with
  | nil => simp [after?]
  | cons c s ih =>
    cases u with
    | nil => simp [after?]
    | cons d u =>
      by_cases h : c = d
      · subst h; simp [after?, ih]
      · simp [after?, h, Ne.symm h]

/-- How a text is shown in messages. -/
def quoted (s : Text) : Text := "'".toList ++ s ++ "'".toList

/-- An index stands in square brackets. -/
def bracketed (s : Text) : Text := '[' :: s ++ [']']

end Text
end KeyPath
