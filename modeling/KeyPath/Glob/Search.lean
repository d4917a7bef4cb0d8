import KeyPath.Glob

/-!
Matching a key against a glob without a regular expression. `fill` puts texts in the place of the stars,
and `search` looks for the fill that gives the key, trying a shorter capture before a longer one at every
star from the left. `captures?` has the same answers (`captures?_eq_search`), read from a table with one
row per star and one column per end of the key, so that its time is bounded by the size of the table.
-/
namespace KeyPath.Glob
set_option autoImplicit false

/-! ## Filling the stars -/

def fillRest : List Text → List Text → Text
  | s :: segments, t :: captures => t ++ s ++ fillRest segments captures
  | _, _ => []

def fill (g : Glob) (captures : List Text) : Text := g.first ++ fillRest g.rest captures

/-! ## The search -/

/-- Puts a character in front of the first capture. -/
def lengthen (c : Char) : List Text → List Text
  | [] => []
  | t :: captures => (c :: t) :: captures

/-- The captures from a star on, where `s` stands behind the star and `next` searches behind `s`. -/
def searchStar (s : Text) (next : Text → Option (List Text)) : Text → Option (List Text)
  | [] => ((Text.after? s []).bind next).map ([] :: ·)
  | c :: u =>
    match (Text.after? s (c :: u)).bind next with
    | some captures => some ([] :: captures)
    | none => (searchStar s next u).map (lengthen c)

def searchRest : List Text → Text → Option (List Text)
  | [] => fun u => if u = [] then some [] else none
  | s :: segments => searchStar s (searchRest segments)

def search (g : Glob) (key : Text) : Option (List Text) :=
  (Text.after? g.first key).bind (searchRest g.rest)

/-! ## The table -/

/-- The entry behind `s`, in a row that has an entry for every end of `u`. -/
def entryAfter (s u : Text) (row : List (Option (List Text))) : Option (List Text) :=
  if (Text.after? s u).isSome then row.getD s.length none else none

/-- The row of a star from the row of what stands behind it. -/
def rowStar (s : Text) : Text → List (Option (List Text)) → List (Option (List Text))
  | [], below => [(entryAfter s [] below).map ([] :: ·)]
  | c :: u, below =>
    let row := rowStar s u below.tail
    match entryAfter s (c :: u) below with
    | some captures => some ([] :: captures) :: row
    | none => (row.headD none).map (lengthen c) :: row

def row : List Text → Text → List (Option (List Text))
  | [], u => List.replicate u.length none ++ [some []]
  | s :: segments, u => rowStar s u (row segments u)

def captures? (g : Glob) (key : Text) : Option (List Text) :=
  (Text.after? g.first key).bind fun u => (row g.rest u).headD none

/-- The entries that a row ought to have. -/
def ends (f : Text → Option (List Text)) : Text → List (Option (List Text))
  | [] => [f []]
  | c :: u => f (c :: u) :: ends f u

theorem getD_ends (f : Text → Option (List Text)) (u v : Text) :
    (ends f (u ++ v)).getD u.length none = f v := by
  induction u with
  | nil => cases v <;> rfl
  | cons c u ih => simpa [ends] using ih

theorem tail_ends (f : Text → Option (List Text)) (c : Char) (u : Text) :
    (ends f (c :: u)).tail = ends f u := rfl

theorem headD_ends (f : Text → Option (List Text)) (u : Text) :
    (ends f u).headD none = f u := by
  cases u <;> rfl

theorem entryAfter_ends (s u : Text) (f : Text → Option (List Text)) :
    entryAfter s u (ends f u) = (Text.after? s u).bind f := by
  rw [entryAfter]
  cases h : Text.after? s u with
  | none => rfl
  | some v =>
    rw [Text.after?_eq_some_iff.mp h, Option.isSome_some, if_pos rfl, getD_ends]
    rfl

theorem rowStar_ends (s : Text) (f : Text → Option (List Text)) (u : Text) :
    rowStar s u (ends f u) = ends (searchStar s f) u := by
  induction u with
  | nil => rw [rowStar, entryAfter_ends, ends, searchStar]
  | cons c u ih =>
    rw [rowStar, tail_ends, ih, entryAfter_ends, ends, searchStar, headD_ends]
    split <;> simp_all

theorem row_eq_ends (segments : List Text) (u : Text) :
    row segments u = ends (searchRest segments) u := by
  induction segments with
  | nil =>
    rw [row, searchRest]
    induction u with
    | nil => rfl
    | cons c u ih =>
      rw [List.length_cons, List.replicate_succ, List.cons_append, ih, ends, if_neg (List.cons_ne_nil c u)]
  | cons s segments ih => rw [row, ih, rowStar_ends, searchRest]

theorem captures?_eq_search (g : Glob) (key : Text) : captures? g key = search g key := by
  simp only [captures?, search, row_eq_ends, headD_ends]

end KeyPath.Glob
