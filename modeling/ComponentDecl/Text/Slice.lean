import ComponentDecl.Text.Lines
import ComponentDecl.Text.Blank

/-! # Parts of a text

    Slices between two signed indices, quotes around a name, and the head line
    by which a longer text is quoted in a message. -/

namespace ComponentDecl.Text

/-! ## Slices -/

/-- The place that a signed index means in a list of `n` elements: a negative
    index counts from the end, and an index outside means the nearer end. -/
def indexIn (n : Nat) (i : Int) : Nat :=
  if i < 0 then (i + n).toNat else min i.toNat n

/-- The elements between two signed indices; none when they are out of order. -/
def slice {α : Type} (xs : List α) (i j : Int) : List α :=
  (xs.take (indexIn xs.length j)).drop (indexIn xs.length i)

/-! ## Quotes -/

/-- A name without the pair of equal quotes around it, if there is one. -/
def stripQuotes (s : String) : String :=
  match s.toList with
  | q :: c :: rest =>
    if (q == '\'' || q == '"') && (c :: rest).getLast? == some q then
      String.ofList (c :: rest).dropLast
    else s
  | _ => s

/-! ## Head lines -/

/-- The first line of a text without the blanks around it, cut to at most
    `limit` characters of which the last three are points. -/
def headLine (limit : Int) (s : String) : String :=
  let head := ((lines (strip s)).headD "").toList
  if limit < head.length then String.ofList (slice head 0 (limit - 3)) ++ "..."
  else String.ofList head

end ComponentDecl.Text
