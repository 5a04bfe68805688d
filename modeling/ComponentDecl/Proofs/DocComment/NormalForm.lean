import ComponentDecl.Proofs.DocComment.CommentLines
import Mathlib.Data.List.Basic

/-! # Doc comments as a normal form

    Rendering makes a doc comment of every description, and a doc comment that is rendered
    again only moves to the new indentation.  Nothing of the description is lost on the
    way: a plain one is read back from the lines between the first and the last, and one
    that is a doc comment already keeps every character that shows.

    Key theorem:
    - `render_normalForm`: a rendered description is in normal form and keeps its content
-/

namespace ComponentDecl.DocComment

open Text

/-- The characters of a text that show. -/
def shown (cs : List Char) : List Char :=
  cs.filter (!isBlank ·)

/-- What a line of a comment says after the indentation and the asterisk. -/
def said (indent line : String) : Option String :=
  ((line.toList.dropPrefix? (indent ++ " * ").toList).or
    (line.toList.dropPrefix? (indent ++ " *").toList)).map String.ofList

/-- What the lines of a comment say between the first and the last, if all of them are
    lines of a comment at that indentation. -/
def described (indent comment : String) : Option (List String) :=
  (lines comment).tail.dropLast.mapM (said indent)

/-! ### What shows -/

/-- What shows of a text is what its words consist of. -/
theorem shown_congr {cs ds : List Char} (h : words cs = words ds) : shown cs = shown ds := by
  unfold shown
  rw [← flatten_words, ← flatten_words, h]

/-- A block keeps what shows of it. -/
theorem shown_render {description : String} (h : isBlock description = true) (n : Nat) :
    shown (render description (indentation n)).toList = shown description.toList := by
  apply shown_congr
  rw [words_render, commentLines, if_pos h, words_blockLines]

/-! ### What is said -/

/-- A text without a front of its own is nothing else. -/
theorem dropPrefix?_append (front cs : List Char) : (front ++ cs).dropPrefix? front = some cs :=
  List.dropPrefix?_eq_some_iff.mpr ⟨front, rfl, BEq.rfl⟩

/-- The line that says a line of the description says just that. -/
theorem said_bodyLine (indent content : String) :
    said indent (indent ++ bodyLine content) = some content := by
  by_cases hempty : content = ""
  · subst hempty
    have hbare : (indent ++ bodyLine "").toList.dropPrefix? (indent ++ " * ").toList = none := by
      rw [Option.eq_none_iff_forall_ne_some]
      intro rest hrest
      -- The longer front does not fit the line.
      obtain ⟨front, hfront, heq⟩ := List.dropPrefix?_eq_some_iff.mp hrest
      rw [eq_of_beq heq] at hfront
      have hlength := congrArg List.length hfront
      simp only [String.toList_append, List.length_append] at hlength
      have hline : (bodyLine "").toList.length = 2 := rfl
      have hmark : " * ".toList.length = 3 := rfl
      omega
    have hsame : (indent ++ bodyLine "").toList = (indent ++ " *").toList ++ [] := by
      rw [List.append_nil]
      rfl
    rw [said, hbare, Option.none_or, hsame, dropPrefix?_append]
    rfl
  · rw [bodyLine_of_ne hempty, ← String.append_assoc, said, String.toList_append (t := content),
      dropPrefix?_append, Option.some_or, Option.map_some, String.ofList_toList]

theorem mapM_said (indent : String) (contents : List String) :
    (contents.map fun l => indent ++ bodyLine l).mapM (said indent) = some contents := by
  induction contents with
  | nil => rfl
  | cons l ls ih =>
    rw [List.map_cons, List.mapM_cons, said_bodyLine, ih]
    rfl

/-- The lines of a rendered comment are the indented ones. -/
theorem lines_render (description : String) (n : Nat) :
    lines (render description (indentation n)) =
      (commentLines description).map (indentation n ++ ·) := by
  obtain ⟨first, rest, hlines, hsettled⟩ := exists_settled description
  rw [render_eq, hlines]
  apply lines_joinLines
  · intro l hl
    obtain ⟨k, hk, rfl⟩ := List.mem_map.mp hl
    exact unbroken_append (unbroken_indentation n) (hsettled.unbroken k hk)
  · intro l hl
    rw [List.getLast?_map] at hl
    obtain ⟨k, hk, rfl⟩ := Option.map_eq_some_iff.mp hl
    exact fun hempty => hsettled.ne_empty_of_last k hk (String.append_eq_empty_iff.mp hempty).2

/-- A plain description is read back from its comment. -/
theorem described_render {description : String} (h : isBlock description ≠ true) (n : Nat) :
    described (indentation n) (render description (indentation n)) =
      some (contentLines description) := by
  rw [described, lines_render, commentLines, if_neg h, plainLines_eq, List.map_cons, List.tail_cons,
    List.map_append, List.map_singleton, List.dropLast_concat, List.map_map]
  exact mapM_said _ _

/-! ### The normal form -/

/-- A rendered description is a doc comment, and rendering that comment again at another
    indentation is like rendering the description there.  The comment of a plain
    description says its lines, each without the blanks at its end; that of a block
    differs from the block in blanks only. -/
theorem render_normalForm (description : String) (m n : Nat) :
    isBlock (render description (indentation m)) = true ∧
    render (render description (indentation m)) (indentation n) =
      render description (indentation n) ∧
    if isBlock description then
      shown (render description (indentation m)).toList = shown description.toList
    else
      described (indentation m) (render description (indentation m)) =
        some (contentLines description) := by
  refine ⟨isBlock_render description m, ?_, ?_⟩
  · rw [render_eq _ (indentation n), commentLines_render]
    rfl
  · split
    · next h => exact shown_render h m
    · next h => exact described_render h m

end ComponentDecl.DocComment
