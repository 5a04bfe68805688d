import ComponentDecl.Proofs.DocComment.CommentLines
import ComponentDecl.Syntax.Lexeme

/-! # Where a doc comment ends

    A rendered comment opens and closes like a comment, but the description is not looked
    through for marks that end a comment.  Each of them is kept, and a comment that has
    one besides its own ends there: the rest of the description is read as code.

    Key theorems:
    - `blockCommentRest_append`: a comment ends at its first mark
    - `render_endMarks`: the marks of a rendered comment are those of the description and,
      for a plain description, the one at the end
-/

namespace ComponentDecl.DocComment

open Text Syntax

/-- How many marks that end a comment a text has. -/
def endMarks : List Char → Nat
  | [] => 0
  | c :: rest => (if c = '*' ∧ rest.head? = some '/' then 1 else 0) + endMarks rest

theorem endMarks_cons_of_not {c : Char} {rest : List Char}
    (h : ¬(c = '*' ∧ rest.head? = some '/')) : endMarks (c :: rest) = endMarks rest := by
  rw [endMarks, if_neg h, Nat.zero_add]

/-- No blank is part of a mark. -/
theorem endMarks_append_cons (cs : List Char) (c : Char) (ds : List Char)
    (h : isBlank c = true) : endMarks (cs ++ c :: ds) = endMarks cs + endMarks ds := by
  have hstar : c ≠ '*' := by
    rintro rfl
    exact absurd h (by decide)
  have hslash : c ≠ '/' := by
    rintro rfl
    exact absurd h (by decide)
  induction cs with
  | nil =>
    rw [List.nil_append, endMarks_cons_of_not fun hmark => hstar hmark.1, endMarks, Nat.zero_add]
  | cons b cs ih =>
    have hhead : (cs ++ c :: ds).head? = some '/' ↔ cs.head? = some '/' := by
      cases cs with
      | nil => simp [hslash]
      | cons d cs => rfl
    rw [List.cons_append, endMarks, endMarks, ih]
    simp only [hhead]
    omega

/-- The marks of a text are those of its words. -/
theorem sum_endMarks (cs : List Char) : ((words cs).map endMarks).sum = endMarks cs :=
  sum_words rfl endMarks_append_cons cs

/-! ### Read as a comment -/

theorem endMarks_pos {text : List Char} (h : "*/".toList <:+ text) : 0 < endMarks text := by
  obtain ⟨front, rfl⟩ := h
  induction front with
  | nil => decide
  | cons c front ih =>
    rw [List.cons_append, endMarks]
    omega

/-- The rest of a comment ends at the first mark.  So it is the whole text just if the
    mark at the end of the text is the only one. -/
theorem blockCommentRest_append {text : List Char} (h : "*/".toList <:+ text)
    (after : List Char) :
    ∃ n, Lexeme.blockCommentRest (text ++ after) = some n ∧
      (n = text.length ↔ endMarks text = 1) := by
  induction text with
  | nil => exact absurd (List.suffix_nil.mp h) (by decide)
  | cons c rest ih =>
    by_cases hmark : c = '*' ∧ rest.head? = some '/'
    · obtain ⟨rfl, hslash⟩ := hmark
      obtain ⟨rest, rfl⟩ := List.head?_eq_some_iff.mp hslash
      have hmarks : endMarks ('*' :: '/' :: rest) = 1 + endMarks rest := by
        rw [endMarks, if_pos ⟨rfl, rfl⟩, endMarks_cons_of_not (by simp)]
      refine ⟨2, rfl, ?_⟩
      rw [hmarks, List.length_cons, List.length_cons]
      -- If the text goes on, it has another mark at its end.
      rcases List.suffix_cons_iff.mp h with heq | hsuffix
      · obtain rfl : rest = [] := (List.cons.inj (List.cons.inj heq).2).2.symm
        exact ⟨fun _ => rfl, fun _ => rfl⟩
      rcases List.suffix_cons_iff.mp hsuffix with heq | hsuffix
      · exact absurd (List.cons.inj heq).1 (by decide)
      · have hpos := endMarks_pos hsuffix
        have hlength := hsuffix.length_le
        have htwo : "*/".toList.length = 2 := rfl
        omega
    · have hsuffix : "*/".toList <:+ rest := by
        rcases List.suffix_cons_iff.mp h with heq | hsuffix
        · obtain ⟨rfl, rfl⟩ := List.cons.inj heq
          exact absurd ⟨rfl, rfl⟩ hmark
        · exact hsuffix
      obtain ⟨n, hn, hiff⟩ := ih hsuffix
      have hstep : Lexeme.blockCommentRest (c :: (rest ++ after)) = some (n + 1) := by
        rw [Lexeme.blockCommentRest, hn]
        · rfl
        · rintro rest' rfl hrest
          -- The mark would lie within the text, which is not empty here.
          cases rest with
          | nil => exact absurd (List.suffix_nil.mp hsuffix) (by decide)
          | cons d rest =>
            obtain ⟨rfl, -⟩ := List.cons.inj hrest
            exact hmark ⟨rfl, rfl⟩
      refine ⟨n + 1, hstep, ?_⟩
      rw [endMarks_cons_of_not hmark, List.length_cons, ← hiff]
      omega

/-- A text that opens and closes like a comment is read as one comment, whatever follows,
    just if it has no other mark. -/
theorem comment_append_iff {block : List Char} (hopens : "/**".toList <+: block)
    (hcloses : "*/".toList <:+ block) :
    endMarks block = 1 ↔ ∀ after, Lexeme.comment (block ++ after) = some block.length := by
  obtain ⟨tail, rfl⟩ := hopens
  have hblock : "/**".toList ++ tail = '/' :: '*' :: '*' :: tail := rfl
  rw [hblock] at hcloses ⊢
  -- The last star of the opening mark may begin an end mark, so it stays.
  have hmarks : endMarks ('/' :: '*' :: '*' :: tail) = endMarks ('*' :: tail) := by
    rw [endMarks_cons_of_not (by simp), endMarks_cons_of_not (by simp)]
  have htext : "*/".toList <:+ '*' :: tail := by
    rcases List.suffix_cons_iff.mp hcloses with heq | hsuffix
    · exact absurd (List.cons.inj heq).1 (by decide)
    rcases List.suffix_cons_iff.mp hsuffix with heq | hsuffix
    · exact absurd (List.cons.inj (List.cons.inj heq).2).1 (by decide)
    · exact hsuffix
  have hread : ∀ after, Lexeme.comment ('/' :: '*' :: '*' :: tail ++ after) =
      (Lexeme.blockCommentRest ('*' :: tail ++ after)).map (· + 2) := fun _ => rfl
  rw [hmarks]
  constructor
  · intro hone after
    obtain ⟨n, hn, hiff⟩ := blockCommentRest_append htext after
    rw [hread, hn, hiff.mpr hone]
    rfl
  · intro hall
    obtain ⟨n, hn, hiff⟩ := blockCommentRest_append htext []
    have hwhole := hall []
    rw [hread, hn, Option.map_some, Option.some.injEq, List.length_cons, List.length_cons] at hwhole
    exact hiff.mp (by omega)

/-! ### The marks of a rendered comment -/

/-- The lines that say a plain description have the marks of the description. -/
theorem sum_endMarks_bodyLines (contents : List String) :
    ((contents.flatMap fun l => words (bodyLine l).toList).map endMarks).sum =
      ((contents.flatMap fun l => words l.toList).map endMarks).sum := by
  induction contents with
  | nil => rfl
  | cons l ls ih =>
    have hstar : endMarks ['*'] = 0 := by decide
    rw [List.flatMap_cons, List.flatMap_cons, words_bodyLine]
    simp only [List.map_append, List.map_cons, List.sum_append, List.sum_cons, ih, hstar,
      Nat.zero_add]

theorem endMarks_render (description : String) (n : Nat) :
    endMarks (render description (indentation n)).toList =
      endMarks description.toList + (if isBlock description then 0 else 1) := by
  rw [← sum_endMarks, words_render, commentLines, ← sum_endMarks description.toList]
  split
  · rw [words_blockLines, Nat.add_zero]
  · have hopening : words "/**".toList = ["/**".toList] := by decide
    have hclosing : words " */".toList = ["*/".toList] := by decide
    have hnone : endMarks "/**".toList = 0 := by decide
    have hone : endMarks "*/".toList = 1 := by decide
    have hbody := sum_endMarks_bodyLines (contentLines description)
    rw [words_contentLines] at hbody
    rw [plainLines_eq, List.flatMap_cons, List.flatMap_append, List.flatMap_singleton,
      List.flatMap_map, hopening, hclosing]
    simp only [List.map_append, List.map_cons, List.map_nil, List.sum_append, List.sum_cons,
      List.sum_nil, hbody, hnone, hone]
    omega

/-- After the indentation, a rendered description opens and closes like a comment.  It
    has the marks of the description and, if the description is plain, one more at its
    end, and it is one comment, whatever follows it, just if it has no other. -/
theorem render_endMarks (description : String) (n : Nat) :
    ∃ block, (render description (indentation n)).toList = (indentation n).toList ++ block ∧
      "/**".toList <+: block ∧ "*/".toList <:+ block ∧
      endMarks block = endMarks description.toList + (if isBlock description then 0 else 1) ∧
      (endMarks block = 1 ↔ ∀ after, Lexeme.comment (block ++ after) = some block.length) := by
  obtain ⟨first, rest, hlines, hsettled⟩ := exists_settled description
  have hopens := hsettled.prefix_commentText (indentation n)
  have hcloses := hsettled.suffix_commentText (indentation n)
  have hrender : (render description (indentation n)).toList =
      (indentation n).toList ++ (commentText first rest (indentation n)).toList := by
    rw [render_eq, hlines, toList_joinLines_indented]
  refine ⟨_, hrender, hopens, hcloses, ?_, comment_append_iff hopens hcloses⟩
  rw [← endMarks_render description n, hrender, ← sum_endMarks, ← sum_endMarks (_ ++ _),
    words_blank_append (isBlank_indentation n)]

example : endMarks (render "Globs such as src/**/*.ts" "").toList = 2 := by decide

end ComponentDecl.DocComment
