import ComponentDecl.DocComment
import ComponentDecl.Proofs.Text.Words

/-! # Lines of a doc comment

    Whatever the description is, the lines rendered from it are settled: the first opens
    the comment, the last closes it, none can be broken further, and each of them is the
    line that rendering makes of itself.  So a doc comment that is rendered again, at
    whatever indentation, keeps its lines.

    Key theorems:
    - `exists_settled`: the lines rendered from a description are settled
    - `commentLines_render`: a rendered comment has the lines it was rendered from
    - `words_blockLines`, `words_contentLines`: a comment keeps the words of its description
-/

namespace ComponentDecl.DocComment

open Text

/-- An indentation by a number of spaces. -/
def indentation (n : Nat) : String :=
  String.ofList (List.replicate n ' ')

/-- A line that starts with an asterisk, moved one column in. -/
def starred (line : String) : String :=
  if line.toList.head? == some '*' then " " ++ line else line

/-- The lines of the comment rendered from a description, without the indentation. -/
def commentLines (description : String) : List String :=
  if isBlock description then blockLines description else plainLines description

theorem render_eq (description indent : String) :
    render description indent = joinLines ((commentLines description).map (indent ++ ·)) :=
  rfl

/-- Holds of the first and the other lines of a comment that rendering does not change
    any more. -/
structure Settled (first : String) (rest : List String) : Prop where
  opens : "/**".toList <+: first.toList
  closes : ∀ l ∈ (first :: rest).getLast?, "*/".toList <:+ l.toList
  unbroken : ∀ l ∈ first :: rest, Unbroken l.toList
  stripped : strip first = first
  marked : ∀ l ∈ rest, starred (strip l) = l

/-! ### Stripped lines -/

theorem toList_strip (s : String) : (strip s).toList = trimWhile isBlank s.toList :=
  String.toList_ofList

theorem strip_strip (s : String) : strip (strip s) = strip s := by
  obtain ⟨-, -, -, -, -, hfirst, hlast⟩ := trimWhile_spec (p := isBlank) s.toList
  unfold strip
  rw [String.toList_ofList, trimWhile_of_ends hfirst hlast]

theorem isBlank_space : ∀ c ∈ " ".toList, isBlank c = true :=
  List.all_eq_true.mp (by decide)

/-- Blanks in front of a line do not matter. -/
theorem strip_blank_append {front : String} (h : ∀ c ∈ front.toList, isBlank c = true)
    (line : String) : strip (front ++ line) = strip line := by
  unfold strip
  rw [String.toList_append, trimWhile_blank_append h]

/-- The indentation is blank. -/
theorem isBlank_indentation (n : Nat) : ∀ c ∈ (indentation n).toList, isBlank c = true := by
  intro c hc
  rw [indentation, String.toList_ofList] at hc
  rw [List.eq_of_mem_replicate hc]
  decide

theorem unbroken_strip {line : String} (h : Unbroken line.toList) :
    Unbroken (strip line).toList := by
  obtain ⟨front, back, hsplit, -⟩ := trimWhile_spec (p := isBlank) line.toList
  intro c hc
  rw [toList_strip] at hc
  apply h
  rw [hsplit]
  exact List.mem_append_left _ (List.mem_append_right _ hc)

theorem unbroken_lines (s : String) : ∀ l ∈ lines s, Unbroken l.toList := by
  intro l hl
  obtain ⟨cs, hcs, rfl⟩ := List.mem_map.mp hl
  rw [String.toList_ofList]
  exact unbroken_linesFrom s.toList unbroken_nil cs hcs

theorem unbroken_append {front line : String} (hfront : Unbroken front.toList)
    (hline : Unbroken line.toList) : Unbroken (front ++ line).toList := by
  rw [String.toList_append]
  exact List.forall_mem_append.mpr ⟨hfront, hline⟩

theorem unbroken_indentation (n : Nat) : Unbroken (indentation n).toList := by
  intro c hc
  rw [indentation, String.toList_ofList] at hc
  rw [List.eq_of_mem_replicate hc]
  decide

/-! ### Starred lines -/

theorem starred_of_star {line : String} (h : line.toList.head? = some '*') :
    starred line = " " ++ line := by
  rw [starred, if_pos]
  rw [h]
  decide

theorem starred_of_ne {line : String} (h : line.toList.head? ≠ some '*') :
    starred line = line := by
  rw [starred, if_neg]
  simpa using h

/-- A starred line is starred again only once the blank in front of it is gone. -/
theorem starred_strip_starred {line : String} (h : strip line = line) :
    starred (strip (starred line)) = starred line := by
  by_cases hstar : line.toList.head? = some '*'
  · rw [starred_of_star hstar, strip_blank_append isBlank_space, h, starred_of_star hstar]
  · rw [starred_of_ne hstar, h, starred_of_ne hstar]

theorem suffix_starred {line : String} {tail : List Char} (h : tail <:+ line.toList) :
    tail <:+ (starred line).toList := by
  by_cases hstar : line.toList.head? = some '*'
  · rw [starred_of_star hstar, String.toList_append]
    exact h.trans (List.suffix_append _ _)
  · rwa [starred_of_ne hstar]

theorem unbroken_starred {line : String} (h : Unbroken line.toList) :
    Unbroken (starred line).toList := by
  by_cases hstar : line.toList.head? = some '*'
  · rw [starred_of_star hstar]
    exact unbroken_append (unbroken_of_all (by decide)) h
  · rwa [starred_of_ne hstar]

/-! ### Blocks -/

theorem opening_eq : "/**".toList = '/' :: ['*'] ++ ['*'] :=
  rfl

theorem closing_eq : "*/".toList = '*' :: [] ++ ['/'] :=
  rfl

theorem isBlock_iff {description : String} :
    isBlock description = true ↔ "/**".toList <+: (strip description).toList ∧
      "*/".toList <:+ (strip description).toList := by
  rw [isBlock, Bool.and_eq_true, List.isPrefixOf_iff_prefix, List.isSuffixOf_iff_suffix]

/-- The first line of a block starts as the block does, for no line ends within the
    opening of a comment. -/
theorem exists_firstLine {description : String}
    (h : "/**".toList <+: (strip description).toList) :
    ∃ first rest, lines (strip description) = first :: rest ∧ "/**".toList <+: first.toList := by
  obtain ⟨tail, htail⟩ := h
  have hhead := headD_linesFrom [] (strip description).toList
  rw [← htail] at hhead
  have hopen : (linesFrom [] ("/**".toList ++ tail)).headD [] =
      "/**".toList ++ tail.takeWhile (!isLineBreak ·) := hhead
  rw [lines, ← htail]
  cases hlines : linesFrom [] ("/**".toList ++ tail) with
  | nil =>
    rw [hlines] at hopen
    cases hopen
  | cons first rest =>
    rw [hlines, List.headD_cons] at hopen
    refine ⟨String.ofList first, rest.map String.ofList, rfl, ?_⟩
    rw [hopen, String.toList_ofList (l := "/**".toList ++ _)]
    exact List.prefix_append _ _

/-- The last line of a block ends as the block does. -/
theorem suffix_lastLine {description : String} (h : "*/".toList <:+ (strip description).toList) :
    ∀ l ∈ (lines (strip description)).getLast?, "*/".toList <:+ l.toList := by
  obtain ⟨before, hbefore⟩ := h
  have hunbroken : Unbroken "*/".toList := unbroken_of_all (by decide)
  obtain ⟨front, hfront⟩ := getLast?_linesFrom hunbroken (by decide) [] before
  intro l hl
  rw [lines, ← hbefore, List.getLast?_map, hfront] at hl
  obtain rfl := Option.some.inj hl
  rw [String.toList_ofList (l := front ++ _)]
  exact List.suffix_append _ _

theorem blockLines_eq {description first : String} {rest : List String}
    (h : lines (strip description) = first :: rest) :
    blockLines description = strip first :: (rest.map strip).map starred := by
  rw [blockLines, h, List.map_cons]
  rfl

theorem settled_blockLines {description : String} (h : isBlock description = true) :
    ∃ first rest, blockLines description = first :: rest ∧ Settled first rest := by
  obtain ⟨hopens, hcloses⟩ := isBlock_iff.mp h
  obtain ⟨first, rest, hlines, hfirst⟩ := exists_firstLine hopens
  have hunbroken := unbroken_lines (strip description)
  have hlast := suffix_lastLine hcloses
  have hstripped : ∀ {l : String}, "*/".toList <:+ l.toList → "*/".toList <:+ (strip l).toList := by
    intro l hl
    rw [closing_eq] at hl ⊢
    rw [toList_strip]
    exact suffix_trimWhile hl (by decide) (by decide)
  rw [hlines] at hunbroken hlast
  refine ⟨strip first, _, blockLines_eq hlines, ?_, ?_, ?_,
    strip_strip first, ?_⟩
  · rw [opening_eq] at hfirst ⊢
    rw [toList_strip]
    exact prefix_trimWhile hfirst (by decide) (by decide)
  · intro l hl
    -- The last line is the first one if there is no other.
    cases rest with
    | nil =>
      rw [List.map_nil, List.map_nil, List.getLast?_singleton] at hl
      rw [← Option.some.inj hl]
      exact hstripped (hlast first rfl)
    | cons k rest =>
      rw [List.map_cons, List.map_cons, List.getLast?_cons_cons, ← List.map_cons, ← List.map_cons,
        List.getLast?_map, List.getLast?_map] at hl
      rw [List.getLast?_cons_cons] at hlast
      obtain ⟨l, hl', rfl⟩ := Option.map_eq_some_iff.mp hl
      obtain ⟨raw, hraw, rfl⟩ := Option.map_eq_some_iff.mp hl'
      exact suffix_starred (hstripped (hlast raw hraw))
  · intro l hl
    rcases List.mem_cons.mp hl with rfl | hl
    · exact unbroken_strip (hunbroken first List.mem_cons_self)
    · obtain ⟨l, hl', rfl⟩ := List.mem_map.mp hl
      obtain ⟨raw, hraw, rfl⟩ := List.mem_map.mp hl'
      exact unbroken_starred (unbroken_strip (hunbroken raw (List.mem_cons_of_mem _ hraw)))
  · intro l hl
    obtain ⟨l, hl', rfl⟩ := List.mem_map.mp hl
    obtain ⟨raw, -, rfl⟩ := List.mem_map.mp hl'
    exact starred_strip_starred (strip_strip raw)

/-! ### Plain descriptions -/

/-- What a plain description says, line by line. -/
def contentLines (description : String) : List String :=
  (match lines (stripLineFeeds description) with
    | [] => [""]
    | ls => ls).map stripEnd

/-- The line of a comment that says a line of a plain description. -/
def bodyLine (content : String) : String :=
  if content.isEmpty then " *" else " * " ++ content

theorem plainLines_eq (description : String) :
    plainLines description =
      "/**" :: ((contentLines description).map bodyLine ++ [" */"]) := by
  rw [plainLines, contentLines, List.map_map]
  cases lines (stripLineFeeds description) with
  | nil => simp only [Function.comp_def, bodyLine, List.cons_append]
  | cons l ls => simp only [Function.comp_def, bodyLine, List.cons_append]

theorem contentLines_spec (description : String) :
    ∀ l ∈ contentLines description,
      Unbroken l.toList ∧ ∀ c ∈ l.toList.getLast?, isBlank c = false := by
  intro l hl
  obtain ⟨raw, hraw, rfl⟩ := List.mem_map.mp hl
  have hunbroken : Unbroken raw.toList := by
    revert hraw
    split
    · intro hraw
      rw [List.mem_singleton.mp hraw]
      nofun
    · exact fun hraw => unbroken_lines _ raw hraw
  rw [stripEnd, String.toList_ofList]
  obtain ⟨back, hback, -⟩ := dropEndWhile_append isBlank raw.toList
  refine ⟨?_, getLast?_dropEndWhile _⟩
  intro c hc
  apply hunbroken
  rw [hback]
  exact List.mem_append_left _ hc

theorem bodyLine_of_ne {content : String} (h : content ≠ "") :
    bodyLine content = " * " ++ content := by
  rw [bodyLine, if_neg]
  rwa [String.isEmpty_iff]

theorem unbroken_bodyLine {content : String} (h : Unbroken content.toList) :
    Unbroken (bodyLine content).toList := by
  by_cases hempty : content = ""
  · subst hempty
    exact unbroken_of_all (by decide)
  · rw [bodyLine_of_ne hempty]
    exact unbroken_append (unbroken_of_all (by decide)) h

/-- The asterisk of a line is put back where it stood. -/
theorem starred_strip_bodyLine {content : String}
    (h : ∀ c ∈ content.toList.getLast?, isBlank c = false) :
    starred (strip (bodyLine content)) = bodyLine content := by
  by_cases hempty : content = ""
  · subst hempty
    decide
  · have hsplit : " * " ++ content = " " ++ ("* " ++ content) := by
      rw [← String.append_assoc]
      rfl
    -- The star stands first and the content ends visibly, so there is nothing to strip.
    have hshown : strip ("* " ++ content) = "* " ++ content := by
      have hlist : ("* " ++ content).toList = '*' :: ' ' :: content.toList := by
        rw [String.toList_append]
        rfl
      obtain ⟨front, last, hconcat⟩ := List.eq_nil_or_concat content.toList |>.resolve_left
        (fun hnil => hempty (String.toList_eq_nil_iff.mp hnil))
      rw [strip, trimWhile_of_ends, String.ofList_toList]
      · intro c hc
        rw [hlist] at hc
        obtain rfl := Option.some.inj hc
        decide
      · rw [hlist, hconcat, List.concat_eq_append, ← List.cons_append, ← List.cons_append,
          List.getLast?_concat]
        rw [hconcat, List.concat_eq_append, List.getLast?_concat] at h
        exact h
    rw [bodyLine_of_ne hempty, hsplit, strip_blank_append isBlank_space, hshown,
      starred_of_star]
    rw [String.toList_append]
    rfl

theorem settled_plainLines (description : String) :
    ∃ first rest, plainLines description = first :: rest ∧ Settled first rest := by
  have hcontent := contentLines_spec description
  refine ⟨_, _, plainLines_eq description, List.prefix_rfl, ?_, ?_, by decide, ?_⟩
  · intro l hl
    rw [← List.cons_append, List.getLast?_concat] at hl
    obtain rfl := Option.some.inj hl
    decide
  · intro l hl
    rcases List.mem_cons.mp hl with rfl | hl
    · exact unbroken_of_all (by decide)
    rcases List.mem_append.mp hl with hl | hl
    · obtain ⟨content, hmem, rfl⟩ := List.mem_map.mp hl
      exact unbroken_bodyLine (hcontent content hmem).1
    · rw [List.mem_singleton.mp hl]
      exact unbroken_of_all (by decide)
  · intro l hl
    rcases List.mem_append.mp hl with hl | hl
    · obtain ⟨content, hmem, rfl⟩ := List.mem_map.mp hl
      exact starred_strip_bodyLine (hcontent content hmem).2
    · rw [List.mem_singleton.mp hl]
      decide

/-- The lines rendered from a description are settled. -/
theorem exists_settled (description : String) :
    ∃ first rest, commentLines description = first :: rest ∧ Settled first rest := by
  unfold commentLines
  split
  · next h => exact settled_blockLines h
  · exact settled_plainLines description

/-! ### Rendered again -/

/-- The text of a comment after the indentation of its first line. -/
def commentText (first : String) (rest : List String) (indent : String) : String :=
  joinLines (first :: rest.map (indent ++ ·))

theorem toList_joinLines_indented (first : String) (rest : List String) (indent : String) :
    (joinLines ((first :: rest).map (indent ++ ·))).toList =
      indent.toList ++ (commentText first rest indent).toList := by
  unfold commentText
  cases rest with
  | nil => rw [List.map_singleton, List.map_nil, joinLines_singleton, joinLines_singleton,
      String.toList_append]
  | cons k rest => rw [List.map_cons, List.map_cons, joinLines_cons, joinLines_cons,
      String.toList_append, List.append_assoc]

namespace Settled

variable {first : String} {rest : List String}

theorem prefix_commentText (h : Settled first rest) (indent : String) :
    "/**".toList <+: (commentText first rest indent).toList :=
  h.opens.trans (prefix_joinLines _ _)

theorem suffix_commentText (h : Settled first rest) (indent : String) :
    "*/".toList <:+ (commentText first rest indent).toList := by
  cases hlast : (first :: rest.map (indent ++ ·)).getLast? with
  | none => exact absurd (List.getLast?_eq_none_iff.mp hlast) (List.cons_ne_nil _ _)
  | some last =>
    refine List.IsSuffix.trans ?_ (suffix_joinLines hlast)
    have hcloses := h.closes
    cases rest with
    | nil =>
      obtain rfl := Option.some.inj hlast
      exact hcloses first rfl
    | cons k rest =>
      rw [List.map_cons, List.getLast?_cons_cons, ← List.map_cons, List.getLast?_map] at hlast
      obtain ⟨l, hl, rfl⟩ := Option.map_eq_some_iff.mp hlast
      rw [String.toList_append]
      exact (hcloses l (by rwa [List.getLast?_cons_cons])).trans (List.suffix_append _ _)

/-- Only the indentation of the first line is cut off. -/
theorem strip_indented (h : Settled first rest) (n : Nat) :
    strip (joinLines ((first :: rest).map (indentation n ++ ·))) =
      commentText first rest (indentation n) := by
  obtain ⟨tail, htail⟩ := h.prefix_commentText (indentation n)
  obtain ⟨front, hfront⟩ := h.suffix_commentText (indentation n)
  rw [strip, toList_joinLines_indented, trimWhile_blank_append (isBlank_indentation n),
    trimWhile_of_ends, String.ofList_toList]
  · intro c hc
    rw [← htail] at hc
    obtain rfl : '/' = c := Option.some.inj hc
    decide
  · intro c hc
    rw [← hfront, closing_eq, ← List.append_assoc, List.getLast?_concat] at hc
    obtain rfl : '/' = c := Option.some.inj hc
    decide

theorem isBlock_indented (h : Settled first rest) (n : Nat) :
    isBlock (joinLines ((first :: rest).map (indentation n ++ ·))) = true := by
  rw [isBlock_iff, h.strip_indented]
  exact ⟨h.prefix_commentText _, h.suffix_commentText _⟩

theorem ne_empty_of_last (h : Settled first rest) :
    ∀ l ∈ (first :: rest).getLast?, l ≠ "" := by
  rintro l hl rfl
  exact absurd (h.closes _ hl) (by decide)

/-- The lines of the text are those it was joined from. -/
theorem lines_commentText (h : Settled first rest) (n : Nat) :
    lines (commentText first rest (indentation n)) = first :: rest.map (indentation n ++ ·) := by
  have hlast := h.ne_empty_of_last
  apply lines_joinLines
  · intro l hl
    rcases List.mem_cons.mp hl with rfl | hl
    · exact h.unbroken _ List.mem_cons_self
    · obtain ⟨k, hk, rfl⟩ := List.mem_map.mp hl
      exact unbroken_append (unbroken_indentation n) (h.unbroken k (List.mem_cons_of_mem _ hk))
  · intro l hl
    cases rest with
    | nil => exact hlast l hl
    | cons k rest =>
      rw [List.map_cons, List.getLast?_cons_cons, ← List.map_cons, List.getLast?_map] at hl
      rw [List.getLast?_cons_cons] at hlast
      obtain ⟨k', hk', rfl⟩ := Option.map_eq_some_iff.mp hl
      exact fun hempty => hlast k' hk' (String.append_eq_empty_iff.mp hempty).2

/-- Settled lines are read back from the comment they are joined to, without the
    indentation. -/
theorem blockLines_indented (h : Settled first rest) (n : Nat) :
    blockLines (joinLines ((first :: rest).map (indentation n ++ ·))) = first :: rest := by
  have hlines := h.lines_commentText n
  rw [← h.strip_indented] at hlines
  have hrest : ((rest.map (indentation n ++ ·)).map strip).map starred = rest.map id := by
    rw [List.map_map, List.map_map]
    apply List.map_congr_left
    intro l hl
    rw [Function.comp_apply, Function.comp_apply, strip_blank_append (isBlank_indentation n),
      h.marked l hl, id_eq]
  rw [blockLines_eq hlines, h.stripped, hrest, List.map_id]

end Settled

theorem isBlock_render (description : String) (n : Nat) :
    isBlock (render description (indentation n)) = true := by
  obtain ⟨first, rest, hlines, hsettled⟩ := exists_settled description
  rw [render_eq, hlines]
  exact hsettled.isBlock_indented n

/-- A rendered comment has the lines it was rendered from. -/
theorem commentLines_render (description : String) (n : Nat) :
    commentLines (render description (indentation n)) = commentLines description := by
  obtain ⟨first, rest, hlines, hsettled⟩ := exists_settled description
  rw [commentLines, if_pos (isBlock_render description n), render_eq, hlines,
    hsettled.blockLines_indented]

/-! ### Words -/

theorem words_starred (line : String) : words (starred line).toList = words line.toList := by
  by_cases hstar : line.toList.head? = some '*'
  · rw [starred_of_star hstar, String.toList_append, words_blank_append isBlank_space]
  · rw [starred_of_ne hstar]

theorem words_blockLines (description : String) :
    ((blockLines description).flatMap fun l => words l.toList) = words description.toList := by
  rw [← words_strip, ← words_lines]
  cases hlines : lines (strip description) with
  | nil =>
    rw [blockLines, hlines]
    rfl
  | cons first rest =>
    rw [blockLines_eq hlines]
    simp only [List.flatMap_cons, List.flatMap_map, words_starred, words_strip]

theorem words_contentLines (description : String) :
    ((contentLines description).flatMap fun l => words l.toList) = words description.toList := by
  rw [← words_stripLineFeeds, ← words_lines, contentLines, List.flatMap_map]
  simp only [words_stripEnd]
  cases lines (stripLineFeeds description) with
  | nil => rfl
  | cons l ls => rfl

theorem words_bodyLine (content : String) :
    words (bodyLine content).toList = ['*'] :: words content.toList := by
  by_cases hempty : content = ""
  · subst hempty
    decide
  · rw [bodyLine_of_ne hempty, String.toList_append]
    -- The blank after the asterisk ends the word before what is said.
    exact words_append_cons (c := ' ') (by decide) [' ', '*'] content.toList

/-- The indentation adds no word. -/
theorem words_render (description : String) (n : Nat) :
    words (render description (indentation n)).toList =
      (commentLines description).flatMap fun l => words l.toList := by
  have hindented : ∀ l : String, words (indentation n ++ l).toList = words l.toList := by
    intro l
    rw [String.toList_append, words_blank_append (isBlank_indentation n)]
  rw [render_eq, words_joinLines, List.flatMap_map]
  simp only [hindented]

end ComponentDecl.DocComment
