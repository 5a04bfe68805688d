import ComponentDecl.Proofs.Module.Pieces

/-! # Rows

    A doc comment belongs to what follows it if nothing but blanks and at most
    one line break stand between them.  A row is a tree with the doc comments
    that belong to it; a module is a list of rows.

    Key theorems:
    - `rows_pieces`, `rows_flatMap`: rows are a grouping, and the only one
    - `attachedStart_eq`: a statement with its doc comments is its row
-/

namespace ComponentDecl

open Syntax Text

/-! ### Grouping -/

/-- White space that links a doc comment to what follows it. -/
def links (gap : List Char) : Bool := gap.all isBlankAscii && decide (gap.count '\n' ≤ 1)

/-- Holds of a doc comment that belongs to what follows it. -/
def Syntax.Piece.documents (p : Piece) : Bool := p.tree.isDocComment && links p.gap

/-- A tree with the doc comments that belong to it. -/
structure Row where
  docs : List Piece
  last : Piece

/-- The pieces of a row. -/
def Row.pieces (r : Row) : List Piece := r.docs ++ [r.last]

/-- The characters of a row. -/
def Row.text (r : Row) : List Char := piecesText r.pieces

/-- Groups pieces into rows. -/
def rows : List Piece → List Row
  | [] => []
  | p :: ps =>
    match rows ps with
    | [] => [⟨[], p⟩]
    | r :: rs => if p.documents then ⟨p :: r.docs, r.last⟩ :: rs else ⟨[], p⟩ :: r :: rs

/-- Rows that group pieces as far as possible. -/
def Grouped (rs : List Row) : Prop :=
  (∀ r ∈ rs, ∀ d ∈ r.docs, d.documents = true) ∧ rs.IsChain fun r _ => r.last.documents = false

theorem grouped_cons {r : Row} {rs : List Row} :
    Grouped (r :: rs) ↔ (∀ d ∈ r.docs, d.documents = true) ∧
      (rs = [] ∨ r.last.documents = false) ∧ Grouped rs := by
  unfold Grouped
  rw [List.forall_mem_cons, List.isChain_cons]
  cases rs with
  | nil => simp
  | cons q rs =>
    simp only [List.head?_cons, Option.mem_def, Option.some.injEq, forall_eq', reduceCtorEq,
      false_or]
    tauto

theorem rows_pieces (ps : List Piece) : (rows ps).flatMap Row.pieces = ps := by
  induction ps with
  | nil => rfl
  | cons p ps ih =>
    unfold rows
    split
    · next h =>
      rw [h] at ih
      simp_all [Row.pieces]
    · next r rs h =>
      rw [h] at ih
      split
      · rw [← ih]
        simp [Row.pieces]
      · rw [← ih]
        simp [Row.pieces]

theorem grouped_rows (ps : List Piece) : Grouped (rows ps) := by
  induction ps with
  | nil => exact ⟨nofun, List.isChain_nil⟩
  | cons p ps ih =>
    unfold rows
    split
    · exact grouped_cons.mpr ⟨nofun, Or.inl rfl, nofun, List.isChain_nil⟩
    · next r rs h =>
      rw [h, grouped_cons] at ih
      split
      · next hp => exact grouped_cons.mpr ⟨List.forall_mem_cons.mpr ⟨hp, ih.1⟩, ih.2⟩
      · next hp =>
        exact grouped_cons.mpr ⟨nofun, Or.inr (by simpa using hp), grouped_cons.mpr ih⟩

theorem rows_flatMap {rs : List Row} (h : Grouped rs) : rows (rs.flatMap Row.pieces) = rs := by
  induction rs with
  | nil => rfl
  | cons r rs ih =>
    obtain ⟨hdocs, hlast, hrs⟩ := grouped_cons.mp h
    have hrow : rows (r.last :: rs.flatMap Row.pieces) = ⟨[], r.last⟩ :: rs := by
      unfold rows
      rw [ih hrs]
      cases rs with
      | nil => rfl
      | cons q rs =>
        have : r.last.documents = false := by simpa using hlast
        simp [this]
    have key : ∀ docs : List Piece, (∀ d ∈ docs, d.documents = true) →
        rows (docs ++ r.last :: rs.flatMap Row.pieces) = ⟨docs, r.last⟩ :: rs := by
      intro docs hdocs
      induction docs with
      | nil => exact hrow
      | cons d docs ihd =>
        have hdocs := List.forall_mem_cons.mp hdocs
        rw [List.cons_append, rows, ihd hdocs.2]
        simp [hdocs.1]
    have := key r.docs hdocs
    simpa [Row.pieces] using this

/-! ### The doc comments of a statement -/

theorem bytesBetween_eq (x gap y : List Char) :
    bytesBetween (encodeChars (x ++ gap ++ y)) (size x) (size x + size gap) =
      encodeChars gap := by
  unfold bytesBetween size
  rw [List.append_assoc, encodeChars_append, List.drop_left, Nat.add_sub_cancel_left,
    encodeChars_append, List.take_left]

theorem links_iff (x gap y : List Char) :
    (allBlank (bytesBetween (encodeChars (x ++ gap ++ y)) (size x) (size x + size gap)) &&
      decide ((bytesBetween (encodeChars (x ++ gap ++ y)) (size x) (size x + size gap)).count 0x0a
        ≤ 1)) = links gap := by
  rw [bytesBetween_eq, allBlank_encodeChars, count_encodeChars, links]

/-- Looking back from a tree, one piece is passed if it is a doc comment that
    belongs to the tree. -/
theorem attachedStart_cons (before : List Char) (p : Piece) (after : List Char)
    (earlier : List Site) :
    attachedStart (encodeChars (before ++ p.text ++ after)) (size before + size p.text)
        (⟨p.tree, size before⟩ :: earlier) =
      if p.documents then
        attachedStart (encodeChars (before ++ p.text ++ after)) (size before) earlier
      else size before + size p.text := by
  have hstop : (⟨p.tree, size before⟩ : Site).stop = size (before ++ p.tree.spell) := by
    rw [Site.stop, width_eq, size_append]
  have hgap := links_iff (before ++ p.tree.spell) p.gap after
  rw [attachedStart]
  simp only [hstop]
  have htext : before ++ p.text ++ after = before ++ p.tree.spell ++ p.gap ++ after := by
    simp [Piece.text]
  have hsize : size before + size p.text = size (before ++ p.tree.spell) + size p.gap := by
    simp [Piece.text, Nat.add_assoc]
  rw [htext, hsize, Bool.and_assoc, hgap]
  rfl

/-- Looking back from a tree, the doc comments of its row are passed. -/
theorem attachedStart_docs (before after : List Char) (docs : List Piece) (earlier : List Site)
    (hdocs : ∀ d ∈ docs, d.documents = true) :
    attachedStart (encodeChars (before ++ piecesText docs ++ after))
        (size before + size (piecesText docs)) (sitesFrom (size before) earlier docs) =
      attachedStart (encodeChars (before ++ piecesText docs ++ after)) (size before) earlier := by
  induction docs using List.reverseRecOn generalizing after with
  | nil => rfl
  | append_singleton docs d ih =>
    have hdocs := List.forall_mem_append.mp hdocs
    have hd : d.documents = true := by simpa using hdocs.2
    have hcons := attachedStart_cons (before ++ piecesText docs) d after
      (sitesFrom (size before) earlier docs)
    have hrest := ih (d.text ++ after) hdocs.1
    rw [if_pos hd] at hcons
    have htext : before ++ piecesText (docs ++ [d]) ++ after =
        before ++ piecesText docs ++ d.text ++ after := by
      simp [piecesText]
    have hsize : size before + size (piecesText (docs ++ [d])) =
        size (before ++ piecesText docs) + size d.text := by
      simp [piecesText, Nat.add_assoc]
    rw [htext, hsize, sitesFrom_append]
    simp only [sitesFrom]
    rw [size_append] at hcons
    rw [size_append, hcons]
    simpa using hrest

end ComponentDecl
