import ComponentDecl.Proofs.Module.Replacement
import ComponentDecl.Proofs.Module.Statements
import Mathlib.Data.List.Nodup

/-! # The spans of statements

    What goes away with a statement is the statement with the doc comments attached to it,
    and white space.  No two statements take the same bytes, so any of them can be removed in
    one batch.

    Key theorem:
    - `Module.statementSpan_spec`: what the spans cover, and what removing statements leaves
-/

namespace ComponentDecl

open Syntax Text

/-! ### Bytes outside of spans -/

/-- Whether an offset is in one of some spans. -/
def covers (spans : List (Nat × Nat)) (i : Nat) : Bool :=
  spans.any fun span => decide (span.1 ≤ i) && decide (i < span.2)

theorem covers_iff {spans : List (Nat × Nat)} {i : Nat} :
    covers spans i = true ↔ ∃ span ∈ spans, span.1 ≤ i ∧ i < span.2 := by
  simp [covers]

/-- Of bytes that start at an offset, those that are in none of some spans. -/
def bytesOutside (spans : List (Nat × Nat)) (offset : Nat) (bytes : List UInt8) : List UInt8 :=
  ((bytes.zipIdx offset).filter fun b => !covers spans b.2).map (·.1)

/-- Only which spans there are matters. -/
theorem bytesOutside_congr {spans spans' : List (Nat × Nat)} (h : ∀ s, s ∈ spans ↔ s ∈ spans')
    (offset : Nat) (bytes : List UInt8) :
    bytesOutside spans offset bytes = bytesOutside spans' offset bytes := by
  have hcovers : covers spans = covers spans' := by
    funext i
    rw [Bool.eq_iff_iff, covers_iff, covers_iff]
    simp only [h]
  rw [bytesOutside, bytesOutside, hcovers]

theorem bytesOutside_append (spans : List (Nat × Nat)) (offset : Nat) (bytes rest : List UInt8) :
    bytesOutside spans offset (bytes ++ rest) =
      bytesOutside spans offset bytes ++ bytesOutside spans (offset + bytes.length) rest := by
  rw [bytesOutside, List.zipIdx_append, List.filter_append, List.map_append]
  rfl

theorem bytesOutside_of_uncovered {spans : List (Nat × Nat)} {offset : Nat} {bytes : List UInt8}
    (h : ∀ i, offset ≤ i → i < offset + bytes.length → covers spans i = false) :
    bytesOutside spans offset bytes = bytes := by
  have hkept : ∀ b ∈ bytes.zipIdx offset, (!covers spans b.2) = true := by
    intro b hb
    rw [h b.2 (List.le_snd_of_mem_zipIdx hb) (List.snd_lt_add_of_mem_zipIdx hb)]
    rfl
  rw [bytesOutside, List.filter_eq_self.mpr hkept, List.zipIdx_map_fst]

/-- Bytes that no span reaches all stay. -/
theorem bytesOutside_of_apart {spans : List (Nat × Nat)} {offset : Nat} {bytes : List UInt8}
    (h : ∀ s ∈ spans, s.2 ≤ offset ∨ offset + bytes.length ≤ s.1) :
    bytesOutside spans offset bytes = bytes := by
  refine bytesOutside_of_uncovered fun i hle hlt => Bool.eq_false_iff.mpr fun hcovers => ?_
  obtain ⟨s, hs, hfirst, hlast⟩ := covers_iff.mp hcovers
  have := h s hs
  omega

@[simp] theorem bytesOutside_nil (offset : Nat) (bytes : List UInt8) :
    bytesOutside [] offset bytes = bytes :=
  bytesOutside_of_apart (List.forall_mem_nil _)

theorem bytesOutside_of_covered {spans : List (Nat × Nat)} {offset : Nat} {bytes : List UInt8}
    (h : ∀ i, offset ≤ i → i < offset + bytes.length → covers spans i = true) :
    bytesOutside spans offset bytes = [] := by
  have hgone : ∀ b ∈ bytes.zipIdx offset, ¬ (!covers spans b.2) = true := by
    intro b hb
    rw [h b.2 (List.le_snd_of_mem_zipIdx hb) (List.snd_lt_add_of_mem_zipIdx hb)]
    exact Bool.false_ne_true
  rw [bytesOutside, List.filter_eq_nil_iff.mpr hgone, List.map_nil]

/-- A span that ends before the bytes does not matter to them. -/
theorem bytesOutside_cons {span : Nat × Nat} {spans : List (Nat × Nat)} {offset : Nat}
    (h : span.2 ≤ offset) (bytes : List UInt8) :
    bytesOutside (span :: spans) offset bytes = bytesOutside spans offset bytes := by
  rw [bytesOutside, bytesOutside]
  congr 1
  refine List.filter_congr fun b hb => ?_
  have hle := List.le_snd_of_mem_zipIdx hb
  rw [covers, List.any_cons, decide_eq_false (by omega : ¬ b.2 < span.2), Bool.and_false,
    Bool.false_or]
  rfl

theorem add_length_bytesBetween {source : List UInt8} {i j : Nat} (h : i ≤ j)
    (hj : j ≤ source.length) : i + (bytesBetween source i j).length = j := by
  rw [bytesBetween, List.length_take, List.length_drop]
  omega

namespace Edit

/-- Takes a span away. -/
def removal (span : Nat × Nat) : Edit := ⟨span.1, span.2, ""⟩

/-- Taking all spans away at once leaves the bytes outside of them. -/
theorem interleave_removal {source : List UInt8} {spans : List (Nat × Nat)} {offset : Nat}
    (h : Fitting source.length (spans.map removal)) (hoffset : ∀ s ∈ spans.head?, offset ≤ s.1) :
    interleave source offset (spans.map removal) =
      bytesOutside spans offset (source.drop offset) := by
  induction spans generalizing offset with
  | nil =>
    rw [bytesOutside_nil]
    rfl
  | cons s spans ih =>
    have hfirst : ∀ e ∈ ((s :: spans).map removal).head?, (s.1 : Int) ≤ e.start := by
      simp [removal]
    have hstarts := List.forall_mem_map.mp (h.le_start hfirst)
    obtain ⟨⟨-, hle, hlength⟩, hnext, hrest⟩ := fitting_cons.mp h
    have hstart : offset ≤ s.1 := hoffset s rfl
    simp only [removal, Int.ofNat_le] at hle hlength hstarts
    have hnext : ∀ t ∈ spans.head?, s.2 ≤ t.1 := by
      intro t ht
      have := hnext (removal t) (by rw [List.head?_map, Option.mem_def.mp ht]; rfl)
      simpa [removal] using this
    have hsplit : source.drop offset = bytesBetween source offset s.1 ++
        (bytesBetween source s.1 s.2 ++ source.drop s.2) := by
      rw [← drop_eq_bytesBetween_append hle, ← drop_eq_bytesBetween_append hstart]
    have hgap : offset + (bytesBetween source offset s.1).length = s.1 :=
      add_length_bytesBetween hstart (Nat.le_trans hle hlength)
    have hspan : s.1 + (bytesBetween source s.1 s.2).length = s.2 :=
      add_length_bytesBetween hle hlength
    -- No span covers a byte up to the first one, which covers all of its own.
    rw [hsplit, bytesOutside_append, bytesOutside_append, hgap, hspan,
      bytesOutside_of_apart, bytesOutside_of_covered, bytesOutside_cons (Nat.le_refl _),
      List.map_cons, interleave]
    · show bytesBetween source offset s.1 ++ ([] ++ interleave source s.2 (spans.map removal)) = _
      rw [ih hrest hnext]
    · intro i hi hi'
      exact covers_iff.mpr ⟨s, List.mem_cons_self, hi, hspan ▸ hi'⟩
    · intro t ht
      exact Or.inr (hgap.symm ▸ hstarts t ht)

end Edit

namespace Module

variable {m : Module}

/-! ### The nodes of a module -/

/-- The node of a piece at the top of a module, given the pieces before it. -/
def pieceNode (m : Module) (front : List Piece) (p : Piece) : Node :=
  ⟨⟨⟨p.tree, size m.lead + size (piecesText front)⟩, sitesFrom (size m.lead) [] front⟩,
    [m.root.place]⟩

theorem start_pieceNode (m : Module) (front : List Piece) (p : Piece) :
    (m.pieceNode front p).start = size (m.lead ++ piecesText front) := by
  rw [size_append]
  rfl

theorem stop_pieceNode (m : Module) (front : List Piece) (p : Piece) :
    (m.pieceNode front p).stop = size (m.lead ++ piecesText front ++ p.tree.spell) := by
  rw [Node.stop_eq, start_pieceNode, size_append _ p.tree.spell]
  rfl

theorem nodeAt_eq (m : Module) (before : List Row) (r : Row) :
    m.nodeAt before r = m.pieceNode (before.flatMap Row.pieces ++ r.docs) r.last := by
  simp only [nodeAt, Row.place, pieceNode, sitesFrom_append, rowsText, piecesText_append,
    size_append, Nat.add_assoc]

/-- The nodes of pieces at the top of a module, given the pieces before them. -/
def nodesFrom (m : Module) (front ps : List Piece) : List Node :=
  (piecePlaces (size m.lead + size (piecesText front)) (sitesFrom (size m.lead) [] front) ps).map
    fun p => ⟨p, [m.root.place]⟩

theorem root_children (m : Module) : m.root.children = m.nodesFrom [] m.pieces := by
  rw [Node.children_eq]
  show List.map _ (piecePlaces (0 + _) _ _) = _
  rw [Nat.zero_add]
  rfl

theorem nodesFrom_append (m : Module) (front ps qs : List Piece) :
    m.nodesFrom front (ps ++ qs) = m.nodesFrom front ps ++ m.nodesFrom (front ++ ps) qs := by
  simp only [nodesFrom, piecePlaces_append, List.map_append, sitesFrom_append, piecesText_append,
    size_append, Nat.add_assoc]

theorem nodesFrom_cons (m : Module) (front : List Piece) (p : Piece) (ps : List Piece) :
    m.nodesFrom front (p :: ps) = m.pieceNode front p :: m.nodesFrom (front ++ [p]) ps :=
  m.nodesFrom_append front [p] ps

/-- Nodes keep to their pieces. -/
theorem bounds_of_mem_nodesFrom {front ps : List Piece} {n : Node}
    (h : n ∈ m.nodesFrom front ps) : size (m.lead ++ piecesText front) ≤ n.start ∧
      n.stop ≤ size (m.lead ++ piecesText (front ++ ps)) := by
  induction ps generalizing front with
  | nil => cases h
  | cons p ps ih =>
    rw [nodesFrom_cons] at h
    rcases List.mem_cons.mp h with rfl | h
    · rw [start_pieceNode, stop_pieceNode]
      simp only [piecesText_append, piecesText_cons, size_append]
      omega
    · have := ih h
      simp only [piecesText_append, piecesText_cons, piecesText_nil, List.append_nil, size_append,
        List.append_assoc, List.cons_append, List.nil_append] at this ⊢
      omega

theorem start_of_head? {front ps : List Piece} {last : Piece} {first : Node}
    (h : first ∈ (m.nodesFrom front ps ++ [m.pieceNode (front ++ ps) last]).head?) :
    first.start = size (m.lead ++ piecesText front) := by
  cases ps with
  | nil =>
    obtain rfl := Option.some.inj h
    rw [start_pieceNode, List.append_nil]
  | cons p ps =>
    obtain rfl := Option.some.inj h
    exact m.start_pieceNode front p

/-! ### What a span takes -/

/-- Holds of two offsets with nothing between them but white space and at most one line feed. -/
structure Linked (source : List UInt8) (stop start : Nat) : Prop where
  blank : allBlank (bytesBetween source stop start) = true
  lines : (bytesBetween source stop start).count 0x0a ≤ 1

theorem linked_iff (x gap y : List Char) :
    Linked (encodeChars (x ++ gap ++ y)) (size x) (size (x ++ gap)) ↔ links gap = true := by
  rw [← links_iff x gap y, size_append, Bool.and_eq_true, decide_eq_true_eq]
  exact ⟨fun h => ⟨h.blank, h.lines⟩, fun h => ⟨h.1, h.2⟩⟩

/-- Doc comments that belong to what follows them are linked to it. -/
theorem isChain_docs {front docs back : List Piece} {last : Piece}
    (hsource : m.source = encodeChars (m.lead ++ piecesText (front ++ (docs ++ last :: back))))
    (hdocs : ∀ d ∈ docs, d.documents = true) :
    (m.nodesFrom front docs ++ [m.pieceNode (front ++ docs) last]).IsChain fun p q =>
      p.stop ≤ q.start ∧ Linked m.source p.stop q.start := by
  induction docs generalizing front with
  | nil => exact List.isChain_singleton _
  | cons d docs ih =>
    obtain ⟨hd, hdocs⟩ := List.forall_mem_cons.mp hdocs
    have hfront : front ++ (d :: docs ++ last :: back) =
        (front ++ [d]) ++ (docs ++ last :: back) := by simp
    have hlast : front ++ d :: docs = (front ++ [d]) ++ docs := by simp
    rw [nodesFrom_cons, List.cons_append, List.isChain_cons, hlast]
    refine ⟨fun q hq => ?_, ih (hfront ▸ hsource) hdocs⟩
    have hstart : q.start = size (m.lead ++ piecesText front ++ d.tree.spell ++ d.gap) := by
      rw [start_of_head? hq]
      simp
    have htext : m.lead ++ piecesText (front ++ (d :: docs ++ last :: back)) =
        m.lead ++ piecesText front ++ d.tree.spell ++ d.gap ++ piecesText (docs ++ last :: back) := by
      simp
    rw [stop_pieceNode, hstart, hsource, htext]
    exact ⟨by rw [size_append _ d.gap]; omega,
      (linked_iff _ _ _).mpr (Bool.and_eq_true_iff.mp hd).2⟩

/-- The bytes that go away with a statement: those of the doc comments attached to it, one
    linked to the next, those of the statement itself, the blanks before them on their line
    and the rest of the line after them.  Everything else at the top of the module is
    outside. -/
structure SpanOf (m : Module) (span : Nat × Nat) (before docs : List Node) (stmt : Node)
    (after : List Node) : Prop where
  siblings : m.root.children = before ++ (docs ++ stmt :: after)
  documents : ∀ d ∈ docs, d.tree.isDocComment = true
  linked : (docs ++ [stmt]).IsChain fun p q => p.stop ≤ q.start ∧ Linked m.source p.stop q.start
  /-- No other doc comment is attached. -/
  detached : ∀ p ∈ before.getLast?, ∀ first ∈ (docs ++ [stmt]).head?,
    p.tree.isDocComment = true → ¬ Linked m.source p.stop first.start
  contains : span.1 ≤ stmt.start ∧ stmt.stop ≤ span.2
  indent : ∀ first ∈ (docs ++ [stmt]).head?, span.1 ≤ first.start ∧
    allBlank (bytesBetween m.source span.1 first.start) = true ∧
    0x0a ∉ bytesBetween m.source span.1 first.start
  rest : ∃ spaces lineEnd, bytesBetween m.source stmt.stop span.2 = spaces ++ lineEnd ∧
    (∀ b ∈ spaces, b = 0x20 ∨ b = 0x09) ∧ lineEnd ∈ [[], [0x0a], [0x0d, 0x0a]]
  above : ∀ n ∈ before, n.stop ≤ span.1
  below : ∀ n ∈ after, span.2 ≤ n.start

/-- The pieces of a module around one of its rows. -/
theorem pieces_row {before after : List Row} {r : Row} (h : m.rows = before ++ r :: after) :
    m.pieces = before.flatMap Row.pieces ++ (r.docs ++ r.last :: after.flatMap Row.pieces) := by
  rw [← flatMap_rows, h]
  simp [Row.pieces]

theorem source_pieces (hm : m.Readable) : m.source = encodeChars (m.lead ++ piecesText m.pieces) := by
  rw [← chars_eq]
  exact hm

/-- The span of the last tree of a row. -/
theorem statementSpan_nodeAt (hm : m.Readable) {before after : List Row} {r : Row}
    (h : m.rows = before ++ r :: after) :
    m.statementSpan (m.nodeAt before r) =
      (size (m.lead ++ rowsText before) - size (cutBefore (m.gapAfter before).1 (m.gapAfter before).2),
        (m.nodeAt before r).stop + size (lineRest r.last.gap)) := by
  have hedit := m.removeStatement_eq hm h
  have hstart : ((m.statementSpan (m.nodeAt before r)).1 : Int) = _ := congrArg Edit.start hedit
  have hstop : ((m.statementSpan (m.nodeAt before r)).2 : Int) = _ := congrArg Edit.stop hedit
  refine Prod.ext ?_ ?_
  · rw [Int.ofNat.inj hstart, size_append]
  · rw [Int.ofNat.inj hstop, nodeAt_eq, stop_pieceNode]
    simp [rowsText, Nat.add_assoc]

/-- The blanks in front of a row that go away with it end the text before the row. -/
theorem cutBefore_suffix_rows (m : Module) (before : List Row) :
    cutBefore (m.gapAfter before).1 (m.gapAfter before).2 <:+ m.lead ++ rowsText before := by
  refine (cutBefore_suffix _ _).trans ?_
  rcases List.eq_nil_or_concat before with rfl | ⟨before, q, rfl⟩
  · simp [gapAfter]
  · rw [List.concat_eq_append, gapAfter_concat, rowsText_append, rowsText_cons]
    exact ⟨m.lead ++ (rowsText before ++ (piecesText q.docs ++ q.last.tree.spell)), by simp⟩

theorem tree_of_mem_nodesFrom {front ps : List Piece} {n : Node} (h : n ∈ m.nodesFrom front ps) :
    ∃ p ∈ ps, n.tree = p.tree := by
  have htree : n.tree ∈ ps.map (·.tree) := by
    rw [← piecePlaces_trees (size m.lead + size (piecesText front))
      (sitesFrom (size m.lead) [] front)]
    obtain ⟨place, hplace, rfl⟩ := List.mem_map.mp h
    exact List.mem_map_of_mem hplace
  obtain ⟨p, hp, heq⟩ := List.mem_map.mp htree
  exact ⟨p, hp, heq.symm⟩

/-- The rest of a line, in bytes. -/
theorem lineRest_bytes (gap : List Char) : ∃ spaces lineEnd,
    encodeChars (lineRest gap) = spaces ++ lineEnd ∧ (∀ b ∈ spaces, b = 0x20 ∨ b = 0x09) ∧
      lineEnd ∈ [[], [0x0a], [0x0d, 0x0a]] := by
  refine ⟨encodeChars (lineSpaces gap), _, by rw [lineRest_eq, encodeChars_append], ?_, ?_⟩
  · have hall := matches_spaceOrTab.all (lineSpaces gap)
    rw [show (lineSpaces gap).all _ = true from List.all_takeWhile] at hall
    intro b hb
    simpa using List.all_eq_true.mp hall b hb
  · unfold lineBreak
    split <;> decide

theorem rowPieces_concat (before : List Row) (q : Row) : (before ++ [q]).flatMap Row.pieces =
    (before.flatMap Row.pieces ++ q.docs) ++ [q.last] := by
  simp [Row.pieces]

theorem rowsText_concat (before : List Row) (q : Row) : rowsText (before ++ [q]) =
    piecesText (before.flatMap Row.pieces ++ q.docs) ++ (q.last.tree.spell ++ q.last.gap) := by
  rw [rowsText, rowPieces_concat]
  simp

/-- The last tree of a row is the last of the nodes before the next row. -/
theorem nodesFrom_concat (m : Module) (before : List Row) (q : Row) :
    m.nodesFrom [] ((before ++ [q]).flatMap Row.pieces) =
      m.nodesFrom [] (before.flatMap Row.pieces ++ q.docs) ++ [m.nodeAt before q] := by
  rw [rowPieces_concat, nodesFrom_append, nodeAt_eq]
  rfl

theorem size_lineRest_le (gap : List Char) : size (lineRest gap) ≤ size gap := by
  conv_rhs => rw [← lineRest_append_afterLine gap, size_append]
  exact Nat.le_add_right _ _

/-- What goes away with a row leaves what goes away with the row before it. -/
theorem statementSpan_le (hm : m.Readable) {before after : List Row} {q r : Row}
    (h : m.rows = before ++ q :: r :: after) :
    (m.statementSpan (m.nodeAt before q)).2 ≤ (m.statementSpan (m.nodeAt (before ++ [q]) r)).1 := by
  have hr : m.rows = (before ++ [q]) ++ r :: after := by rw [h]; simp
  rw [m.statementSpan_nodeAt hm h, m.statementSpan_nodeAt hm hr, nodeAt_eq, stop_pieceNode,
    gapAfter_concat]
  obtain ⟨left, hleft⟩ := cutBefore_suffix_afterLine q.last.gap
  have hgap : size q.last.gap =
      size (lineRest q.last.gap) + (size left + size (cutBefore false q.last.gap)) := by
    rw [← size_append left, hleft, ← size_append, lineRest_append_afterLine]
  simp only [rowsText_concat, size_append, hgap]
  omega

/-- No doc comment before a row is attached to it. -/
theorem detached_row (hm : m.Readable) {before after : List Row} {r : Row}
    (h : m.rows = before ++ r :: after) {p : Node}
    (hp : p ∈ (m.nodesFrom [] (before.flatMap Row.pieces)).getLast?)
    (hdoc : p.tree.isDocComment = true) :
    ¬ Linked m.source p.stop (size (m.lead ++ rowsText before)) := by
  rcases List.eq_nil_or_concat before with rfl | ⟨before, q, rfl⟩
  · cases hp
  · rw [List.concat_eq_append] at *
    have hq : m.rows = before ++ q :: r :: after := by rw [h]; simp
    rw [nodesFrom_concat, List.getLast?_concat] at hp
    obtain rfl := Option.some.inj hp
    intro hlinked
    have htext : m.lead ++ piecesText m.pieces =
        m.lead ++ piecesText (before.flatMap Row.pieces ++ q.docs) ++ q.last.tree.spell ++ q.last.gap ++
          piecesText (r.docs ++ r.last :: after.flatMap Row.pieces) := by
      rw [pieces_row h, rowPieces_concat]
      simp
    have hstart : m.lead ++ rowsText (before ++ [q]) = m.lead ++
        piecesText (before.flatMap Row.pieces ++ q.docs) ++ q.last.tree.spell ++ q.last.gap := by
      rw [rowsText_concat]
      simp
    rw [nodeAt_eq, stop_pieceNode, source_pieces hm, htext, hstart, linked_iff] at hlinked
    have hdocuments : q.last.documents = true := Bool.and_eq_true_iff.mpr ⟨hdoc, hlinked⟩
    rw [(row_before hm hq).2] at hdocuments
    cases hdocuments

/-- What stands before a row is outside of its span. -/
theorem stop_le_statementSpan (hm : m.Readable) {before after : List Row} {r : Row}
    (h : m.rows = before ++ r :: after) {n : Node}
    (hn : n ∈ m.nodesFrom [] (before.flatMap Row.pieces)) :
    n.stop ≤ (m.statementSpan (m.nodeAt before r)).1 := by
  rcases List.eq_nil_or_concat before with rfl | ⟨before, q, rfl⟩
  · cases hn
  · rw [List.concat_eq_append] at *
    have hq : m.rows = before ++ q :: r :: after := by rw [h]; simp
    have hle := m.statementSpan_le hm hq
    have hspan : (m.nodeAt before q).stop ≤ (m.statementSpan (m.nodeAt before q)).2 := by
      rw [m.statementSpan_nodeAt hm hq]
      exact Nat.le_add_right _ _
    rw [nodesFrom_concat] at hn
    rcases List.mem_append.mp hn with hn | hn
    · have hstop := (bounds_of_mem_nodesFrom hn).2
      have hstart := m.start_pieceNode (before.flatMap Row.pieces ++ q.docs) q.last
      have hwidth := (m.nodeAt before q).stop_eq
      rw [← nodeAt_eq] at hstart
      rw [List.nil_append] at hstop
      omega
    · rw [List.mem_singleton.mp hn]
      omega

/-- What goes away with a row is its last tree with the doc comments of the row. -/
theorem spanOf_nodeAt (hm : m.Readable) {before after : List Row} {r : Row}
    (h : m.rows = before ++ r :: after) :
    m.SpanOf (m.statementSpan (m.nodeAt before r)) (m.nodesFrom [] (before.flatMap Row.pieces))
      (m.nodesFrom (before.flatMap Row.pieces) r.docs) (m.nodeAt before r)
      (m.nodesFrom (before.flatMap Row.pieces ++ r.docs ++ [r.last]) (after.flatMap Row.pieces)) := by
  have hpieces := m.pieces_row h
  have hsource := source_pieces hm
  have hdocs := m.grouped_moduleRows.1 r (by rw [h]; simp)
  have hspan := m.statementSpan_nodeAt hm h
  have hfirst : ∀ first ∈ (m.nodesFrom (before.flatMap Row.pieces) r.docs ++
      [m.nodeAt before r]).head?, first.start = size (m.lead ++ rowsText before) := by
    intro first hfirst
    rw [nodeAt_eq] at hfirst
    exact start_of_head? hfirst
  obtain ⟨kept, hkept⟩ := m.cutBefore_suffix_rows before
  have hstart : (m.statementSpan (m.nodeAt before r)).1 = size kept := by
    rw [hspan, ← hkept, size_append, Nat.add_sub_cancel_right]
  have hindent : size kept ≤ size (m.lead ++ rowsText before) := by
    rw [← hkept, size_append]
    exact Nat.le_add_right _ _
  constructor
  case siblings =>
    rw [root_children, hpieces, nodesFrom_append, nodesFrom_append, nodesFrom_cons, nodeAt_eq,
      List.nil_append]
  case documents =>
    intro d hd
    obtain ⟨p, hp, htree⟩ := tree_of_mem_nodesFrom hd
    rw [htree]
    exact (Bool.and_eq_true_iff.mp (hdocs p hp)).1
  case linked =>
    rw [nodeAt_eq]
    exact isChain_docs (hpieces ▸ hsource) hdocs
  case detached =>
    intro p hp first hfirst' hdoc
    rw [hfirst first hfirst']
    exact m.detached_row hm h hp hdoc
  case contains =>
    rw [hstart, hspan, start_nodeAt]
    refine ⟨Nat.le_trans hindent ?_, Nat.le_add_right _ _⟩
    simp only [size_append]
    omega
  case indent =>
    intro first hfirst'
    -- The span starts with the blanks that the line has before the row.
    have hbytes : bytesBetween m.source (size kept) (size (m.lead ++ rowsText before)) =
        encodeChars (cutBefore (m.gapAfter before).1 (m.gapAfter before).2) := by
      rw [hsource, hpieces, piecesText_append, ← List.append_assoc, ← rowsText, ← hkept, size_append]
      exact bytesBetween_eq _ _ _
    rw [hstart, hfirst first hfirst', hbytes, allBlank_encodeChars]
    refine ⟨hindent, cutBefore_blank _ _, ?_⟩
    rw [← List.count_eq_zero, count_encodeChars, List.count_eq_zero]
    exact newline_notMem_cutBefore _ _
  case rest =>
    obtain ⟨spaces, lineEnd, hrest, hspaces, hend⟩ := lineRest_bytes r.last.gap
    refine ⟨spaces, lineEnd, ?_, hspaces, hend⟩
    have htext : m.lead ++ piecesText m.pieces = m.lead ++
        piecesText (before.flatMap Row.pieces ++ r.docs) ++ r.last.tree.spell ++
        lineRest r.last.gap ++ (afterLine r.last.gap ++ piecesText (after.flatMap Row.pieces)) := by
      rw [hpieces]
      conv_lhs => rw [piecesText_append, piecesText_append, piecesText_cons,
        ← lineRest_append_afterLine r.last.gap]
      simp
    rw [hspan, nodeAt_eq, stop_pieceNode, hsource, htext, ← hrest]
    exact bytesBetween_eq _ _ _
  case above => exact fun n hn => m.stop_le_statementSpan hm h hn
  case below =>
    intro n hn
    -- What follows starts behind the whole gap, and the span takes a part of the gap.
    have hbounds := (bounds_of_mem_nodesFrom hn).1
    have hgap := size_lineRest_le r.last.gap
    rw [hspan, nodeAt_eq, stop_pieceNode]
    simp only [piecesText_append, piecesText_cons, piecesText_nil, size_append,
      List.append_nil] at hbounds ⊢
    omega

/-! ### Removing statements -/

theorem isChain_of_split {α : Type} {R : α → α → Prop} {l : List α}
    (h : ∀ before a b after, l = before ++ a :: b :: after → R a b) : l.IsChain R := by
  induction l with
  | nil => exact List.isChain_nil
  | cons a l ih =>
    refine List.isChain_cons.mpr ⟨fun b hb => ?_, ih fun before x y after hl => ?_⟩
    · obtain ⟨rest, rfl⟩ := List.head?_eq_some_iff.mp hb
      exact h [] a b rest rfl
    · exact h (a :: before) x y after (by rw [hl]; rfl)

theorem statementSpan_le_length (hm : m.Readable) {before after : List Row} {r : Row}
    (h : m.rows = before ++ r :: after) :
    (m.statementSpan (m.nodeAt before r)).2 ≤ m.source.length := by
  have hgap := size_lineRest_le r.last.gap
  have hlength : m.source.length = size (m.lead ++ piecesText m.pieces) := by
    rw [source_pieces hm, size]
  rw [m.statementSpan_nodeAt hm h, nodeAt_eq, stop_pieceNode, hlength, m.pieces_row h]
  simp only [piecesText_append, piecesText_cons, size_append]
  omega

/-- With a statement something goes away. -/
theorem statementSpan_lt (hm : m.Readable) {before after : List Row} {r : Row}
    (h : m.rows = before ++ r :: after) :
    (m.statementSpan (m.nodeAt before r)).1 < (m.statementSpan (m.nodeAt before r)).2 := by
  obtain ⟨-, hclear, -⟩ := pieces_spec hm
  have hstarts : StartsVisibly r.last.tree.spell := by
    refine (hclear r.last ?_).2.1
    rw [m.pieces_row h]
    simp
  have hwidth := (m.nodeAt before r).stop_eq
  have hpos := size_pos hstarts.ne_nil
  have hcontains := (m.spanOf_nodeAt hm h).contains
  rw [nodeAt_tree] at hwidth
  omega

/-- The bytes that go away with rows lie within the module, in the order of the rows. -/
theorem fitting_located (hm : m.Readable) :
    Edit.Fitting m.source.length (m.located.map fun rn => Edit.removal (m.statementSpan rn.2)) where
  within := by
    intro e he
    obtain ⟨⟨r, n⟩, hrn, rfl⟩ := List.mem_map.mp he
    obtain ⟨before, after, hsplit⟩ := List.append_of_mem hrn
    obtain ⟨hrows, rfl⟩ := m.located_split hsplit
    have hlt := m.statementSpan_lt hm hrows
    have hle := m.statementSpan_le_length hm hrows
    simp only [Edit.removal]
    omega
  apart := by
    rw [List.isChain_map]
    refine isChain_of_split fun before a b after hsplit => ?_
    obtain ⟨hrows, ha⟩ := m.located_split hsplit
    have hsplit' : m.located = (before ++ [a]) ++ b :: after := by rw [hsplit]; simp
    obtain ⟨-, hb⟩ := m.located_split hsplit'
    rw [List.map_cons] at hrows
    rw [List.map_append, List.map_singleton] at hb
    have hle := m.statementSpan_le hm hrows
    rw [← ha, ← hb] at hle
    exact Int.ofNat_le.mpr hle

/-- A statement is the last tree of a row. -/
theorem exists_rows_of_statement {stmt : Node} (h : stmt ∈ m.statements) :
    ∃ before r after, m.rows = before ++ r :: after ∧ stmt = m.nodeAt before r := by
  rw [statements_eq] at h
  obtain ⟨⟨r, n⟩, hrn, rfl⟩ := List.mem_map.mp (List.mem_filter.mp h).1
  obtain ⟨before, after, hsplit⟩ := List.append_of_mem hrn
  obtain ⟨hrows, hnode⟩ := m.located_split hsplit
  exact ⟨_, r, _, hrows, hnode⟩

theorem nodup_statements (hm : m.Readable) : m.statements.Nodup := by
  refine (m.statements_rising hm).imp fun h heq => ?_
  exact absurd (congrArg Node.start heq) (Nat.ne_of_lt h)

/-- What goes away with any of the statements, in the order of the statements. -/
theorem fitting_statements (hm : m.Readable) {kept : List Node} (h : kept.Sublist m.statements) :
    Edit.Fitting m.source.length (kept.map fun n => Edit.removal (m.statementSpan n)) := by
  have hsub : (kept.map fun n => Edit.removal (m.statementSpan n)).Sublist
      (m.located.map fun rn => Edit.removal (m.statementSpan rn.2)) := by
    have hnodes : kept.Sublist (m.located.map (·.2)) :=
      h.trans (m.statements_eq ▸ List.filter_sublist)
    have hmap := hnodes.map fun n => Edit.removal (m.statementSpan n)
    rwa [List.map_map] at hmap
  have hfits := m.fitting_located hm
  exact ⟨fun e he => hfits.within e (hsub.subset he), (hfits.pairwise.sublist hsub).isChain⟩

/-- The order in which statements are removed is that of the module. -/
theorem ordered_removals (hm : m.Readable) {gone kept : List Node} (hperm : kept.Perm gone)
    (h : kept.Sublist m.statements) :
    Edit.Ordered (gone.map m.removeStatement)
      (kept.map fun n => Edit.removal (m.statementSpan n)) where
  perm := hperm.map _
  rises := by
    have hfits := m.fitting_statements hm h
    refine hfits.pairwise.imp_of_mem fun {a b} ha hb hab => ?_
    have := hfits.within a ha
    have := hfits.within b hb
    show a.start < b.start ∨ a.start = b.start ∧ a.stop ≤ b.stop
    omega
  insertions offset := by
    -- A statement takes room, so its removal is no insertion anywhere.
    have hnone : ∀ stmts : List Node, (∀ n ∈ stmts, n ∈ m.statements) →
        (stmts.map fun n => Edit.removal (m.statementSpan n)).filter (Edit.insertsAt offset) = [] := by
      intro stmts hstmts
      refine List.filter_eq_nil_iff.mpr fun e he => ?_
      obtain ⟨n, hn, rfl⟩ := List.mem_map.mp he
      obtain ⟨before, r, after, hrows, rfl⟩ := exists_rows_of_statement (hstmts n hn)
      have hlt := m.statementSpan_lt hm hrows
      rw [Edit.insertsAt_iff, Edit.range, Prod.mk.injEq]
      simp only [Edit.removal]
      omega
    rw [hnone kept fun n hn => h.subset hn,
      show gone.map m.removeStatement = gone.map fun n => Edit.removal (m.statementSpan n) from rfl,
      hnone gone fun n hn => h.subset (hperm.mem_iff.mpr hn)]
    rfl

/-- Statements that are removed at once leave the bytes outside of their spans. -/
theorem applyEdits_removals (hm : m.Readable) {gone : List Node} (hnodup : gone.Nodup)
    (hgone : ∀ stmt ∈ gone, stmt ∈ m.statements) :
    m.applyEdits (gone.map m.removeStatement) =
      .ok (m.withSource (bytesOutside (gone.map m.statementSpan) 0 m.source)) := by
  classical
  have hsub : (m.statements.filter fun n => decide (n ∈ gone)).Sublist m.statements :=
    List.filter_sublist
  have hperm : (m.statements.filter fun n => decide (n ∈ gone)).Perm gone := by
    refine (List.perm_ext_iff_of_nodup (List.Pairwise.filter _ (m.nodup_statements hm)) hnodup).mpr fun n => ?_
    simpa using fun hn => hgone n hn
  have hfits := m.fitting_statements hm hsub
  have hremoved := Edit.applyAll_of_fitting (m.ordered_removals hm hperm hsub) hfits
  have hspans : ∀ stmts : List Node, (stmts.map fun n => Edit.removal (m.statementSpan n)) =
      (stmts.map m.statementSpan).map Edit.removal := by
    intro stmts
    rw [List.map_map]
    rfl
  rw [hspans] at hfits hremoved
  rw [applyEdits, hremoved, Edit.interleave_removal hfits fun _ _ => Nat.zero_le _, List.drop_zero,
    bytesOutside_congr fun span => (hperm.map m.statementSpan).mem_iff]
  rfl

/-- The span of a statement takes the statement, the doc comments attached to it and white
    space, and nothing else; the spans of two statements are apart; and statements removed
    at once, in any order, leave what is in none of their spans. -/
theorem statementSpan_spec (hm : m.Readable) :
    (∀ stmt ∈ m.statements, ∃ before docs after,
      m.SpanOf (m.statementSpan stmt) before docs stmt after) ∧
    (m.statements.Pairwise fun s t => (m.statementSpan s).2 ≤ (m.statementSpan t).1) ∧
    ∀ gone : List Node, gone.Nodup → (∀ stmt ∈ gone, stmt ∈ m.statements) →
      m.applyEdits (gone.map m.removeStatement) =
        .ok (m.withSource (bytesOutside (gone.map m.statementSpan) 0 m.source)) := by
  refine ⟨fun stmt hstmt => ?_, ?_, fun gone => m.applyEdits_removals hm⟩
  · obtain ⟨before, r, after, hrows, rfl⟩ := exists_rows_of_statement hstmt
    exact ⟨_, _, _, m.spanOf_nodeAt hm hrows⟩
  · have hpairs := (m.fitting_statements hm (List.Sublist.refl _)).pairwise
    exact (List.pairwise_map.mp hpairs).imp fun h => Int.ofNat_le.mp h

/-- Statements with an attached comment and a detached one, two of them on one line. -/
def spacedModule : Module := Module.ofText none
  "/** d */\nvar a\n\n/** e */\n\n  var b; var c\n"

theorem statementSpan_spec_spaced : spacedModule.Readable ∧
    (∀ stmt ∈ spacedModule.statements, ∃ before docs after,
      spacedModule.SpanOf (spacedModule.statementSpan stmt) before docs stmt after) ∧
    spacedModule.statements.map spacedModule.statementSpan = [(0, 15), (26, 35), (35, 41)] ∧
    spacedModule.applyEdits (spacedModule.statements.reverse.map spacedModule.removeStatement) =
      .ok (spacedModule.withSource (encode "\n/** e */\n\n")) := by
  have hreadable : spacedModule.Readable := readable_of_source (ofSource_source _ _)
  obtain ⟨hspans, -, hremove⟩ := statementSpan_spec hreadable
  have hnodup : spacedModule.statements.reverse.Nodup := by
    refine List.nodup_reverse.mpr (List.Nodup.of_map Node.start ?_)
    decide +kernel
  have houtside : bytesOutside (spacedModule.statements.reverse.map spacedModule.statementSpan) 0
      spacedModule.source = encode "\n/** e */\n\n" := by
    decide +kernel
  refine ⟨hreadable, hspans, by decide +kernel, ?_⟩
  rw [hremove _ hnodup fun stmt h => List.mem_reverse.mp h, houtside]

end Module

end ComponentDecl
