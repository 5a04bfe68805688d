import ComponentDecl.Proofs.Module.Inside

/-! # The statements of a module and its rows

    Each statement of a module is the last tree of a row, and what goes away
    with the statement is the row with its cuts.

    Key theorems:
    - `Module.statements_eq`: the statements are among the last trees of the rows
    - `Module.removeStatement_eq`: what goes away with a statement
-/

namespace ComponentDecl

open Syntax Text

/-! ### Places of rows -/

/-- The place of the last tree of a row that starts at an offset. -/
def Row.place (offset : Nat) (earlier : List Site) (r : Row) : Place :=
  ⟨⟨r.last.tree, offset + size (piecesText r.docs)⟩, sitesFrom offset earlier r.docs⟩

/-- The places of the last trees of rows. -/
def lastPlaces (offset : Nat) (earlier : List Site) : List Row → List Place
  | [] => []
  | r :: rs =>
    r.place offset earlier :: lastPlaces (offset + size r.text) (sitesFrom offset earlier r.pieces) rs

theorem isPart_of_documents {d : Piece} (h : d.documents = true) : d.tree.isPart = false := by
  simp only [Piece.documents, Tree.isDocComment, Bool.and_eq_true, beq_iff_eq] at h
  simp [Tree.isPart, h.1.1]

/-- The doc comments of rows are no statements. -/
theorem filter_piecePlaces {rs : List Row} (hdocs : ∀ r ∈ rs, ∀ d ∈ r.docs, d.documents = true)
    (offset : Nat) (earlier : List Site) :
    (piecePlaces offset earlier (rs.flatMap Row.pieces)).filter (·.site.tree.isPart) =
      (lastPlaces offset earlier rs).filter (·.site.tree.isPart) := by
  induction rs generalizing offset earlier with
  | nil => rfl
  | cons r rs ih =>
    have hdocs := List.forall_mem_cons.mp hdocs
    have hnone : (piecePlaces offset earlier r.docs).filter (·.site.tree.isPart) = [] := by
      refine List.filter_eq_nil_iff.mpr fun p hp => ?_
      have hp : p.site.tree ∈ r.docs.map (·.tree) := by
        rw [← piecePlaces_trees offset earlier]
        exact List.mem_map_of_mem hp
      obtain ⟨d, hd, hp⟩ := List.mem_map.mp hp
      simp [← hp, isPart_of_documents (hdocs.1 d hd)]
    have hlast : piecePlaces (offset + size (piecesText r.docs)) (sitesFrom offset earlier r.docs)
        [r.last] = [r.place offset earlier] := rfl
    rw [List.flatMap_cons, piecePlaces_append, List.filter_append, lastPlaces,
      ← List.singleton_append, List.filter_append, ih hdocs.2]
    congr 1
    rw [Row.pieces, piecePlaces_append, List.filter_append, hnone, hlast, List.nil_append]

namespace Module

variable {m : Module}

/-- The rows of a module. -/
def rows (m : Module) : List Row := ComponentDecl.rows m.pieces

theorem grouped_moduleRows (m : Module) : Grouped m.rows := grouped_rows _

theorem flatMap_rows (m : Module) : m.rows.flatMap Row.pieces = m.pieces := rows_pieces _

theorem chars_rows (m : Module) : m.chars = m.lead ++ rowsText m.rows := by
  rw [rowsText, flatMap_rows, chars_eq]

/-- The node of the last tree of a row, given the rows before it. -/
def nodeAt (m : Module) (before : List Row) (r : Row) : Node :=
  ⟨r.place (size m.lead + size (rowsText before))
    (sitesFrom (size m.lead) [] (before.flatMap Row.pieces)), [m.root.place]⟩

@[simp] theorem nodeAt_tree (m : Module) (before : List Row) (r : Row) :
    (m.nodeAt before r).tree = r.last.tree := rfl

theorem start_nodeAt (m : Module) (before : List Row) (r : Row) :
    (m.nodeAt before r).start = size (m.lead ++ (rowsText before ++ piecesText r.docs)) := by
  rw [size_append, size_append, ← Nat.add_assoc]
  rfl

/-- Rows with the nodes of their last trees, given the rows before them. -/
def locate (m : Module) (before : List Row) : List Row → List (Row × Node)
  | [] => []
  | r :: rs => (r, m.nodeAt before r) :: m.locate (before ++ [r]) rs

/-- The rows of a module with the nodes of their last trees. -/
def located (m : Module) : List (Row × Node) := m.locate [] m.rows

theorem locate_rows (m : Module) (before rs : List Row) : (m.locate before rs).map (·.1) = rs := by
  induction rs generalizing before with
  | nil => rfl
  | cons r rs ih => rw [locate, List.map_cons, ih]

theorem located_rows (m : Module) : m.located.map (·.1) = m.rows := m.locate_rows [] m.rows

/-- The doc comments of a row belong to its last tree. -/
theorem documents_of_located {m : Module} {rn : Row × Node} (h : rn ∈ m.located) :
    ∀ p ∈ rn.1.docs, p.documents = true := by
  refine m.grouped_moduleRows.1 rn.1 ?_
  rw [← located_rows]
  exact List.mem_map_of_mem h

theorem locate_append (m : Module) (before rs qs : List Row) :
    m.locate before (rs ++ qs) = m.locate before rs ++ m.locate (before ++ rs) qs := by
  induction rs generalizing before with
  | nil => simp [locate]
  | cons r rs ih => simp [locate, ih]

/-- A row with its node splits the rows. -/
theorem located_split {l l' : List (Row × Node)} {r : Row} {n : Node}
    (h : m.located = l ++ (r, n) :: l') :
    m.rows = l.map (·.1) ++ r :: l'.map (·.1) ∧ n = m.nodeAt (l.map (·.1)) r := by
  have hrows : m.rows = l.map (·.1) ++ r :: l'.map (·.1) := by
    rw [← located_rows, h, List.map_append, List.map_cons]
  refine ⟨hrows, ?_⟩
  rw [located, hrows, locate_append] at h
  have hlength : (m.locate [] (l.map (·.1))).length = l.length := by
    rw [← List.length_map (·.1), locate_rows, List.length_map]
  have hrest := (List.append_inj h hlength).2
  exact ((Prod.mk.inj (List.cons.inj hrest).1).2).symm

/-- The last trees of rows start one after the other. -/
theorem located_rising (hm : m.Readable) :
    m.located.Pairwise fun a b => a.2.start < b.2.start := by
  obtain ⟨-, hclear, -⟩ := pieces_spec hm
  -- Every statement takes room, so the statement of the next row starts behind it.
  have key : ∀ (rs before : List Row), (∀ r ∈ rs, StartsVisibly r.last.tree.spell) →
      (m.locate before rs).Pairwise (fun a b => a.2.start < b.2.start) ∧
        ∀ rn ∈ m.locate before rs, size m.lead + size (rowsText before) ≤ rn.2.start := by
    intro rs
    induction rs with
    | nil => exact fun _ _ => ⟨List.Pairwise.nil, nofun⟩
    | cons r rs ih =>
      intro before h
      rw [List.forall_mem_cons] at h
      obtain ⟨hpairs, hle⟩ := ih (before ++ [r]) h.2
      have hstart : (m.nodeAt before r).start =
          size m.lead + size (rowsText before) + size (piecesText r.docs) := rfl
      have hr := size_pos h.1.ne_nil
      have hrow : size (rowsText (before ++ [r])) = size (rowsText before) +
          (size (piecesText r.docs) + (size r.last.tree.spell + size r.last.gap)) := by
        rw [rowsText_append, rowsText_cons]
        simp
      refine ⟨List.pairwise_cons.mpr ⟨fun rn hrn => ?_, hpairs⟩, fun rn hrn => ?_⟩
      · have := hle rn hrn
        dsimp only
        omega
      · rcases List.mem_cons.mp hrn with rfl | hrn
        · dsimp only
          omega
        · have := hle rn hrn
          omega
  refine (key m.rows [] fun r hr => ?_).1
  refine (hclear r.last ?_).2.1
  rw [← flatMap_rows]
  exact List.mem_flatMap.mpr ⟨r, hr, by simp [Row.pieces]⟩

/-- The statements are those last trees of rows that are constructs. -/
theorem statements_eq (m : Module) :
    m.statements = (m.located.map (·.2)).filter (·.tree.isPart) := by
  have hnodes : ∀ (rs before : List Row),
      (m.locate before rs).map (·.2) = (lastPlaces (size m.lead + size (rowsText before))
        (sitesFrom (size m.lead) [] (before.flatMap Row.pieces)) rs).map
          fun p => ⟨p, [m.root.place]⟩ := by
    intro rs
    induction rs with
    | nil => exact fun _ => rfl
    | cons r rs ih =>
      intro before
      rw [locate, List.map_cons, ih, lastPlaces, List.map_cons]
      rw [List.flatMap_append, sitesFrom_append, rowsText_append, size_append]
      simp only [rowsText, Row.text, List.flatMap_singleton, nodeAt, Nat.add_assoc]
  rw [located, hnodes, List.filter_map]
  simp only [rowsText_nil, size_nil, Nat.add_zero, List.flatMap_nil, sitesFrom]
  show m.root.children.filter _ = List.map _ (List.filter (fun p : Place => p.site.tree.isPart) _)
  rw [← filter_piecePlaces (m.grouped_moduleRows).1, flatMap_rows, Node.children_eq,
    List.filter_map]
  show List.map _ (List.filter _ (piecePlaces (0 + _) _ _)) = _
  rw [Nat.zero_add]
  rfl

theorem mem_statements_of_located {rn : Row × Node} (h : rn ∈ m.located)
    (hpart : rn.2.tree.isPart = true) : rn.2 ∈ m.statements := by
  rw [statements_eq]
  exact List.mem_filter.mpr ⟨List.mem_map_of_mem h, hpart⟩

theorem statements_rising (hm : m.Readable) :
    m.statements.Pairwise fun a b => a.start < b.start := by
  rw [statements_eq]
  exact List.Pairwise.filter _ (List.pairwise_map.mpr (m.located_rising hm))

/-! ### What goes away with a statement -/

/-- The gap after rows, and whether it starts the module. -/
def gapAfter (m : Module) (before : List Row) : Bool × List Char :=
  match before.getLast? with
  | none => (true, m.lead)
  | some q => (false, q.last.gap)

theorem gapAfter_concat (m : Module) (before : List Row) (q : Row) :
    m.gapAfter (before ++ [q]) = (false, q.last.gap) := by
  simp [gapAfter]

/-- A row before another one ends visibly and documents nothing. -/
theorem row_before (hm : m.Readable) {before after : List Row} {q r : Row}
    (h : m.rows = before ++ q :: r :: after) :
    EndsVisibly q.last.tree.spell ∧ q.last.documents = false := by
  constructor
  · obtain ⟨-, -, hends⟩ := pieces_spec hm
    have hpieces : m.pieces = (before.flatMap Row.pieces ++ q.docs ++ [q.last]) ++
        (r.pieces ++ after.flatMap Row.pieces) := by
      rw [← flatMap_rows, h]
      simp [Row.pieces]
    obtain ⟨p, ps, hp⟩ : ∃ p ps, r.pieces ++ after.flatMap Row.pieces = p :: ps :=
      List.exists_cons_of_ne_nil (by simp [Row.pieces])
    rw [EndVisibly, hpieces, hp] at hends
    exact (List.isChain_append.mp hends).2.2 q.last (by simp) p (by simp)
  · have hchain := m.grouped_moduleRows.2
    rw [h] at hchain
    exact (List.isChain_append_cons_cons.mp hchain).2.1

/-- Looking back from a statement, the scan passes the doc comments of its row
    and stops there. -/
theorem attachedStart_eq (hm : m.Readable) {before after : List Row} {r : Row}
    (h : m.rows = before ++ r :: after) :
    attachedStart m.source (m.nodeAt before r).start (m.nodeAt before r).place.before =
      size (m.lead ++ rowsText before) := by
  have hsource : m.source = encodeChars (m.lead ++ rowsText before ++ piecesText r.docs ++
      (r.last.tree.spell ++ (r.last.gap ++ rowsText after))) := by
    have hsource : m.source = encodeChars m.chars := hm
    rw [hsource, chars_rows, h, rowsText_append, rowsText_cons]
    simp
  have hdocs := attachedStart_docs (m.lead ++ rowsText before)
    (r.last.tree.spell ++ (r.last.gap ++ rowsText after)) r.docs
    (sitesFrom (size m.lead) [] (before.flatMap Row.pieces))
    (m.grouped_moduleRows.1 r (by rw [h]; simp))
  rw [← hsource, size_append] at hdocs
  show attachedStart m.source (size m.lead + size (rowsText before) + size (piecesText r.docs))
    (sitesFrom _ (sitesFrom (size m.lead) [] (before.flatMap Row.pieces)) r.docs) = _
  -- The search stops behind the doc comments of the row: what ends the row before is none.
  rw [hdocs, size_append]
  rcases List.eq_nil_or_concat before with rfl | ⟨before, q, rfl⟩
  · rfl
  · rw [List.concat_eq_append] at *
    have hq := (row_before hm (by rw [h]; simp : m.rows = before ++ q :: r :: after)).2
    have hcons := attachedStart_cons (m.lead ++ rowsText before ++ piecesText q.docs) q.last
      (piecesText r.docs ++ (r.last.tree.spell ++ (r.last.gap ++ rowsText after)))
      (sitesFrom (size m.lead) [] (before.flatMap Row.pieces ++ q.docs))
    rw [hq, if_neg (by simp)] at hcons
    have htext : m.lead ++ rowsText before ++ piecesText q.docs ++ q.last.text ++
        (piecesText r.docs ++ (r.last.tree.spell ++ (r.last.gap ++ rowsText after))) =
        m.lead ++ rowsText (before ++ [q]) ++ piecesText r.docs ++
          (r.last.tree.spell ++ (r.last.gap ++ rowsText after)) := by
      rw [rowsText_append, rowsText_cons]
      simp [Piece.text]
    have hsize : size (m.lead ++ rowsText before ++ piecesText q.docs) + size q.last.text =
        size m.lead + size (rowsText (before ++ [q])) := by
      rw [rowsText_append, rowsText_cons]
      simp [Piece.text, Nat.add_assoc]
    rw [htext, ← hsource, hsize] at hcons
    have hsites : sitesFrom (size m.lead) [] ((before ++ [q]).flatMap Row.pieces) =
        ⟨q.last.tree, size (m.lead ++ rowsText before ++ piecesText q.docs)⟩ ::
          sitesFrom (size m.lead) [] (before.flatMap Row.pieces ++ q.docs) := by
      have hpieces : (before ++ [q]).flatMap Row.pieces =
          (before.flatMap Row.pieces ++ q.docs) ++ [q.last] := by
        simp [Row.pieces]
      rw [hpieces, sitesFrom_append]
      simp [sitesFrom, rowsText]
    rw [hsites, hcons]

/-- What goes away with a statement is its row, with the blanks before it on its
    line and the rest of the line after it. -/
theorem removeStatement_eq (hm : m.Readable) {before after : List Row} {r : Row}
    (h : m.rows = before ++ r :: after) :
    m.removeStatement (m.nodeAt before r) =
      ⟨(size m.lead + size (rowsText before) -
          size (cutBefore (m.gapAfter before).1 (m.gapAfter before).2) : Nat),
        (size m.lead + size (rowsText before) + size (piecesText r.docs ++ r.last.tree.spell) +
          size (lineRest r.last.gap) : Nat), ""⟩ := by
  have hsource : m.source = encodeChars m.chars := hm
  have hchars : m.chars = m.lead ++ rowsText before ++
      (piecesText r.docs ++ (r.last.tree.spell ++ (r.last.gap ++ rowsText after))) := by
    rw [chars_rows, h, rowsText_append, rowsText_cons]
    simp
  -- The start takes back over the blanks in front of the first attached comment.
  have hstart : lineStartIfBlank m.source (size (m.lead ++ rowsText before)) =
      size (m.lead ++ rowsText before) -
        size (cutBefore (m.gapAfter before).1 (m.gapAfter before).2) := by
    rcases List.eq_nil_or_concat before with rfl | ⟨before, q, rfl⟩
    · rw [hsource, hchars]
      simpa [gapAfter] using @lineStart_row true [] m.lead
        (piecesText r.docs ++ (r.last.tree.spell ++ (r.last.gap ++ rowsText after)))
        (Or.inl ⟨rfl, rfl⟩)
    · rw [List.concat_eq_append] at *
      have hq := (row_before hm (by rw [h]; simp : m.rows = before ++ q :: r :: after)).1
      have hline := @lineStart_row false
        (m.lead ++ rowsText before ++ piecesText q.docs ++ q.last.tree.spell) q.last.gap
        (piecesText r.docs ++ (r.last.tree.spell ++ (r.last.gap ++ rowsText after)))
        (Or.inr ⟨rfl, hq.prepend _⟩)
      have htext : m.lead ++ rowsText (before ++ [q]) =
          m.lead ++ rowsText before ++ piecesText q.docs ++ q.last.tree.spell ++ q.last.gap := by
        rw [rowsText_append, rowsText_cons]
        simp
      rw [hsource, hchars, gapAfter_concat, htext]
      exact hline
  -- The stop goes on to the end of the line.
  have hstop : lineRestEnd m.source (m.nodeAt before r).stop =
      size m.lead + size (rowsText before) + size (piecesText r.docs ++ r.last.tree.spell) +
        size (lineRest r.last.gap) := by
    obtain ⟨-, hclear, -⟩ := pieces_spec hm
    have hafter : rowsText after = [] ∨ StartsVisibly (rowsText after) := by
      refine startsVisibly_piecesText fun p hp => hclear p ?_
      rw [← flatMap_rows, h, List.flatMap_append, List.flatMap_cons]
      simp only [List.mem_append]
      exact Or.inr (Or.inr hp)
    have hline := @lineStop_row
      (m.lead ++ rowsText before ++ piecesText r.docs ++ r.last.tree.spell) r.last.gap _ hafter
    have hplace : (m.nodeAt before r).stop =
        size (m.lead ++ rowsText before ++ piecesText r.docs ++ r.last.tree.spell) := by
      rw [Node.stop_eq]
      show size m.lead + size (rowsText before) + size (piecesText r.docs) +
        size r.last.tree.spell = _
      simp [Nat.add_assoc]
    rw [hplace, hsource, hchars]
    simpa [Nat.add_assoc] using hline
  show (⟨_, _, ""⟩ : Edit) = _
  rw [attachedStart_eq hm h, hstart, hstop, size_append]

end Module

end ComponentDecl
