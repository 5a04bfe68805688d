import ComponentDecl.Proofs.Syntax.TopLevel
import ComponentDecl.Proofs.Module.Weave
import Mathlib.Data.List.Chain

/-! # Trees and the gaps between them

    The trees below a node stand one after the other with white space between
    them.  A piece is such a tree with the gap after it, so the text of a node
    is its first gap and its pieces, and the place of each tree is the size of
    all that stands before it.

    Key theorems:
    - `spellAll_eq`, `placesFrom_eq`: texts and places, piece by piece
    - `Module.pieces_spec`: what the pieces of a whole module look like
    - `pieces_unique`: a text and its trees leave no choice of the gaps
-/

namespace ComponentDecl

open Syntax Text

namespace Syntax

/-! ### Pieces -/

/-- A tree with the white space after it. -/
structure Piece where
  tree : Tree
  gap : List Char

/-- The characters of a piece. -/
def Piece.text (p : Piece) : List Char := p.tree.spell ++ p.gap

/-- The characters of neighbouring pieces. -/
def piecesText (ps : List Piece) : List Char := ps.flatMap Piece.text

@[simp] theorem piecesText_nil : piecesText [] = [] := rfl

@[simp] theorem piecesText_cons (p : Piece) (ps : List Piece) :
    piecesText (p :: ps) = p.tree.spell ++ (p.gap ++ piecesText ps) := by
  simp [piecesText, Piece.text]

@[simp] theorem piecesText_append (ps qs : List Piece) :
    piecesText (ps ++ qs) = piecesText ps ++ piecesText qs := by
  simp [piecesText]

/-- The white space before the first of neighbouring trees. -/
def leadGap : List Tree → List Char
  | [] => []
  | t :: ts => if t.kind = .blank then t.spell ++ leadGap ts else []

/-- Neighbouring trees with the white space after each. -/
def pieces : List Tree → List Piece
  | [] => []
  | t :: ts => if t.kind = .blank then pieces ts else ⟨t, leadGap ts⟩ :: pieces ts

theorem spellAll_eq (ts : List Tree) :
    Tree.spellAll ts = leadGap ts ++ piecesText (pieces ts) := by
  induction ts with
  | nil => rfl
  | cons t ts ih =>
    by_cases h : t.kind = .blank
    · simp [leadGap, pieces, h, ih]
    · simp [leadGap, pieces, h, ih]

theorem pieces_trees (ts : List Tree) :
    (pieces ts).map (·.tree) = ts.filter (·.kind ≠ .blank) := by
  induction ts with
  | nil => rfl
  | cons t ts ih =>
    by_cases h : t.kind = .blank
    · simp [pieces, h, ih]
    · simp [pieces, h, ih]

/-- A tree with trees below it spells what these spell. -/
theorem Tree.spell_of_children {t : Tree} (h : t.children ≠ []) :
    t.spell = Tree.spellAll t.children := by
  cases t with
  | token r k text => exact absurd rfl h
  | node r k ts => exact Tree.spell_node r k ts

/-! ### Places -/

theorem width_eq (t : Tree) : t.width = size t.spell := by
  unfold Tree.width size
  induction t.spell with
  | nil => rfl
  | cons c cs ih => simp [ih, String.length_utf8EncodeChar]

/-- The sites of pieces that start at an offset, put before `before`, the
    nearest first. -/
def sitesFrom (offset : Nat) (before : List Site) : List Piece → List Site
  | [] => before
  | p :: ps => sitesFrom (offset + size p.text) (⟨p.tree, offset⟩ :: before) ps

/-- The places of the trees of pieces that start at an offset. -/
def piecePlaces (offset : Nat) (before : List Site) : List Piece → List Place
  | [] => []
  | p :: ps =>
    ⟨⟨p.tree, offset⟩, before⟩ ::
      piecePlaces (offset + size p.text) (⟨p.tree, offset⟩ :: before) ps

theorem placesFrom_eq (offset : Nat) (before : List Site) (ts : List Tree) :
    Node.placesFrom offset before ts =
      piecePlaces (offset + size (leadGap ts)) before (pieces ts) := by
  induction ts generalizing offset before with
  | nil => rfl
  | cons t ts ih =>
    by_cases h : t.kind = .blank
    · simp only [Node.placesFrom, leadGap, pieces, if_pos h, ih, width_eq, size_append]
      rw [Nat.add_assoc]
    · simp only [Node.placesFrom, leadGap, pieces, if_neg h, ih, width_eq, piecePlaces,
        Piece.text, size_append, size_nil]
      rw [Nat.add_zero, Nat.add_assoc]

theorem piecePlaces_append (offset : Nat) (before : List Site) (ps qs : List Piece) :
    piecePlaces offset before (ps ++ qs) =
      piecePlaces offset before ps ++
        piecePlaces (offset + size (piecesText ps)) (sitesFrom offset before ps) qs := by
  induction ps generalizing offset before with
  | nil => rfl
  | cons p ps ih =>
    simp only [List.cons_append, piecePlaces, sitesFrom, ih, piecesText_cons, Piece.text,
      size_append, Nat.add_assoc]

theorem sitesFrom_append (offset : Nat) (before : List Site) (ps qs : List Piece) :
    sitesFrom offset before (ps ++ qs) =
      sitesFrom (offset + size (piecesText ps)) (sitesFrom offset before ps) qs := by
  induction ps generalizing offset before with
  | nil => rfl
  | cons p ps ih =>
    simp only [List.cons_append, sitesFrom, ih, piecesText_cons, Piece.text, size_append,
      Nat.add_assoc]

theorem piecePlaces_trees (offset : Nat) (before : List Site) (ps : List Piece) :
    (piecePlaces offset before ps).map (·.site.tree) = ps.map (·.tree) := by
  induction ps generalizing offset before with
  | nil => rfl
  | cons p ps ih => simp [piecePlaces, ih]

/-- The nodes below a node are the trees of its pieces at their places. -/
theorem Node.children_eq (n : Node) :
    n.children = (piecePlaces (n.start + size (leadGap n.tree.children)) []
      (pieces n.tree.children)).map fun p => ⟨p, n.place :: n.above⟩ := by
  rw [Node.children, placesFrom_eq]

end Syntax

/-! ### Gaps -/

/-- White space, as the grammar has it. -/
def Spaces (cs : List Char) : Prop := ∀ c ∈ cs, Lexeme.isSpace c = true

@[simp] theorem spaces_nil : Spaces [] := nofun

@[simp] theorem spaces_append {cs ds : List Char} :
    Spaces (cs ++ ds) ↔ Spaces cs ∧ Spaces ds := by
  simp only [Spaces, List.mem_append, or_imp, forall_and]

theorem Spaces.of_suffix {cs ds : List Char} (h : Spaces ds) (hs : cs <:+ ds) : Spaces cs :=
  fun c hc => h c (hs.subset hc)

/-- A piece with a tree that starts visibly, and white space after it. -/
def Syntax.Piece.Clear (p : Piece) : Prop :=
  p.tree.kind ≠ .blank ∧ StartsVisibly p.tree.spell ∧ Spaces p.gap

/-- White space before a visible text ends where the text starts. -/
theorem spaces_unique {g g' s s' : List Char} (hg : Spaces g) (hg' : Spaces g')
    (hs : s = [] ∨ StartsVisibly s) (hs' : s' = [] ∨ StartsVisibly s')
    (h : g ++ s = g' ++ s') : g = g' ∧ s = s' := by
  have key : ∀ {g s : List Char}, Spaces g → s = [] ∨ StartsVisibly s →
      (g ++ s).takeWhile Lexeme.isSpace = g := by
    intro g s hg hs
    rw [List.takeWhile_append_of_pos hg]
    rcases hs with rfl | ⟨c, rest, rfl, hc⟩
    · simp
    · rw [List.takeWhile_cons_of_neg (by simp [hc]), List.append_nil]
  obtain rfl : g = g' := by rw [← key hg hs, h, key hg' hs']
  exact ⟨rfl, List.append_cancel_left h⟩

theorem startsVisibly_piecesText {ps : List Piece} (h : ∀ p ∈ ps, p.Clear) :
    piecesText ps = [] ∨ StartsVisibly (piecesText ps) := by
  cases ps with
  | nil => exact Or.inl rfl
  | cons p ps =>
    rw [piecesText_cons]
    exact Or.inr ((h p (by simp)).2.1.append _)

/-- A text and the trees in it leave no choice of the gaps. -/
theorem pieces_unique {g g' : List Char} {ps ps' : List Piece} (hg : Spaces g) (hg' : Spaces g')
    (hps : ∀ p ∈ ps, p.Clear) (hps' : ∀ p ∈ ps', p.Clear)
    (htrees : ps.map (·.tree) = ps'.map (·.tree))
    (htext : g ++ piecesText ps = g' ++ piecesText ps') : g = g' ∧ ps = ps' := by
  obtain ⟨rfl, hbody⟩ := spaces_unique hg hg' (startsVisibly_piecesText hps)
    (startsVisibly_piecesText hps') htext
  refine ⟨rfl, ?_⟩
  clear htext
  induction ps generalizing ps' with
  | nil => exact (List.map_eq_nil_iff.mp htrees.symm).symm
  | cons p ps ih =>
    cases ps' with
    | nil => simp at htrees
    | cons q ps' =>
      rw [List.map_cons, List.map_cons, List.cons.injEq] at htrees
      rw [piecesText_cons, piecesText_cons, htrees.1] at hbody
      have hps := List.forall_mem_cons.mp hps
      have hps' := List.forall_mem_cons.mp hps'
      obtain ⟨hgap, hrest⟩ := spaces_unique hps.1.2.2 hps'.1.2.2
        (startsVisibly_piecesText hps.2) (startsVisibly_piecesText hps'.2)
        (List.append_cancel_left hbody)
      rw [ih hps.2 hps'.2 htrees.2 hrest]
      cases p
      cases q
      simp_all

/-! ### Whole modules -/

theorem spaces_leadGap {ts : List Tree} (h : ∀ t ∈ ts, t.kind = .blank → Spaces t.spell) :
    Spaces (leadGap ts) := by
  induction ts with
  | nil => exact spaces_nil
  | cons t ts ih =>
    have h := List.forall_mem_cons.mp h
    unfold leadGap
    split
    · next hblank => exact spaces_append.mpr ⟨h.1 hblank, ih h.2⟩
    · exact spaces_nil

theorem clear_pieces {ts : List Tree} (h : ∀ t ∈ ts, t.kind = .blank → Spaces t.spell)
    (hstarts : ∀ t ∈ ts, t.kind ≠ .blank → StartsVisibly t.spell) :
    ∀ p ∈ Syntax.pieces ts, p.Clear := by
  induction ts with
  | nil => nofun
  | cons t ts ih =>
    have h := List.forall_mem_cons.mp h
    have hstarts := List.forall_mem_cons.mp hstarts
    unfold Syntax.pieces
    split
    · exact ih h.2 hstarts.2
    · next hblank =>
      exact List.forall_mem_cons.mpr
        ⟨⟨hblank, hstarts.1 hblank, spaces_leadGap h.2⟩, ih h.2 hstarts.2⟩

/-- All trees but the last one end visibly. -/
def EndVisibly (ps : List Piece) : Prop :=
  ps.IsChain fun p _ => EndsVisibly p.tree.spell

namespace Module

/-- The characters of a module. -/
def chars (m : Module) : List Char := m.tree.spell

/-- The white space at the start of a module. -/
def lead (m : Module) : List Char := leadGap m.tree.children

/-- The trees of a module with the white space after each. -/
def pieces (m : Module) : List Piece := Syntax.pieces m.tree.children

/-- Holds of a module whose bytes are those of a text. -/
def Readable (m : Module) : Prop := m.source = encodeChars m.chars

theorem tree_of_source {m : Module} {cs : List Char} (h : m.source = encodeChars cs) :
    m.tree = parse cs := by
  rw [m.tree_eq, readSource, h, decodeChars_encodeChars]

theorem chars_of_source {m : Module} {cs : List Char} (h : m.source = encodeChars cs) :
    m.chars = cs := by
  rw [chars, tree_of_source h, spell_parse]

theorem readable_of_source {m : Module} {cs : List Char} (h : m.source = encodeChars cs) :
    m.Readable := by
  rw [Readable, chars_of_source h, h]

/-- A module is readable, or its tree is one fault. -/
theorem readable_or (m : Module) :
    m.Readable ∨ m.tree = .node none .program [.token none .error []] := by
  cases h : decodeChars m.source with
  | ok cs => exact Or.inl (readable_of_source (encodeChars_of_decodeChars h).symm)
  | error e =>
    refine Or.inr ?_
    rw [m.tree_eq, readSource, h]

theorem tree_eq_node (m : Module) : ∃ ts, m.tree = .node none .program ts := by
  rw [m.tree_eq]
  unfold readSource parse
  split
  · split <;> exact ⟨_, rfl⟩
  · exact ⟨_, rfl⟩

theorem chars_eq (m : Module) : m.chars = m.lead ++ piecesText m.pieces := by
  obtain ⟨ts, hts⟩ := m.tree_eq_node
  rw [chars, lead, pieces, hts, Tree.spell_node, spellAll_eq]
  rfl

/-- The pieces of a readable module start visibly, have white space between
    them, and end visibly; a fault at the end may do otherwise. -/
theorem pieces_spec {m : Module} (hm : m.Readable) :
    Spaces m.lead ∧ (∀ p ∈ m.pieces, p.Clear) ∧ EndVisibly m.pieces := by
  obtain ⟨trees, faults, hchildren, htrees, hfaults⟩ := parse_children m.chars
  have hall : ∀ t ∈ trees ++ faults,
      (t.kind = .blank → Spaces t.spell) ∧ (t.kind ≠ .blank → StartsVisibly t.spell) := by
    intro t ht
    rcases List.mem_append.mp ht with ht | ht
    · rcases (htrees t ht).1 with ⟨text, rfl, htext⟩ | ⟨hkind, hstarts, -⟩
      · exact ⟨fun _ => by rwa [Tree.spell_token], fun h => absurd rfl h⟩
      · exact ⟨fun h => absurd h hkind, fun _ => hstarts⟩
    · rcases hfaults with rfl | ⟨text, rfl, htext⟩
      · cases ht
      · rw [List.mem_singleton.mp ht]
        exact ⟨nofun, fun _ => by rwa [Tree.spell_token]⟩
  unfold lead pieces
  rw [tree_of_source hm, hchildren]
  refine ⟨spaces_leadGap fun t ht => (hall t ht).1,
    clear_pieces (fun t ht => (hall t ht).1) fun t ht => (hall t ht).2, ?_⟩
  -- Only the last piece may end with blanks, so this part is by induction on the trees.
  clear hchildren hall
  induction trees with
  | nil =>
    rcases hfaults with rfl | ⟨text, rfl, -⟩
    · exact List.isChain_nil
    · exact List.isChain_singleton _
  | cons t trees ih =>
    have htrees := List.forall_mem_cons.mp htrees
    rw [List.cons_append, Syntax.pieces]
    split
    · exact ih htrees.2
    · next hblank =>
      refine List.isChain_cons.mpr ⟨fun _ _ => ?_, ih htrees.2⟩
      rcases htrees.1.1 with ⟨text, rfl, -⟩ | ⟨-, -, hends⟩
      · exact absurd rfl hblank
      · exact hends

end Module

end ComponentDecl
