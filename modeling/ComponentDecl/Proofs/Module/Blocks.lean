import ComponentDecl.Proofs.Module.Reread

/-! # Blocks of rows

    On its way through several batches a module can be described by the rows
    that it had before them: each of those has become a block of rows.  A batch
    on one statement changes the block in which that statement stands.

    Key theorems:
    - `block_change`: what a batch on one statement makes of the blocks
    - `InBlocks.revise`, `InBlocks.remove`: the same for blocks with given trees
-/

namespace ComponentDecl

open Syntax

/-! ### Rows of trees -/

/-- The trees of rows, from left to right. -/
def flatRows (R : List (List Tree × Tree)) : List Tree := R.flatMap fun row => row.1 ++ [row.2]

@[simp] theorem flatRows_nil : flatRows [] = [] := rfl

@[simp] theorem flatRows_append (R Q : List (List Tree × Tree)) :
    flatRows (R ++ Q) = flatRows R ++ flatRows Q := List.flatMap_append

@[simp] theorem flatRows_cons (row : List Tree × Tree) (R : List (List Tree × Tree)) :
    flatRows (row :: R) = row.1 ++ row.2 :: flatRows R := by
  simp [flatRows]

theorem flatRows_flatMap {α : Type} (l : List α) (f : α → List (List Tree × Tree)) :
    flatRows (l.flatMap f) = l.flatMap fun a => flatRows (f a) := by
  induction l with
  | nil => rfl
  | cons a l ih => rw [List.flatMap_cons, flatRows_append, ih, List.flatMap_cons]

theorem flatRows_rows (rs : List Row) :
    flatRows (rs.map Row.trees) = (rs.flatMap Row.pieces).map (·.tree) := by
  induction rs with
  | nil => rfl
  | cons r rs ih =>
    rw [List.map_cons, flatRows_cons, ih, List.flatMap_cons, List.map_append]
    simp [Row.trees, Row.pieces]

theorem last_mem_flatRows {R : List (List Tree × Tree)} {row : List Tree × Tree} (h : row ∈ R) :
    row.2 ∈ flatRows R :=
  List.mem_flatMap.mpr ⟨row, h, by simp⟩

/-- The last tree of rows is that of the last row. -/
theorem flatRows_concat {R : List (List Tree × Tree)} {X : List Tree} {t : Tree}
    (h : flatRows R = X ++ [t]) :
    ∃ R' d, R = R' ++ [(d, t)] ∧ flatRows R' ++ d = X := by
  rcases List.eq_nil_or_concat R with rfl | ⟨R', row, rfl⟩
  · simp at h
  · rw [List.concat_eq_append, flatRows_append, flatRows_cons, flatRows_nil,
    ← List.append_assoc] at h
    obtain ⟨hX, ht⟩ := List.append_inj' h rfl
    refine ⟨R', row.1, ?_, hX⟩
    rw [List.concat_eq_append, ← List.singleton_inj.mp ht]

/-- What a change leaves of a row are the doc comments of the row and the trees in
    the place of the statement. -/
theorem flatRows_revised (r : Row) (ts : List Tree) (edits : List Edit) (es : List Expected) :
    flatRows (r.revised ts (some (.becomes edits es))) = r.docs.map (·.tree) ++ ts := by
  rw [Row.revised, flatRows_rows, rows_pieces, List.map_append, lined_trees]

/-- A list is split at the first element with a property in one way only. -/
theorem first_unique {α : Type} {p : α → Bool} {l l' r r' : List α} {a a' : α}
    (h : l ++ a :: r = l' ++ a' :: r') (hl : ∀ b ∈ l, p b = false) (ha : p a = true)
    (hl' : ∀ b ∈ l', p b = false) (ha' : p a' = true) : l = l' ∧ a = a' ∧ r = r' := by
  induction l generalizing l' with
  | nil =>
    cases l' with
    | nil => exact ⟨rfl, (List.cons.inj h).1, (List.cons.inj h).2⟩
    | cons b l' =>
      have hb := (List.forall_mem_cons.mp hl').1
      rw [← (List.cons.inj h).1, ha] at hb
      cases hb
  | cons b l ih =>
    have hl := List.forall_mem_cons.mp hl
    cases l' with
    | nil =>
      have hb := hl.1
      rw [(List.cons.inj h).1, ha'] at hb
      cases hb
    | cons b' l' =>
      obtain ⟨rfl, hrest⟩ := List.cons.inj h
      obtain ⟨rfl, hsame⟩ := ih hrest hl.2 (List.forall_mem_cons.mp hl').2
      exact ⟨rfl, hsame⟩

/-- A list is split at its only element with a property in one way only. -/
theorem only_unique {α : Type} {p : α → Bool} {l l' r r' : List α} {a a' : α}
    (h : l ++ a :: r = l' ++ a' :: r') (hl : ∀ b ∈ l, p b = false) (hr : ∀ b ∈ r, p b = false)
    (ha' : p a' = true) : l = l' ∧ a = a' ∧ r = r' := by
  have hno : ∀ s : List α, (∀ b ∈ s, p b = false) → a' ∉ s := by
    intro s hs hmem
    rw [hs a' hmem] at ha'
    cases ha'
  rcases List.append_eq_append_iff.mp h with ⟨more, rfl, hmore⟩ | ⟨more, rfl, hmore⟩
  · cases more with
    | nil =>
      obtain ⟨rfl, rfl⟩ := List.cons.inj hmore
      exact ⟨by simp, rfl, rfl⟩
    | cons b more =>
      obtain ⟨-, rfl⟩ := List.cons.inj hmore
      exact absurd (by simp) (hno _ hr)
  · cases more with
    | nil =>
      obtain ⟨rfl, rfl⟩ := List.cons.inj hmore
      exact ⟨by simp, rfl, rfl⟩
    | cons b more =>
      obtain ⟨rfl, -⟩ := List.cons.inj hmore
      exact absurd (by simp) (hno _ hl)

namespace Module

variable {m m' : Module}

/-- The rows of a module as trees. -/
def treeRows (m : Module) : List (List Tree × Tree) := m.rows.map Row.trees

theorem nodes_treeRows (m : Module) : m.tree.nodes = flatRows m.treeRows := by
  rw [treeRows, flatRows_rows, flatMap_rows, pieces, pieces_trees]
  rfl

theorem treeRows_located (m : Module) : m.treeRows = m.located.map fun rn => rn.1.trees := by
  rw [treeRows, ← located_rows, List.map_map]
  rfl

theorem trees_located {rn : Row × Node} (h : rn ∈ m.located) :
    rn.1.trees = (rn.1.docs.map (·.tree), rn.2.tree) := by
  rw [← last_tree h]
  rfl

/-- No row before the first statement with a property has it. -/
theorem first_of_located (hm : m.Readable) {p : Node → Bool} {stmt : Node}
    (hfind : m.statements.find? p = some stmt) {rn : Row × Node} (hrn : rn ∈ m.located)
    (hpart : p rn.2 = true → rn.2.tree.isPart = true) (hlt : rn.2.start < stmt.start) :
    p rn.2 = false := by
  by_contra hp
  rw [Bool.not_eq_false] at hp
  have hrising := m.statements_rising hm
  obtain ⟨-, before, after, hsplit, hbefore⟩ := List.find?_eq_some_iff_append.mp hfind
  have hmem := m.mem_statements_of_located hrn (hpart hp)
  rw [hsplit] at hmem hrising
  rcases List.mem_append.mp hmem with h | h
  · have := hbefore _ h
    rw [hp] at this
    cases this
  · have hafter := (List.pairwise_cons.mp (List.pairwise_append.mp hrising).2.1).1
    rcases List.mem_cons.mp h with h | h
    · rw [h] at hlt
      exact absurd hlt (Nat.lt_irrefl _)
    · have := hafter _ h
      omega

/-- The row of the first statement with a property. -/
theorem located_first {p : Tree → Bool} (hp : ∀ t, p t = true → t.isPart = true) {stmt : Node}
    (hfind : m.statements.find? (fun n => p n.tree) = some stmt) :
    ∃ l r l', m.located = l ++ (r, stmt) :: l' ∧ p stmt.tree = true ∧
      ∀ rn ∈ l, p rn.2.tree = false := by
  have hnodes : (m.located.map (·.2)).find? (fun n => p n.tree) = some stmt := by
    rw [statements_eq, List.find?_filter] at hfind
    rw [← hfind]
    congr 1
    funext n
    cases h : p n.tree with
    | true => simp [hp _ h]
    | false => simp
  rw [List.find?_map, Option.map_eq_some_iff] at hnodes
  obtain ⟨⟨r, n⟩, hrn, rfl⟩ := hnodes
  obtain ⟨hpn, l, l', hsplit, hl⟩ := List.find?_eq_some_iff_append.mp hrn
  exact ⟨l, r, l', hsplit, hpn, fun rn h => by simpa using hl rn h⟩

/-- Where the last tree of a row has a property, a statement has it. -/
theorem exists_first_of_row {p : Tree → Bool} (hp : ∀ t, p t = true → t.isPart = true)
    {row : List Tree × Tree} (hrow : row ∈ m.treeRows) (ht : p row.2 = true) :
    ∃ stmt, m.statements.find? (fun n => p n.tree) = some stmt := by
  rw [treeRows_located] at hrow
  obtain ⟨rn, hrn, rfl⟩ := List.mem_map.mp hrow
  rw [show rn.1.trees.2 = rn.2.tree from last_tree hrn] at ht
  exact Option.isSome_iff_exists.mp
    (List.find?_isSome.mpr ⟨rn.2, m.mem_statements_of_located hrn (hp _ ht), ht⟩)

/-- The first statement with a property, found among rows of trees. -/
theorem located_of_treeRows {p : Tree → Bool} (hp : ∀ t, p t = true → t.isPart = true)
    {stmt : Node} (hfind : m.statements.find? (fun n => p n.tree) = some stmt)
    {A B : List (List Tree × Tree)} {row : List Tree × Tree} (hrows : m.treeRows = A ++ row :: B)
    (hA : ∀ a ∈ A, p a.2 = false) (hrow : p row.2 = true) :
    ∃ l r l', m.located = l ++ (r, stmt) :: l' ∧ (l.map fun rn => rn.1.trees) = A ∧
      r.trees = row ∧ (l'.map fun rn => rn.1.trees) = B := by
  obtain ⟨l, r, l', hsplit, hstmt, hl⟩ := located_first hp hfind
  refine ⟨l, r, l', hsplit, ?_⟩
  have hlast : ∀ rn ∈ m.located, rn.1.trees.2 = rn.2.tree := fun rn h => last_tree h
  rw [treeRows_located, hsplit, List.map_append, List.map_cons] at hrows
  refine first_unique (p := fun row => p row.2) hrows (fun b hb => ?_) ?_ hA hrow
  · obtain ⟨rn, hrn, rfl⟩ := List.mem_map.mp hb
    rw [hlast rn (by rw [hsplit]; simp [hrn])]
    exact hl rn hrn
  · rw [hlast (r, stmt) (by rw [hsplit]; simp)]
    exact hstmt

/-! ### A batch on one statement -/

/-- A change that fits at its statement fits at every row. -/
theorem changeAt_fits (hm : m.Readable) {stmt : Node} (hstmt : stmt ∈ m.statements)
    {change : Change} (hfits : change.FitsAt stmt) :
    ∀ rn ∈ m.located, ∀ c, changeAt stmt change rn.2 = some c → c.FitsAt rn.2 := by
  intro rn h c hc
  unfold changeAt at hc
  split at hc
  · next hstart =>
    obtain rfl := Option.some.inj hc
    rw [m.node_eq_of_start hm h hstmt hstart]
    exact hfits
  · cases hc

/-- A batch on one statement revises its row and leaves the others. -/
theorem treeRows_changeAt (hm : m.Readable) {l l' : List (Row × Node)} {r : Row} {stmt : Node}
    (hsplit : m.located = l ++ (r, stmt) :: l') (hstmt : stmt ∈ m.statements) {change : Change}
    (hfits : change.FitsAt stmt) (hrising : Rising (m.changeEdits stmt (some change)))
    (happly : m.applyEdits (m.changeEdits stmt (some change)) = .ok m')
    (hlocal : m'.RereadsAs (m.expect (changeAt stmt change))) :
    m'.Readable ∧ ∃ ts, (∀ edits es,
      change = .becomes edits es → List.Forall₂ Expected.Reads es ts) ∧
      m'.treeRows = (l.map fun rn => rn.1.trees) ++ r.revised ts (some change) ++
        (l'.map fun rn => rn.1.trees) := by
  have hrn : (r, stmt) ∈ m.located := by rw [hsplit]; simp
  have hedits := m.editsOf_changeAt hm hstmt change
  have hall := m.changeAt_fits hm hstmt hfits
  obtain ⟨hreadable, -⟩ := m.nodes_changes hm hall (by rw [hedits]; exact hrising)
    (.of_eq hedits.symm) happly hlocal
  obtain ⟨trees, htrees, hrows⟩ := m.rows_changes hm hall (by rw [hedits]; exact hrising)
    (.of_eq hedits.symm) happly hlocal
  have hat : changeAt stmt change stmt = some change := if_pos rfl
  refine ⟨hreadable, trees stmt, fun edits es h => ?_, ?_⟩
  · exact htrees (r, stmt) hrn edits es (by rw [hat, h])
  have hrising := m.located_rising hm
  rw [hsplit] at hrising
  obtain ⟨-, hcons, hbefore⟩ := List.pairwise_append.mp hrising
  have hafter := (List.pairwise_cons.mp hcons).1
  -- Starts tell the statements apart, so the rows on both sides stay as they are.
  have hstays : ∀ q : List (Row × Node), (∀ rn ∈ q, rn.2.start ≠ stmt.start) →
      q.flatMap (fun rn => rn.1.revised (trees rn.2) (changeAt stmt change rn.2)) =
        q.map fun rn => rn.1.trees := by
    intro q hq
    rw [List.map_eq_flatMap]
    refine List.flatMap_congr fun rn hrn => ?_
    rw [changeAt, if_neg (hq rn hrn)]
    rfl
  rw [treeRows, hrows, hsplit, List.flatMap_append, List.flatMap_cons, hat, hstays l, hstays l',
    List.append_assoc]
  · exact fun rn hrn => Nat.ne_of_gt (hafter rn hrn)
  · exact fun rn hrn => Nat.ne_of_lt (hbefore rn hrn (r, stmt) (by simp))

end Module

/-- The fates of rows if all rows stay but that of the first statement that a
    question picks. -/
theorem Module.fates_first {m : Module} (hm : m.Readable) {p : Tree → Bool}
    (hp : ∀ t, p t = true → t.isPart = true) {stmt : Node}
    (hfind : m.statements.find? (fun k => p k.tree) = some stmt) {f : Node → Option Fate}
    (hf : ∀ k, k.start ≠ stmt.start → f k = none) :
    ∃ before r after, m.rows = before ++ r :: after ∧ (r, stmt) ∈ m.located ∧
      p r.last.tree = true ∧ (∀ q ∈ before, p q.last.tree = false) ∧
      m.fates f = before.map (fun q => (q, q.stays)) ++ (r, (f stmt).getD r.stays) ::
        after.map fun q => (q, q.stays) := by
  obtain ⟨l, r, l', hsplit, hstmt, hl⟩ := m.located_first hp hfind
  have hlast : ∀ rn ∈ m.located, p rn.1.last.tree = p rn.2.tree := fun rn hrn =>
    congrArg p (last_tree hrn)
  -- Starts rise, so no other node starts where this one does.
  obtain ⟨-, hcons, hbefore⟩ := List.pairwise_append.mp (hsplit ▸ m.located_rising hm)
  have hafter := (List.pairwise_cons.mp hcons).1
  have hstays : ∀ rs : List (Row × Node), (∀ rn ∈ rs, rn.2.start ≠ stmt.start) →
      rs.map (fun rn => (rn.1, (f rn.2).getD rn.1.stays)) =
        (rs.map (·.1)).map fun q => (q, q.stays) := by
    intro rs hrs
    rw [List.map_map]
    refine List.map_congr_left fun rn hrn => ?_
    rw [hf _ (hrs rn hrn)]
    rfl
  have hin : (r, stmt) ∈ m.located := by
    rw [hsplit]
    exact List.mem_append_right _ (.head _)
  refine ⟨l.map (·.1), r, l'.map (·.1), ?_, hin, (hlast _ hin).trans hstmt, fun q hq => ?_, ?_⟩
  · rw [← m.located_rows, hsplit, List.map_append, List.map_cons]
  · obtain ⟨rn, hrn, rfl⟩ := List.mem_map.mp hq
    rw [hlast rn (by rw [hsplit]; exact List.mem_append_left _ hrn)]
    exact hl rn hrn
  · rw [fates, hsplit, List.map_append, List.map_cons, hstays l, hstays l']
    · exact fun rn hrn => Nat.ne_of_gt (hafter rn hrn)
    · exact fun rn hrn => Nat.ne_of_lt (hbefore rn hrn _ (.head _))

namespace Module

variable {m m' : Module}

/-- Holds of a batch that decides the fate of the first statement with a property and
    leaves the other rows. -/
def TurnsFirst (m : Module) (p : Tree → Bool) (stmt : Node) (fate : Fate) (m' : Module) : Prop :=
  ∃ before r after, m.rows = before ++ r :: after ∧ (r, stmt) ∈ m.located ∧
    p r.last.tree = true ∧ (∀ q ∈ before, p q.last.tree = false) ∧
    settled true m.lead m.lead (before.map (fun q => (q, q.stays)) ++ (r, fate) ::
      after.map fun q => (q, q.stays)) = (m'.lead, m'.rows)

theorem TurnsFirst.holds {p : Tree → Bool} {stmt : Node} {fate : Fate}
    (h : m.TurnsFirst p stmt fate m') : p stmt.tree = true := by
  obtain ⟨before, r, after, -, hr, hpr, -⟩ := h
  rwa [last_tree hr] at hpr

/-- A change of the first statement with a property decides its fate. -/
theorem turnsFirst_changeAt (hm : m.Readable) {p : Tree → Bool}
    (hp : ∀ t, p t = true → t.isPart = true) {stmt : Node}
    (hfind : m.statements.find? (fun n => p n.tree) = some stmt) {change : Change}
    (hfits : change.FitsAt stmt) (hrising : Rising (m.changeEdits stmt (some change)))
    (happly : m.applyEdits (m.changeEdits stmt (some change)) = .ok m')
    (hlocal : m'.RereadsAs (m.expect (changeAt stmt change))) :
    ∃ ts, (∀ edits es, change = .becomes edits es → List.Forall₂ Expected.Reads es ts) ∧
      m.TurnsFirst p stmt (change.fate ts) m' := by
  have hstmt := List.mem_of_find?_eq_some hfind
  have hedits := m.editsOf_changeAt hm hstmt change
  obtain ⟨trees, htrees, hlead, hrows⟩ := m.left_changes hm (m.changeAt_fits hm hstmt hfits)
    (by rw [hedits]; exact hrising) (.of_eq hedits.symm) happly hlocal
  have hat : changeAt stmt change stmt = some change := if_pos rfl
  have hother : ∀ k : Node, k.start ≠ stmt.start → fateOf (changeAt stmt change) trees k = none := by
    intro k hk
    rw [fateOf, changeAt, if_neg hk]
    rfl
  obtain ⟨before, r, after, hsplit, hr, hpr, hbefore, hfates⟩ := m.fates_first hm hp hfind hother
  have hfate : fateOf (changeAt stmt change) trees stmt = some (change.fate (trees stmt)) := by
    rw [fateOf, hat]
    rfl
  refine ⟨trees stmt, fun edits es h => htrees (r, stmt) hr edits es (by rw [hat, h]),
    before, r, after, hsplit, hr, hpr, hbefore, ?_⟩
  rw [left, hfates, hfate, Option.getD_some] at hlead hrows
  rw [hlead, hrows]

/-- No batch leaves the first statement with a property as well. -/
theorem turnsFirst_stays (hm : m.Readable) {p : Tree → Bool}
    (hp : ∀ t, p t = true → t.isPart = true) {stmt : Node}
    (hfind : m.statements.find? (fun n => p n.tree) = some stmt) :
    m.TurnsFirst p stmt (.turns [] [stmt.tree]) m := by
  obtain ⟨before, r, after, hsplit, hr, hpr, hbefore, -⟩ :=
    m.fates_first hm hp hfind fun _ _ => (rfl : (none : Option Fate) = none)
  have hlast : r.last.tree = stmt.tree := last_tree hr
  refine ⟨before, r, after, hsplit, hr, hpr, hbefore, ?_⟩
  have hdocs := m.grouped_moduleRows.1
  rw [hsplit] at hdocs
  have hleft := settled_stays hdocs true m.lead
  rw [List.map_append, List.map_cons, Row.stays, hlast] at hleft
  rw [hleft, hsplit]

/-- A batch that puts other trees in the place of the first statement with a property
    leaves the rows before it and after it, and all gaps. -/
theorem rows_becomes (hm : m.Readable) {p : Tree → Bool} (hp : ∀ t, p t = true → t.isPart = true)
    {stmt : Node} (hfind : m.statements.find? (fun n => p n.tree) = some stmt)
    {edits : List Edit} {es : List Expected} (hfits : (Change.becomes edits es).FitsAt stmt)
    (hrising : Rising edits) (happly : m.applyEdits edits = .ok m')
    (hlocal : m'.RereadsAs (m.expect (changeAt stmt (.becomes edits es)))) :
    ∃ before r after ts, m.rows = before ++ r :: after ∧ (r, stmt) ∈ m.located ∧
      p r.last.tree = true ∧ (∀ q ∈ before, p q.last.tree = false) ∧
      List.Forall₂ Expected.Reads es ts ∧ m'.lead = m.lead ∧
      m'.rows = before ++ ComponentDecl.rows (r.docs ++ lined ts r.last.gap) ++ after := by
  obtain ⟨ts, hts, before, r, after, hsplit, hr, hpr, hbefore, hleft⟩ :=
    turnsFirst_changeAt hm hp hfind hfits hrising happly hlocal
  have hdocs := m.grouped_moduleRows.1
  rw [hsplit, List.forall_mem_append, List.forall_mem_cons] at hdocs
  rw [Change.fate, settled_turn _ _ hdocs.1 hdocs.2.2, Prod.mk.injEq] at hleft
  exact ⟨before, r, after, ts, hsplit, hr, hpr, hbefore, hts _ _ rfl, hleft.1.symm, hleft.2.symm⟩

/-- The first statement with a property is found where the rows have it first. -/
theorem nodeAt_of_first {p : Tree → Bool} (hp : ∀ t, p t = true → t.isPart = true) {stmt : Node}
    (hfind : m.statements.find? (fun n => p n.tree) = some stmt) {A B : List Row} {row : Row}
    (hrows : m.rows = A ++ row :: B) (hA : ∀ a ∈ A, p a.last.tree = false)
    (hrow : p row.last.tree = true) : stmt = m.nodeAt A row := by
  obtain ⟨l, r, l', hsplit, hstmt, hl⟩ := located_first hp hfind
  obtain ⟨hrows', hnode⟩ := located_split hsplit
  have hlast : ∀ rn ∈ m.located, rn.1.last.tree = rn.2.tree := fun rn h => last_tree h
  have hbefore : ∀ a ∈ l.map (·.1), p a.last.tree = false := by
    intro a ha
    obtain ⟨rn, hrn, rfl⟩ := List.mem_map.mp ha
    rw [hlast rn (by rw [hsplit]; simp [hrn])]
    exact hl rn hrn
  have hr : p r.last.tree = true := by
    rw [hlast (r, stmt) (by rw [hsplit]; simp)]
    exact hstmt
  obtain ⟨hl', rfl, -⟩ := first_unique (p := fun row : Row => p row.last.tree)
    (hrows'.symm.trans hrows) hbefore hr hA hrow
  rw [hnode, hl']

end Module

/-! ### Blocks -/

/-- A batch on the first statement with a property changes the block of the row
    where that statement stands. -/
theorem block_change {m mₖ m' : Module} (hm : m.Readable) (hₖ : mₖ.Readable)
    {F : Row × Node → List (List Tree × Tree)} (hF : mₖ.treeRows = m.located.flatMap F)
    {p : Tree → Bool} (hp : ∀ t, p t = true → t.isPart = true) {stmt : Node}
    (hfind : mₖ.statements.find? (fun n => p n.tree) = some stmt)
    {at₀ : Row × Node} (hat : at₀ ∈ m.located)
    (hbefore : ∀ rn ∈ m.located, rn.2.start < at₀.2.start → ∀ t ∈ flatRows (F rn), p t = false)
    {X Y : List (List Tree × Tree)} {d : List Tree} {t : Tree} (hblock : F at₀ = X ++ (d, t) :: Y)
    (hX : ∀ row ∈ X, p row.2 = false) (ht : p t = true) {change : Change}
    (hfits : change.FitsAt stmt) (hrising : Rising (mₖ.changeEdits stmt (some change)))
    (happly : mₖ.applyEdits (mₖ.changeEdits stmt (some change)) = .ok m')
    (hlocal : m'.RereadsAs (mₖ.expect (Module.changeAt stmt change))) :
    m'.Readable ∧ ∃ (r : Row) (ts : List Tree)
      (F' : Row × Node → List (List Tree × Tree)), r.trees = (d, t) ∧
      (∀ edits es, change = .becomes edits es → List.Forall₂ Expected.Reads es ts) ∧
      m'.treeRows = m.located.flatMap F' ∧
      (∀ rn ∈ m.located, rn.2.start ≠ at₀.2.start → F' rn = F rn) ∧
      F' at₀ = X ++ r.revised ts (some change) ++ Y := by
  obtain ⟨before, after, hlocated⟩ := List.append_of_mem hat
  have hrising₀ := m.located_rising hm
  rw [hlocated] at hrising₀
  obtain ⟨-, hcons, hlt⟩ := List.pairwise_append.mp hrising₀
  have hgt := (List.pairwise_cons.mp hcons).1
  have hrows : mₖ.treeRows = (before.flatMap F ++ X) ++ (d, t) :: (Y ++ after.flatMap F) := by
    rw [hF, hlocated, List.flatMap_append, List.flatMap_cons, hblock]
    simp
  -- The first statement with the property ends the row that the block has it in.
  obtain ⟨l, r, l', hsplit, hl, hr, hl'⟩ := Module.located_of_treeRows hp hfind hrows
    (fun row hrow => by
      rcases List.mem_append.mp hrow with hrow | hrow
      · obtain ⟨rn, hrn, hrow⟩ := List.mem_flatMap.mp hrow
        exact hbefore rn (by rw [hlocated]; simp [hrn]) (hlt rn hrn at₀ (by simp)) row.2
          (last_mem_flatRows hrow)
      · exact hX row hrow) ht
  have hstmt : stmt ∈ mₖ.statements := List.mem_of_find?_eq_some hfind
  obtain ⟨hreadable, ts, hts, hrows'⟩ :=
    Module.treeRows_changeAt hₖ hsplit hstmt hfits hrising happly hlocal
  refine ⟨hreadable, r, ts,
    fun rn => if rn.2.start = at₀.2.start then X ++ r.revised ts (some change) ++ Y else F rn,
    hr, hts, ?_, fun rn _ hne => if_neg hne, if_pos rfl⟩
  -- Other blocks come from other rows, which start elsewhere.
  have hsame : ∀ q : List (Row × Node), (∀ rn ∈ q, rn.2.start ≠ at₀.2.start) →
      (q.flatMap fun rn => if rn.2.start = at₀.2.start then X ++ r.revised ts (some change) ++ Y
        else F rn) = q.flatMap F := by
    intro q hq
    exact List.flatMap_congr fun rn hrn => if_neg (hq rn hrn)
  rw [hrows', hl, hl', hlocated, List.flatMap_append, List.flatMap_cons, if_pos rfl, hsame before,
    hsame after]
  · simp
  · exact fun rn hrn => Nat.ne_of_gt (hgt rn hrn)
  · exact fun rn hrn => Nat.ne_of_lt (hlt rn hrn at₀ (by simp))

/-- A module in blocks, one for each row of another module.  Each block has given
    trees, and is the row itself where nothing was touched. -/
structure InBlocks (m mₖ : Module) (touched : Node → Prop) (B : Row × Node → List Tree) : Prop where
  readable : mₖ.Readable
  blocks : ∃ F : Row × Node → List (List Tree × Tree), mₖ.treeRows = m.located.flatMap F ∧
    (∀ rn ∈ m.located, flatRows (F rn) = B rn) ∧
    ∀ rn ∈ m.located, ¬ touched rn.2 → F rn = [rn.1.trees]

namespace InBlocks

variable {m mₖ m' : Module} {touched : Node → Prop} {B : Row × Node → List Tree}

theorem mono (h : InBlocks m mₖ touched B) {touched' : Node → Prop}
    (hmono : ∀ rn ∈ m.located, touched rn.2 → touched' rn.2) : InBlocks m mₖ touched' B := by
  obtain ⟨hₖ, F, hF, hflat, halone⟩ := h
  exact ⟨hₖ, F, hF, hflat, fun rn hrn hno => halone rn hrn fun h => hno (hmono rn hrn h)⟩

/-- The trees of a module in blocks. -/
theorem nodes (h : InBlocks m mₖ touched B) : mₖ.tree.nodes = m.located.flatMap B := by
  obtain ⟨-, F, hF, hflat, -⟩ := h
  rw [mₖ.nodes_treeRows, hF, flatRows_flatMap]
  exact List.flatMap_congr hflat

/-- Where the last tree of a block has a property, a statement has it. -/
theorem exists_first (h : InBlocks m mₖ touched B) {p : Tree → Bool}
    (hp : ∀ t, p t = true → t.isPart = true) {at₀ : Row × Node} (hat : at₀ ∈ m.located)
    {X : List Tree} {T : Tree} (hblock : B at₀ = X ++ [T]) (hT : p T = true) :
    ∃ stmt, mₖ.statements.find? (fun n => p n.tree) = some stmt := by
  obtain ⟨-, F, hF, hflat, -⟩ := h
  obtain ⟨R, d, hR, -⟩ := flatRows_concat ((hflat _ hat).trans hblock)
  have hrow : (d, T) ∈ mₖ.treeRows := by
    rw [hF]
    exact List.mem_flatMap.mpr ⟨_, hat, by rw [hR]; exact List.mem_append_right _ (.head _)⟩
  exact mₖ.exists_first_of_row hp hrow hT

variable {p : Tree → Bool} {stmt : Node} {at₀ : Row × Node} {T : Tree}

/-- The first statement with a property is what stands at the end of the first block
    in which a tree has it. -/
theorem tree_of_first (hm : m.Readable) (h : InBlocks m mₖ touched B)
    (hp : ∀ t, p t = true → t.isPart = true)
    (hfind : mₖ.statements.find? (fun n => p n.tree) = some stmt) (hat : at₀ ∈ m.located)
    (hbefore : ∀ rn ∈ m.located, rn.2.start < at₀.2.start → ∀ t ∈ B rn, p t = false)
    {X : List Tree} (hblock : B at₀ = X ++ [T]) (hX : ∀ t ∈ X, p t = false) (hT : p T = true) :
    stmt.tree = T := by
  obtain ⟨before, after, hlocated⟩ := List.append_of_mem hat
  have hrising := m.located_rising hm
  rw [hlocated] at hrising
  have hlt := (List.pairwise_append.mp hrising).2.2
  -- The first tree with the property, read off the blocks.
  have hnodes : mₖ.tree.nodes.find? p = some T := by
    have hnone : (before.flatMap B ++ X).find? p = none := by
      refine List.find?_eq_none.mpr fun t ht => ?_
      rw [Bool.not_eq_true]
      rcases List.mem_append.mp ht with ht | ht
      · obtain ⟨rn, hrn, ht⟩ := List.mem_flatMap.mp ht
        exact hbefore rn (by rw [hlocated]; exact List.mem_append_left _ hrn)
          (hlt rn hrn at₀ (.head _)) t ht
      · exact hX t ht
    rw [h.nodes, hlocated, List.flatMap_append, List.flatMap_cons, hblock, List.append_assoc,
      ← List.append_assoc, List.find?_append, hnone, Option.none_or, List.singleton_append,
      List.find?_cons, hT]
  -- The same, read off the statements: the other trees lack the property.
  have hparts : mₖ.tree.nodes.find? p = some stmt.tree := by
    have hmapped : (mₖ.statements.map Node.tree).find? p = some stmt.tree := by
      rw [List.find?_map, show p ∘ Node.tree = fun n => p n.tree from rfl, hfind]
      rfl
    rw [show mₖ.statements.map Node.tree = mₖ.tree.nodes.filter Tree.isPart from
      Node.parts_tree _, List.find?_filter] at hmapped
    rw [← hmapped]
    congr 1
    funext t
    cases ht : p t with
    | true => simp [hp _ ht]
    | false => simp
  exact Option.some.inj (hparts.symm.trans hnodes)

/-- What the blocks before the first one with a property lack, and the trees before
    the last one of that block, the rows before that tree lack too. -/
theorem lacks_before (hm : m.Readable) (h : InBlocks m mₖ touched B) (hat : at₀ ∈ m.located)
    (hbefore : ∀ rn ∈ m.located, rn.2.start < at₀.2.start → ∀ t ∈ B rn, p t = false)
    {X : List Tree} (hblock : B at₀ = X ++ [T]) (hX : ∀ t ∈ X, p t = false) (hT : p T = true)
    {A A' : List Row} {r : Row} (hrows : mₖ.rows = A ++ r :: A')
    (hA : ∀ a ∈ A, p a.last.tree = false) (hr : p r.last.tree = true) {q : Tree → Bool}
    (hq : ∀ rn ∈ m.located, rn.2.start < at₀.2.start → ∀ t ∈ B rn, q t = false)
    (hqX : ∀ t ∈ X, q t = false) : ∀ a ∈ A, q a.last.tree = false := by
  obtain ⟨-, F, hF, hflat, -⟩ := h
  obtain ⟨R, d, hR, hRX⟩ := flatRows_concat ((hflat _ hat).trans hblock)
  obtain ⟨before, after, hlocated⟩ := List.append_of_mem hat
  have hrising := m.located_rising hm
  rw [hlocated] at hrising
  have hlt := (List.pairwise_append.mp hrising).2.2
  have hin : ∀ rn ∈ before, rn ∈ m.located := fun rn hrn => by
    rw [hlocated]
    exact List.mem_append_left _ hrn
  -- The trees in front of the block of the property are of earlier blocks, or of its own.
  have hfront : ∀ {s : Tree → Bool}, (∀ rn ∈ m.located, rn.2.start < at₀.2.start →
      ∀ t ∈ B rn, s t = false) → (∀ t ∈ X, s t = false) →
      ∀ row ∈ before.flatMap F ++ R, s row.2 = false := by
    intro s hs hsX row hrow
    rcases List.mem_append.mp hrow with hrow | hrow
    · obtain ⟨rn, hrn, hrow⟩ := List.mem_flatMap.mp hrow
      refine hs rn (hin rn hrn) (hlt rn hrn at₀ (.head _)) row.2 ?_
      rw [← hflat rn (hin rn hrn)]
      exact last_mem_flatRows hrow
    · refine hsX row.2 ?_
      rw [← hRX]
      exact List.mem_append_left _ (last_mem_flatRows hrow)
  have htrees : A.map Row.trees ++ r.trees :: A'.map Row.trees =
      (before.flatMap F ++ R) ++ (d, T) :: after.flatMap F := by
    rw [← List.map_cons, ← List.map_append, ← hrows, ← Module.treeRows, hF, hlocated,
      List.flatMap_append, List.flatMap_cons, hR]
    simp
  have hsame : A.map Row.trees = before.flatMap F ++ R := by
    refine (first_unique (p := fun row => p row.2) htrees (fun row hrow => ?_) hr
      (hfront hbefore hX) hT).1
    obtain ⟨a, ha, rfl⟩ := List.mem_map.mp hrow
    exact hA a ha
  intro a ha
  exact hfront hq hqX a.trees (hsame ▸ List.mem_map_of_mem ha)

/-- A batch that changes the statement at the end of a block. -/
theorem revise (hm : m.Readable) (h : InBlocks m mₖ touched B)
    (hp : ∀ t, p t = true → t.isPart = true)
    (hfind : mₖ.statements.find? (fun n => p n.tree) = some stmt) (hat : at₀ ∈ m.located)
    (hbefore : ∀ rn ∈ m.located, rn.2.start < at₀.2.start → ∀ t ∈ B rn, p t = false)
    {X : List Tree} (hblock : B at₀ = X ++ [T]) (hX : ∀ t ∈ X, p t = false) (hT : p T = true)
    {edits : List Edit} {es : List Expected} (hfits : (Change.becomes edits es).FitsAt stmt)
    (hrising : Rising edits) (happly : mₖ.applyEdits edits = .ok m')
    (hlocal : m'.RereadsAs (mₖ.expect (Module.changeAt stmt (.becomes edits es)))) :
    ∃ ts, List.Forall₂ Expected.Reads es ts ∧
      ∀ B' : Row × Node → List Tree, B' at₀ = X ++ ts →
        (∀ rn ∈ m.located, rn.2.start ≠ at₀.2.start → B' rn = B rn) →
          InBlocks m m' (fun n => touched n ∨ n.start = at₀.2.start) B' := by
  obtain ⟨hₖ, F, hF, hflat, halone⟩ := h
  -- In rows, the block is whole rows `R` and then one of the doc comments `d` and `T`.
  obtain ⟨R, d, hR, hRX⟩ := flatRows_concat ((hflat _ hat).trans hblock)
  have hRp : ∀ row ∈ R, p row.2 = false := by
    intro row hrow
    refine hX row.2 ?_
    rw [← hRX]
    exact List.mem_append_left _ (last_mem_flatRows hrow)
  obtain ⟨hreadable, r, ts, F', hr, hts, hF', hsame, hF'at⟩ :=
    block_change hm hₖ hF hp hfind hat
      (fun rn hrn hlt => by rw [hflat rn hrn]; exact hbefore rn hrn hlt) hR hRp hT hfits hrising
      happly hlocal
  have hd : r.docs.map (·.tree) = d := congrArg Prod.fst hr
  refine ⟨ts, hts _ _ rfl, fun B' hB'at hB' => ⟨hreadable, F', hF', fun rn hrn => ?_,
    fun rn hrn hno => ?_⟩⟩
  · by_cases hstart : rn.2.start = at₀.2.start
    · obtain rfl := m.located_eq_of_start hm hrn hat hstart
      rw [hF'at, List.append_nil, flatRows_append, flatRows_revised, hd, ← List.append_assoc, hRX,
        hB'at]
    · rw [hsame rn hrn hstart, hflat rn hrn, hB' rn hrn hstart]
  · rw [not_or] at hno
    rw [hsame rn hrn hno.2]
    exact halone rn hrn hno.1

/-- A batch that removes a statement that stands as it was. -/
theorem remove (hm : m.Readable) (h : InBlocks m mₖ touched B)
    (hp : ∀ t, p t = true → t.isPart = true)
    (hfind : mₖ.statements.find? (fun n => p n.tree) = some stmt) (hat : at₀ ∈ m.located)
    (hbefore : ∀ rn ∈ m.located, rn.2.start < at₀.2.start → ∀ t ∈ B rn, p t = false)
    (huntouched : ¬ touched at₀.2) (hT : p at₀.2.tree = true)
    (happly : mₖ.applyEdits [mₖ.removeStatement stmt] = .ok m')
    (hlocal : m'.RereadsAs (mₖ.expect (Module.changeAt stmt .goes))) :
    ∀ B' : Row × Node → List Tree, B' at₀ = [] →
      (∀ rn ∈ m.located, rn.2.start ≠ at₀.2.start → B' rn = B rn) →
        InBlocks m m' (fun n => touched n ∨ n.start = at₀.2.start) B' := by
  obtain ⟨hₖ, F, hF, hflat, halone⟩ := h
  -- A block that is untouched is the row of its statement.
  have hblock : F at₀ = [] ++ (at₀.1.docs.map (·.tree), at₀.2.tree) :: [] := by
    rw [halone _ hat huntouched, Module.trees_located hat]
    rfl
  have hfits : Change.goes.FitsAt stmt := trivial
  obtain ⟨hreadable, r, ts, F', -, -, hF', hsame, hF'at⟩ :=
    block_change hm hₖ hF hp hfind hat
      (fun rn hrn hlt => by rw [hflat rn hrn]; exact hbefore rn hrn hlt) hblock
      (List.forall_mem_nil _) hT hfits (List.pairwise_singleton _ _) happly hlocal
  refine fun B' hB'at hB' => ⟨hreadable, F', hF', fun rn hrn => ?_, fun rn hrn hno => ?_⟩
  · by_cases hstart : rn.2.start = at₀.2.start
    · obtain rfl := m.located_eq_of_start hm hrn hat hstart
      rw [hF'at, hB'at]
      rfl
    · rw [hsame rn hrn hstart, hflat rn hrn, hB' rn hrn hstart]
  · rw [not_or] at hno
    rw [hsame rn hrn hno.2]
    exact halone rn hrn hno.1

end InBlocks

end ComponentDecl
