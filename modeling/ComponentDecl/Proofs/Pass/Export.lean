import ComponentDecl.Proofs.Module.Blocks
import ComponentDecl.Proofs.Pass.Carried

/-! # The last two batches

    The fifth batch takes the loose type aliases away with their doc comments.
    The sixth one adds a last line that exports the class.

    Key theorems:
    - `Module.treeRows_thinned`: the rows after the fifth batch
    - `Module.nodes_export`: the trees after the sixth batch
-/

namespace ComponentDecl

open Syntax Text

variable {m m' : Module}

/-! ### Loose aliases -/

/-- What is left of the rows when the loose aliases go. -/
theorem Module.treeRows_thinned (hm : m.Readable)
    (happly : m.applyEdits (dropAliases m).edits = .ok m')
    (hlocal : m'.RereadsAs (m.expect aliasesGo)) :
    m'.Readable ∧
      m'.treeRows = m.treeRows.filter fun row => row.2.unwrap.kind ≠ .typeAliasDeclaration := by
  have hedits : (dropAliases m).edits.Perm (m.editsOf aliasesGo) :=
    .of_eq m.editsOf_aliasesGo.symm
  obtain ⟨hreadable, -⟩ := m.nodes_changes hm (fun _ _ _ => aliasesGo_fits) (rising_aliasesGo hm)
    hedits happly hlocal
  obtain ⟨trees, -, hrows⟩ := m.rows_changes hm (fun _ _ _ => aliasesGo_fits)
    (rising_aliasesGo hm) hedits happly hlocal
  refine ⟨hreadable, ?_⟩
  -- The induction is row by row: a row stays as it is or goes away.
  have key : ∀ l : List (Row × Node), (∀ rn ∈ l, rn ∈ m.located) →
      l.flatMap (fun rn => rn.1.revised (trees rn.2) (aliasesGo rn.2)) =
        (l.map fun rn => rn.1.trees).filter fun row =>
          row.2.unwrap.kind ≠ .typeAliasDeclaration := by
    intro l
    induction l with
    | nil => exact fun _ => rfl
    | cons rn l ih =>
      intro hmem
      rw [List.forall_mem_cons] at hmem
      have hlast : rn.1.trees.2 = rn.2.tree := Module.last_tree hmem.1
      rw [List.flatMap_cons, ih hmem.2, List.map_cons, aliasesGo]
      by_cases h : rn.2.tree.unwrap.kind = .typeAliasDeclaration
      · rw [if_pos h, List.filter_cons_of_neg (by simp [hlast, h])]
        rfl
      · rw [if_neg h, List.filter_cons_of_pos (by simp [hlast, h])]
        rfl
  rw [Module.treeRows, hrows, Module.treeRows_located]
  exact key m.located fun _ h => h

/-! ### The export -/

/-- Holds of a tree that exports a name as the module's own. -/
structure ExportsName (className : String) (t : Tree) : Prop where
  exports : t.isDefaultExport = true
  exported : ((t.child? .declaration).or (t.child? .value)).map (fun e => (e.kind, e.text)) =
    some (.identifier, className)
  plain : t.unwrap.kind = .identifier

instance (className : String) : DecidablePred (ExportsName className) := fun t =>
  decidable_of_iff (t.isDefaultExport = true ∧
      ((t.child? .declaration).or (t.child? .value)).map (fun e => (e.kind, e.text)) =
        some (.identifier, className) ∧ t.unwrap.kind = .identifier)
    ⟨fun h => ⟨h.1, h.2.1, h.2.2⟩, fun h => ⟨h.exports, h.exported, h.plain⟩⟩

/-- The statement that exports the class in the end. -/
def exportText (className : String) : List Char := ("export default " ++ className ++ ";").toList

/-- The tree of that statement. -/
def Expected.exportOf (className : String) : Expected :=
  .made (exportText className) (ExportsName className ·)

theorem MadeOf.concat {parts : List (List Char)} {cs : List Char} (h : MadeOf parts cs)
    {before part after : List Char} (hbefore : Spaces before) (hafter : Spaces after) :
    MadeOf (parts ++ [part]) (cs ++ (before ++ (part ++ after))) := by
  induction h with
  | nil hgap =>
    rw [← List.append_assoc]
    exact .cons (spaces_append.mpr ⟨hgap, hbefore⟩) (.nil hafter)
  | @cons gap first rest parts hgap _ ih =>
    have hsplit : gap ++ (first ++ rest) ++ (before ++ (part ++ after)) =
        gap ++ (first ++ (rest ++ (before ++ (part ++ after)))) := by simp
    rw [hsplit]
    exact .cons hgap ih

/-- The text after a batch that adds a last line. -/
theorem Module.chars_append (hm : m.Readable) {text : String}
    (happly : m.applyEdits [m.append text] = .ok m') :
    m'.Readable ∧ m'.chars = m.chars ++ (m.append text).text.toList := by
  rw [m.applyEdits_append, m.splice_append hm] at happly
  obtain rfl := Except.ok.inj happly
  exact ⟨readable_of_source rfl, chars_of_source rfl⟩

/-- What the last batch adds depends on the last character of the module only. -/
theorem Module.append_congr {n : Module} (hm : m.Readable) (hn : n.Readable)
    (h : m.chars.getLast? = n.chars.getLast?) (text : String) :
    (m.append text).text = (n.append text).text := by
  have hsource : m.source = encodeChars m.chars := hm
  have hsource' : n.source = encodeChars n.chars := hn
  have hlast : m.source.getLast? = n.source.getLast? := by
    rw [hsource, hsource']
    rcases List.eq_nil_or_concat m.chars with hnil | ⟨front, c, hc⟩
    · rw [hnil, List.getLast?_nil, eq_comm, List.getLast?_eq_none_iff] at h
      rw [hnil, h]
    · rw [hc, List.concat_eq_append, List.getLast?_concat, eq_comm] at h
      obtain ⟨front', hc'⟩ := List.getLast?_eq_some_iff.mp h
      have hne : encodeChars [c] ≠ [] := fun hnil => by
        have := size_pos (List.cons_ne_nil c [])
        rw [size, hnil] at this
        exact absurd this (Nat.lt_irrefl _)
      rw [hc, hc', List.concat_eq_append, encodeChars_append, encodeChars_append,
        List.getLast?_append_of_ne_nil _ hne, List.getLast?_append_of_ne_nil _ hne]
  have hempty : m.source.isEmpty = n.source.isEmpty := by
    rw [Bool.eq_iff_iff, List.isEmpty_iff, List.isEmpty_iff, ← List.getLast?_eq_none_iff, hlast,
      List.getLast?_eq_none_iff]
  rw [append, append, hlast, hempty]

/-- The text that the last batch adds: the line, on a line of its own. -/
theorem append_toList (m : Module) (text : String) :
    ∃ before, (before = [] ∨ before = ['\n']) ∧
      (m.append text).text.toList = before ++ (text.toList ++ ['\n']) := by
  unfold Module.append
  dsimp only
  split
  · exact ⟨[], Or.inl rfl, by simp⟩
  · exact ⟨['\n'], Or.inr rfl, by simp⟩

/-- The trees after the last batch are those before it and the export. -/
theorem Module.nodes_export (hm : m.Readable) {className : String} {removed : Nat}
    (happly : m.applyEdits (exportClass m className removed).edits = .ok m')
    (hlocal : m'.RereadsAs (m.tree.nodes.map .same ++ [.exportOf className])) :
    m'.Readable ∧ ∃ E, m'.tree.nodes = m.tree.nodes ++ [E] ∧ E.spell = exportText className ∧
      ExportsName className E := by
  obtain ⟨hreadable, hchars⟩ := m.chars_append hm happly
  refine ⟨hreadable, ?_⟩
  obtain ⟨hlead, hpieces, -⟩ := pieces_spec hm
  have hmade : MadeOf ((m.tree.nodes.map Expected.same ++ [Expected.exportOf className]).map Expected.text)
      m'.chars := by
    have hnodes : (m.tree.nodes.map Expected.same).map Expected.text =
        (m.pieces.map (·.tree)).map Tree.spell := by
      rw [List.map_map, pieces, pieces_trees]
      rfl
    obtain ⟨before, hbefore, htext⟩ := append_toList m ("export default " ++ className ++ ";")
    rw [List.map_append, hnodes, hchars, htext, m.chars_eq]
    -- At most a line break comes between the former text and the export.
    have hblank : Spaces before := by
      rcases hbefore with rfl | rfl
      · exact spaces_nil
      · intro c hc
        rw [List.mem_singleton.mp hc]
        decide
    have hafter : Spaces ['\n'] := by
      intro c hc
      rw [List.mem_singleton.mp hc]
      decide
    exact (madeOf_pieces hlead fun p hp => (hpieces p hp).2.2).concat hblank hafter
  obtain ⟨us, vs, hus, hsame, hexport⟩ := forall₂_append (hlocal hmade)
  cases hexport with
  | @cons _ E _ _ hE hnil =>
  cases hnil
  exact ⟨E, by rw [hus, forall₂_same hsame], hE.1, decide_eq_true_eq.mp hE.2⟩

end ComponentDecl
