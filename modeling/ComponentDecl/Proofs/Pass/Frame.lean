import ComponentDecl.Proofs.Pass.Completed

/-! # What a pass leaves alone

    The text after a pass consists of the statements and comments of the module
    before it, in their order.  The class statement has another head and other
    type arguments, the namespace follows it, the export comes last, and what the
    pass takes away is missing.  Only the white space between them may differ.

    Key theorem:
    - `process_frame`: the text after a pass
-/

namespace ComponentDecl

open Syntax Text

variable {m : Module} {comments : Option Comments} {settings : Settings}

/-! ### Texts of the parts -/

/-- The texts of a restructured module. -/
def textParts (comments : Option Comments) (m : Module) (x : ExportedClass) (v : Variable)
    (namespaceText : List Char) : Parts (List Char) where
  comment := Tree.spell
  kept n := n.tree.spell
  description := (describedBy comments).toList
  declared := x.declaredText
  remaining := v.remainingText m
  namespaced := [Namespace.docText x.name, namespaceText]

namespace Course

variable {c : Course comments settings m} {x : ExportedClass} {v : Variable} {home : Node}
  {kept : Node → Tree} {D R N E : Tree}

/-- Without a namespace of the class's name in the module, every statement that is
    kept stays what it was. -/
theorem Completed.kept_eq (h : c.Completed x v home kept D R N E)
    (hnone : m.namespaceNamed? c.className = none) {rn : Row × Node} (hrn : rn ∈ m.located) :
    kept rn.2 = rn.2.tree := by
  refine (h.keeps rn hrn).resolve_right fun hother => ?_
  have hmem := m.mem_statements_of_located hrn
    (declaresParts_namespace.isPart_of_declares hother.1)
  exact Bool.eq_false_iff.mp (Module.declares_namespace_eq_false hnone _ hmem) hother.1

/-- The texts of the trees in the place of a row. -/
theorem Completed.spell_block (h : c.Completed x v home kept D R N E) {rn : Row × Node}
    (hkept : kept rn.2 = rn.2.tree) (hname : c.className = x.name) :
    (x.block v home (c.joinedParts kept D R N) rn).map Tree.spell =
      x.block v home (textParts comments m x v N.spell) rn := by
  have hown : (x.ownBlock v (c.joinedParts kept D R N) rn).map Tree.spell =
      x.ownBlock v (textParts comments m x v N.spell) rn := by
    have hdocs : (rn.1.docs.map fun d => (c.joinedParts kept D R N).comment d.tree).map
        Tree.spell = rn.1.docs.map fun d => d.tree.spell := List.map_map
    have hdescription : (c.joinedParts kept D R N).description.map Tree.spell =
        (describedBy comments).toList := by
      show ((describedBy comments).toList.map (Tree.token none .comment)).map Tree.spell = _
      rw [List.map_map]
      exact List.map_id _
    -- The four cases are those of a block: the class, the export, the helper, any other.
    unfold ExportedClass.ownBlock
    dsimp only
    split
    · rw [List.map_append, List.map_append, hdocs, hdescription, List.map_singleton]
      show _ ++ _ ++ [D.spell] = _
      rw [h.declared.2]
      rfl
    split
    · rfl
    split
    · split
      · rfl
      · next hmore =>
        rw [List.map_append, hdocs, List.map_singleton]
        show _ ++ [R.spell] = _
        rw [(h.remaining hmore).2]
        rfl
    · rw [List.map_append, hdocs, List.map_singleton]
      show _ ++ [(kept rn.2).spell] = _
      rw [hkept]
      rfl
  unfold ExportedClass.block ExportedClass.joinedBlock
  split
  · rfl
  rw [List.map_append, hown]
  split
  · show _ ++ [Namespace.docText c.className, N.spell] = _
    rw [hname]
    rfl
  · rfl

/-- The text of a completed module. -/
theorem Completed.madeOf (h : c.Completed x v home kept D R N E)
    (hkept : ∀ rn ∈ m.located, kept rn.2 = rn.2.tree) (hname : c.className = x.name) :
    MadeOf (m.located.flatMap (x.block v home (textParts comments m x v N.spell)) ++
      [exportText x.name]) c.exported.chars := by
  obtain ⟨hlead, hpieces, -⟩ := Module.pieces_spec h.readable
  have hmade := madeOf_pieces hlead fun p hp => (hpieces p hp).2.2
  have hnodes : (c.exported.pieces.map (·.tree)).map Tree.spell =
      m.located.flatMap (x.block v home (textParts comments m x v N.spell)) ++
        [exportText x.name] := by
    have htrees : c.exported.pieces.map (·.tree) = c.exported.tree.nodes := pieces_trees _
    rw [htrees, h.nodes, List.map_append, List.map_flatMap, List.map_singleton, h.exports.2, hname]
    congr 1
    exact List.flatMap_congr fun rn hrn => h.spell_block (hkept rn hrn) hname
  rw [c.exported.chars_eq, ← hnodes]
  exact hmade

end Course

/-! ### The frame -/

/-- Holds of the module after a pass if its text is that of the module before, but
    for the class statement, the helper variable, the loose aliases and the
    exporting statement.  Here `x.block` says what stands for each row of the
    module: for a statement with its doc comments, or for a lone comment. -/
def Framed (comments : Option Comments) (settings : Settings) (className : String)
    (m m' : Module) : Prop :=
  ∃ (x : ExportedClass) (v : Variable) (types : CapturedTypes) (blocks : List (List Char))
    (namespaceText : List Char) (text : String),
    x.In m ∧ x.name = className ∧ m.variableNamed? settings.helperVariable = some v ∧
    (∀ kind, ((m.variableMembers v).get? kind.member).map (·.memberTypeText) =
      some (types.get kind)) ∧
    (∀ block ∈ blocks, IsDocBlock comments block) ∧
    Inserted blocks (Namespace.bareText className types
      (String.ofList (List.replicate settings.indentWidth ' '))) namespaceText ∧
    m'.text = .ok text ∧
    MadeOf (m.located.flatMap (x.block v x.holding (textParts comments m x v namespaceText)) ++
      [exportText className]) text.toList

/-- A pass that succeeds touches nothing else. -/
theorem process_frame (comments : Option Comments) (settings : Settings) {s s' : Session}
    {className : String} {documented : Nat} (hcomplete : CompleteComments comments)
    (hlocal : ReadsLocally comments settings s.module)
    (hsuccess : process comments settings s = (.ok (.success className documented), s'))
    (hclass : (s.module.statements.filter (·.tree.holdsClass className)).length = 1)
    (hnamespace : s.module.namespaceNamed? className = none) :
    Framed comments settings className s.module s'.module := by
  obtain ⟨c, rfl, -, hmodule⟩ := course_of_success hsuccess
  obtain ⟨x, v, home, hw⟩ := c.exists_worksOn hcomplete hlocal.first
  obtain rfl := hw.home_eq hclass
  obtain ⟨kept, D, R, N, E, hcompleted⟩ := hw.nodes_exported hcomplete hlocal
  obtain ⟨blocks, type, hblocks, hinserted, -, -⟩ := hcompleted.namespaced
  have hmade := hcompleted.madeOf (fun rn hrn => hcompleted.kept_eq hnamespace hrn) hw.name
  refine ⟨x, v, c.extraction.result, blocks, N.spell, String.ofList c.exported.chars, hw.exported,
    hw.name.symm, hw.helper, hw.captured hcomplete hlocal.first, hblocks, hinserted, ?_, ?_⟩
  · rw [hmodule, Module.text, hcompleted.readable, decode_encodeChars]
  · rw [String.toList_ofList, hw.name]
    exact hmade

/-- The small component with a description and a comment for its prop. -/
theorem process_frame_small : ∃ documented s',
    process smallComments smallSettings ⟨smallModule, []⟩ =
      (.ok (.success "A" documented), s') ∧
    Framed smallComments smallSettings "A" smallModule s'.module := by
  obtain ⟨documented, s', hsuccess⟩ := process_small
  obtain ⟨-, hclass, hnamespace⟩ := counts_small
  exact ⟨documented, s', hsuccess, process_frame smallComments smallSettings
    completeComments_small readsLocally_small hsuccess hclass
    (Option.isNone_iff_eq_none.mp hnamespace)⟩

end ComponentDecl
