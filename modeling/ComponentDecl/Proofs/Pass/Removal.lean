import ComponentDecl.Proofs.Module.Spans
import ComponentDecl.Proofs.Pass.Carried

/-! # Removing one variable

    The variables of a declaration stand in the source by turns with separators, each of
    which has one comma between white space and comments.  Removing a variable takes one
    separator away with it, the one after it or, for the last variable, the one before it.
    The only variable of a declaration goes away with its whole statement.

    Key theorems:
    - `Node.declarators_starts`: where the variables of a declaration stand
    - `Module.removeVariable_leaves`: what is left once a variable is removed
-/

namespace ComponentDecl

open Syntax Text

variable {m : Module}

/-! ### Texts by turns -/

namespace Text

/-- Texts with separators between them, by turns. -/
def alternate : List (List Char) → List (List Char) → List Char
  | [], _ => []
  | t :: ts, [] => t ++ alternate ts []
  | t :: ts, s :: ss => t ++ (s ++ alternate ts ss)

theorem alternate_append {ts ss : List (List Char)} (h : ts.length = ss.length)
    (ts' ss' : List (List Char)) :
    alternate (ts ++ ts') (ss ++ ss') = alternate ts ss ++ alternate ts' ss' := by
  induction ts generalizing ss with
  | nil =>
    rw [List.length_nil] at h
    rw [List.eq_nil_of_length_eq_zero h.symm]
    rfl
  | cons t ts ih =>
    cases ss with
    | nil => cases h
    | cons s ss =>
      rw [List.length_cons, List.length_cons, Nat.add_right_cancel_iff] at h
      rw [List.cons_append, List.cons_append, alternate, alternate, ih h, List.append_assoc,
        List.append_assoc]

/-- What stands by turns up to some place, and what stands from there on. -/
theorem alternate_take_drop {ts ss : List (List Char)} {k : Nat} (ht : k ≤ ts.length)
    (hs : k ≤ ss.length) :
    alternate ts ss = alternate (ts.take k) (ss.take k) ++ alternate (ts.drop k) (ss.drop k) := by
  rw [← alternate_append, List.take_append_drop, List.take_append_drop]
  rw [List.length_take_of_le ht, List.length_take_of_le hs]

theorem alternate_drop {ts ss : List (List Char)} {k : Nat} {t s : List Char}
    (ht : ts[k]? = some t) (hs : ss[k]? = some s) :
    alternate (ts.drop k) (ss.drop k) =
      t ++ (s ++ alternate (ts.drop (k + 1)) (ss.drop (k + 1))) := by
  obtain ⟨hkt, rfl⟩ := List.getElem?_eq_some_iff.mp ht
  obtain ⟨hks, rfl⟩ := List.getElem?_eq_some_iff.mp hs
  rw [List.drop_eq_getElem_cons hkt, List.drop_eq_getElem_cons hks, alternate]

theorem alternate_take_succ {ts ss : List (List Char)} {k : Nat} {t s : List Char}
    (ht : ts[k]? = some t) (hs : ss[k]? = some s) :
    alternate (ts.take (k + 1)) (ss.take (k + 1)) =
      alternate (ts.take k) (ss.take k) ++ (t ++ s) := by
  obtain ⟨hkt, rfl⟩ := List.getElem?_eq_some_iff.mp ht
  obtain ⟨hks, rfl⟩ := List.getElem?_eq_some_iff.mp hs
  rw [List.take_succ_eq_append_getElem hkt, List.take_succ_eq_append_getElem hks, alternate_append]
  · rw [alternate, alternate, List.append_nil]
  · rw [List.length_take_of_le (Nat.le_of_lt hkt), List.length_take_of_le (Nat.le_of_lt hks)]

/-- Without a text and the separator after it, the others stand by turns. -/
theorem alternate_eraseIdx {ts ss : List (List Char)} {k : Nat} (ht : k < ts.length)
    (hs : k < ss.length) : alternate (ts.eraseIdx k) (ss.eraseIdx k) =
      alternate (ts.take k) (ss.take k) ++ alternate (ts.drop (k + 1)) (ss.drop (k + 1)) := by
  rw [List.eraseIdx_eq_take_drop_succ, List.eraseIdx_eq_take_drop_succ, alternate_append]
  rw [List.length_take_of_le (Nat.le_of_lt ht), List.length_take_of_le (Nat.le_of_lt hs)]

/-- Without the last text and the separator before it, the others stand by turns. -/
theorem alternate_eraseIdx_last {ts ss : List (List Char)} {k : Nat} {t : List Char}
    (ht : ts[k]? = some t) (htlast : ts.length = k + 2) (hslast : ss.length = k + 1) :
    alternate (ts.eraseIdx (k + 1)) (ss.eraseIdx k) =
      alternate (ts.take k) (ss.take k) ++ t := by
  obtain ⟨hkt, rfl⟩ := List.getElem?_eq_some_iff.mp ht
  have htrest : ts.drop (k + 1 + 1) = [] := List.drop_eq_nil_of_le (by omega)
  have hsrest : ss.drop (k + 1) = [] := List.drop_eq_nil_of_le (by omega)
  rw [List.eraseIdx_eq_take_drop_succ, List.eraseIdx_eq_take_drop_succ, htrest, hsrest,
    List.append_nil, List.take_succ_eq_append_getElem hkt, alternate_append]
  · rw [alternate, alternate, List.append_nil]
  · rw [List.length_take_of_le (Nat.le_of_lt hkt), List.length_take_of_le (by omega)]

end Text

/-! ### Where trees start -/

namespace Syntax

/-- Trees with the places at which they start, one after the other. -/
def startsFrom (offset : Nat) : List Tree → List (Tree × Nat)
  | [] => []
  | t :: ts => (t, offset) :: startsFrom (offset + size t.spell) ts

theorem startsFrom_append (offset : Nat) (ts us : List Tree) :
    startsFrom offset (ts ++ us) =
      startsFrom offset ts ++ startsFrom (offset + size (Tree.spellAll ts)) us := by
  induction ts generalizing offset with
  | nil => rfl
  | cons t ts ih =>
    rw [List.cons_append, startsFrom, startsFrom, ih, Tree.spellAll_cons, size_append,
      Nat.add_assoc]
    rfl

theorem filter_startsFrom {p : Tree → Bool} {ts : List Tree} (h : ∀ t ∈ ts, p t = false)
    (offset : Nat) : (startsFrom offset ts).filter (p ·.1) = [] := by
  induction ts generalizing offset with
  | nil => rfl
  | cons t ts ih =>
    obtain ⟨ht, hts⟩ := List.forall_mem_cons.mp h
    rw [startsFrom, List.filter_cons_of_neg (by rw [ht]; decide), ih hts]

/-- The nodes directly below a node are the trees that are not blank, in their places. -/
theorem placesFrom_starts (offset : Nat) (before : List Site) (ts : List Tree) :
    (Node.placesFrom offset before ts).map (fun p => (p.site.tree, p.site.start)) =
      (startsFrom offset ts).filter (·.1.kind ≠ .blank) := by
  induction ts generalizing offset before with
  | nil => rfl
  | cons t ts ih =>
    by_cases hblank : t.kind = .blank
    · simp [Node.placesFrom, startsFrom, hblank, ih, width_eq]
    · simp [Node.placesFrom, startsFrom, hblank, ih, width_eq]

/-- The variables of a declaration start where their trees do. -/
theorem Node.declarators_starts (n : Node) :
    n.declarators.map (fun d => (d.tree, d.start)) =
      (startsFrom n.start n.tree.children).filter (·.1.kind == .variableDeclarator) := by
  have hkind : ∀ t : Tree, (t.kind == .variableDeclarator) =
      (t.kind == .variableDeclarator && (t.kind.isNamed && !(t.kind == .comment)) &&
        decide (t.kind ≠ .blank)) := by
    intro t
    by_cases h : t.kind = .variableDeclarator
    · rw [h]
      rfl
    · rw [beq_false_of_ne h]
      rfl
  have hplaces := placesFrom_starts n.start [] n.tree.children
  rw [List.filter_congr fun x _ => hkind x.1, ← List.filter_filter, ← List.filter_filter,
    ← hplaces, List.filter_map, List.filter_map, Node.declarators, Node.partsOf, Node.parts,
    Node.children, List.filter_map, List.filter_map, List.map_map]
  rfl

/-! ### The variables of a list -/

/-- The variables of a list with the places at which they start. -/
def variableStarts (offset : Nat) (first : Tree) : List (List Tree × Tree) → List (Tree × Nat)
  | [] => [(first, offset)]
  | (separator, d) :: more =>
    (first, offset) ::
      variableStarts (offset + size (first.spell ++ Tree.spellAll separator)) d more

theorem filter_separator {ts : List Tree} (h : IsSeparator ts) (offset : Nat) :
    (startsFrom offset ts).filter (·.1.kind == .variableDeclarator) = [] := by
  obtain ⟨before, after, rfl, htrivia⟩ := h
  refine filter_startsFrom (p := (·.kind == .variableDeclarator)) (fun t ht => ?_) offset
  have hother : ∀ {u : Tree}, u ∈ before ++ after → (u.kind == Kind.variableDeclarator) = false :=
    fun hu => beq_false_of_ne (kind_ne_of_trivia (htrivia _ hu))
  rcases List.mem_append.mp ht with ht | ht
  · exact hother (List.mem_append_left _ ht)
  rcases List.mem_cons.mp ht with rfl | ht
  · rfl
  · exact hother (List.mem_append_right _ ht)

theorem starts_variables {first : Tree} {more : List (List Tree × Tree)}
    (hfirst : first.kind = .variableDeclarator)
    (hmore : ∀ p ∈ more, IsSeparator p.1 ∧ p.2.kind = .variableDeclarator) (offset : Nat) :
    (startsFrom offset (first :: more.flatMap fun p => p.1 ++ [p.2])).filter
      (·.1.kind == .variableDeclarator) = variableStarts offset first more := by
  have hvariable : ∀ {t : Tree}, t.kind = .variableDeclarator →
      (t.kind == Kind.variableDeclarator) = true := fun h => beq_iff_eq.mpr h
  induction more generalizing first offset with
  | nil => rw [List.flatMap_nil, startsFrom, startsFrom, List.filter_cons,
      if_pos (hvariable hfirst), List.filter_nil, variableStarts]
  | cons p more ih =>
    obtain ⟨separator, d⟩ := p
    obtain ⟨⟨hseparator, hd⟩, hmore⟩ := List.forall_mem_cons.mp hmore
    rw [List.flatMap_cons, startsFrom, List.filter_cons, if_pos (hvariable hfirst),
      List.append_assoc, startsFrom_append, List.filter_append, filter_separator hseparator,
      List.nil_append, List.singleton_append, ih hd hmore, variableStarts, size_append,
      Nat.add_assoc]

/-- The texts of the variables of a list. -/
def variableTexts (first : Tree) (more : List (List Tree × Tree)) : List (List Char) :=
  first.spell :: more.map (·.2.spell)

/-- The texts of the separators of a list. -/
def separatorTexts (more : List (List Tree × Tree)) : List (List Char) :=
  more.map fun p => Tree.spellAll p.1

theorem spellAll_variables (first : Tree) (more : List (List Tree × Tree)) :
    Tree.spellAll (first :: more.flatMap fun p => p.1 ++ [p.2]) =
      alternate (variableTexts first more) (separatorTexts more) := by
  induction more generalizing first with
  | nil =>
    rw [List.flatMap_nil, Tree.spellAll_cons, Tree.spellAll_nil]
    rfl
  | cons p more ih =>
    have hrest := ih p.2
    rw [Tree.spellAll_cons] at hrest
    rw [List.flatMap_cons, Tree.spellAll_cons, Tree.spellAll_append, Tree.spellAll_append,
      Tree.spellAll_cons, Tree.spellAll_nil, List.append_nil, List.append_assoc, hrest]
    rfl

theorem map_variableStarts (offset : Nat) (first : Tree) (more : List (List Tree × Tree)) :
    (variableStarts offset first more).map (·.1.spell) = variableTexts first more := by
  induction more generalizing offset first with
  | nil => rfl
  | cons p more ih =>
    rw [variableStarts, List.map_cons, ih]
    rfl

/-- A variable starts after the variables before it, each with its separator. -/
theorem start_variable {offset i start : Nat} {first t : Tree} {more : List (List Tree × Tree)}
    (h : (variableStarts offset first more)[i]? = some (t, start)) :
    start = offset +
      size (alternate ((variableTexts first more).take i) ((separatorTexts more).take i)) := by
  induction more generalizing offset first i with
  | nil =>
    cases i with
    | zero =>
      obtain ⟨-, rfl⟩ := Prod.mk.inj (Option.some.inj h)
      rfl
    | succ i => cases h
  | cons p more ih =>
    cases i with
    | zero =>
      obtain ⟨-, rfl⟩ := Prod.mk.inj (Option.some.inj h)
      rfl
    | succ i =>
      rw [variableStarts, List.getElem?_cons_succ] at h
      have hnext : alternate ((variableTexts first (p :: more)).take (i + 1))
          ((separatorTexts (p :: more)).take (i + 1)) = first.spell ++ (Tree.spellAll p.1 ++
            alternate ((variableTexts p.2 more).take i) ((separatorTexts more).take i)) := rfl
      rw [ih h, hnext, size_append, size_append, size_append]
      omega

/-- A declaration of variables holds a list of them. -/
theorem Full.declaratorList {t : Tree} (h : Full t) (hk : t.kind.isVariables = true) :
    ∃ lead first more ending, DeclaratorList t.children lead first more ending := by
  have hother : ∀ {k : Kind}, k.isOrdinary = true → k.isVariables ≠ true := by
    intro k hordinary hvariables
    unfold Kind.isVariables at hvariables
    split at hvariables
    · cases hordinary
    · cases hordinary
    · cases hvariables
  cases h with
  | token _ hordinary => exact absurd hk (hother hordinary)
  | blank => cases hk
  | comment => cases hk
  | node _ _ hordinary => exact absurd hk (hother hordinary)
  | declaration _ hlist _ => exact ⟨_, _, _, _, hlist⟩

end Syntax

/-! ### Declarations in the source -/

/-- One comma between white space and comments. -/
def IsComma (text : List Char) : Prop :=
  ∃ front back, text = front ++ ',' :: back ∧ Spacing front ∧ Spacing back

theorem isComma_of_separator {ts : List Tree} (h : IsSeparator ts) (hfull : ∀ t ∈ ts, Full t) :
    IsComma (Tree.spellAll ts) := by
  obtain ⟨before, after, rfl, htrivia⟩ := h
  refine ⟨Tree.spellAll before, Tree.spellAll after, ?_, ?_, ?_⟩
  · rw [Tree.spellAll_append, Tree.spellAll_cons, Tree.spell_token, List.singleton_append]
  · refine spacing_of_full (fun t ht => hfull t (List.mem_append_left _ ht)) fun t ht => ?_
    exact (htrivia t (List.mem_append_left _ ht)).kind_eq
  · refine spacing_of_full (fun t ht => hfull t ?_) fun t ht => ?_
    · exact List.mem_append_right _ (List.mem_cons_of_mem _ ht)
    · exact (htrivia t (List.mem_append_right _ ht)).kind_eq

/-- The texts of the variables of a declaration. -/
def Syntax.Node.variableTexts (n : Node) : List (List Char) :=
  n.declarators.map (·.tree.spell)

/-- Holds of what stands before, between and after the variables of a declaration: the
    source has the variables and the separators by turns, each separator is one comma
    between white space and comments, and each variable starts where its turn is. -/
structure Module.Lists (m : Module) (n : Node) (before : List Char)
    (separators : List (List Char)) (after : List Char) : Prop where
  source_eq : m.source =
    encodeChars (before ++ (alternate n.variableTexts separators ++ after))
  length_eq : n.declarators.length = separators.length + 1
  comma : ∀ s ∈ separators, IsComma s
  start_eq : ∀ i d, n.declarators[i]? = some d → d.start =
    size (before ++ alternate (n.variableTexts.take i) (separators.take i))

/-- The variables of a top-level declaration stand in the source by turns with
    separators. -/
theorem Module.exists_lists (hm : m.Readable) {stmt : Node} (hstmt : stmt ∈ m.statements)
    (hk : stmt.unwrap.kind.isVariables = true) :
    ∃ before separators after, m.Lists stmt.unwrap before separators after := by
  have hbelow := Node.below_unwrap stmt
  have hfull : Full stmt.unwrap.tree := hbelow.full (m.full_statement hm hstmt)
  obtain ⟨lead, first, more, ending, hlist⟩ := hfull.declaratorList hk
  obtain ⟨front, back, hholds, hplace⟩ :=
    ((Node.Below.refl.child (Node.mem_children_of_mem_parts hstmt)).trans hbelow).holds
  have hstart : stmt.unwrap.start = size front := by
    rw [hplace]
    exact Nat.zero_add _
  have hspell : stmt.unwrap.tree.spell = Tree.spellAll lead ++
      (alternate (Syntax.variableTexts first more) (separatorTexts more) ++
        Tree.spellAll ending) := by
    rw [Tree.spell_of_children hlist.ne_nil, hlist.trees_eq, Tree.spellAll_append,
      Tree.spellAll_append, spellAll_variables, List.append_assoc]
  -- The trees that are no variables play no part in where the variables start.
  have hstarts : stmt.unwrap.declarators.map (fun d => (d.tree, d.start)) =
      variableStarts (size front + size (Tree.spellAll lead)) first more := by
    have hnone : ∀ {ts : List Tree}, (∀ t ∈ ts, t.kind ≠ .variableDeclarator) →
        ∀ offset, (startsFrom offset ts).filter (·.1.kind == .variableDeclarator) = [] :=
      fun h => filter_startsFrom (p := (·.kind == .variableDeclarator))
        fun t ht => beq_false_of_ne (h t ht)
    rw [Node.declarators_starts, hlist.trees_eq, startsFrom_append, startsFrom_append,
      List.filter_append, List.filter_append, hnone hlist.lead, hnone hlist.ending,
      starts_variables hlist.first hlist.more, List.nil_append, List.append_nil, hstart]
  have htexts : stmt.unwrap.variableTexts = Syntax.variableTexts first more := by
    rw [← map_variableStarts, ← hstarts, List.map_map]
    rfl
  refine ⟨front ++ Tree.spellAll lead, separatorTexts more, Tree.spellAll ending ++ back,
    ?_, ?_, ?_, ?_⟩
  · have hsource : m.source = encodeChars m.root.tree.spell := hm
    rw [hsource, hholds, hspell, htexts]
    simp only [List.append_assoc]
  · have hlength := congrArg List.length htexts
    rw [Node.variableTexts, List.length_map] at hlength
    rw [hlength, Syntax.variableTexts, separatorTexts, List.length_cons, List.length_map,
      List.length_map]
  · intro s hs
    obtain ⟨p, hp, rfl⟩ := List.mem_map.mp hs
    refine isComma_of_separator (hlist.more p hp).1 fun t ht => hfull.children t ?_
    rw [hlist.trees_eq]
    refine List.mem_append_left _ (List.mem_append_right _ (List.mem_cons_of_mem _ ?_))
    exact List.mem_flatMap.mpr ⟨p, hp, List.mem_append_left _ ht⟩
  · intro i d hd
    have hget : (variableStarts (size front + size (Tree.spellAll lead)) first more)[i]? =
        some (d.tree, d.start) := by
      rw [← hstarts, List.getElem?_map, hd]
      rfl
    rw [start_variable hget, htexts, size_append, size_append]

/-! ### What is left -/

/-- A stretch of the source can be taken out. -/
theorem Module.applyEdits_cut {front back : List Char} (gone : List Char) {e : Edit}
    (hsource : m.source = encodeChars (front ++ (gone ++ back)))
    (hstart : e.start = (size front : Nat)) (hstop : e.stop = (size (front ++ gone) : Nat))
    (htext : e.text = "") :
    m.applyEdits [e] = .ok (m.withSource (encodeChars (front ++ back))) := by
  have hwoven := weave_single 0 front gone back ""
  have hedit : e = ⟨(0 + size front : Nat), (0 + size front + size gone : Nat), ""⟩ := by
    cases e with
    | mk start stop text =>
      simp only at hstart hstop htext
      rw [hstart, hstop, htext, size_append, Nat.zero_add]
  rw [← hedit] at hwoven
  rw [applyEdits, hsource, ← List.append_assoc, hwoven.applyAll (List.pairwise_singleton _ _)
    (.refl _)]
  show Except.ok _ = _
  rw [String.toList_empty, List.append_nil]

namespace Module.Lists

variable {n d : Node} {before after : List Char} {separators : List (List Char)} {k : Nat}

theorem text_eq (hd : n.declarators[k]? = some d) : n.variableTexts[k]? = some d.tree.spell := by
  rw [Node.variableTexts, List.getElem?_map, hd]
  rfl

theorem length_variableTexts (h : m.Lists n before separators after) :
    n.variableTexts.length = separators.length + 1 := by
  rw [Node.variableTexts, List.length_map, h.length_eq]

/-- From a variable up to the next one stand the variable and its separator. -/
theorem cut_until (h : m.Lists n before separators after) {next : Node}
    (hd : n.declarators[k]? = some d) (hnext : n.declarators[k + 1]? = some next) :
    m.applyEdits [⟨d.start, next.start, ""⟩] = .ok (m.withSource (encodeChars (before ++
      (alternate (n.variableTexts.eraseIdx k) (separators.eraseIdx k) ++ after)))) := by
  have hlength := h.length_eq
  have htexts := h.length_variableTexts
  have hk : k < separators.length := by
    have := (List.getElem?_eq_some_iff.mp hnext).1
    omega
  obtain ⟨s, hs⟩ : ∃ s, separators[k]? = some s := ⟨_, List.getElem?_eq_getElem hk⟩
  have hsource := h.source_eq
  rw [alternate_take_drop (k := k) (by omega) (by omega), alternate_drop (text_eq hd) hs] at hsource
  rw [alternate_eraseIdx (by omega) hk, List.append_assoc, ← List.append_assoc]
  refine applyEdits_cut (d.tree.spell ++ s) ?_ ?_ ?_ rfl
  · rw [hsource]
    simp only [List.append_assoc]
  · exact congrArg _ (h.start_eq k d hd)
  · have hstart := h.start_eq (k + 1) next hnext
    rw [alternate_take_succ (text_eq hd) hs, ← List.append_assoc] at hstart
    exact congrArg _ hstart

/-- From the end of a variable up to the end of the last one stand a separator and the
    last variable. -/
theorem cut_after (h : m.Lists n before separators after) {previous : Node}
    (hprevious : n.declarators[k]? = some previous) (hd : n.declarators[k + 1]? = some d)
    (hlast : n.declarators.length = k + 2) :
    m.applyEdits [⟨previous.stop, d.stop, ""⟩] = .ok (m.withSource (encodeChars (before ++
      (alternate (n.variableTexts.eraseIdx (k + 1)) (separators.eraseIdx k) ++ after)))) := by
  have hlength := h.length_eq
  have htexts := h.length_variableTexts
  obtain ⟨s, hs⟩ : ∃ s, separators[k]? = some s :=
    ⟨_, List.getElem?_eq_getElem (by omega)⟩
  have hrest : alternate (n.variableTexts.drop (k + 1)) (separators.drop (k + 1)) =
      d.tree.spell := by
    obtain ⟨hlt, heq⟩ := List.getElem?_eq_some_iff.mp (text_eq hd)
    rw [List.drop_eq_getElem_cons hlt, List.drop_eq_nil_of_le (by omega),
      List.drop_eq_nil_of_le (by omega), heq, alternate, alternate, List.append_nil]
  have hsource := h.source_eq
  rw [alternate_take_drop (k := k) (by omega) (by omega), alternate_drop (text_eq hprevious) hs,
    hrest] at hsource
  rw [alternate_eraseIdx_last (text_eq hprevious) (by omega) (by omega), ← List.append_assoc]
  refine applyEdits_cut (s ++ d.tree.spell) ?_ ?_ ?_ rfl
  · rw [hsource]
    simp only [List.append_assoc]
  · have hstart := h.start_eq k previous hprevious
    show (previous.stop : Int) = _
    rw [Node.stop_eq, hstart, ← size_append, List.append_assoc]
  · have hstart := h.start_eq (k + 1) d hd
    rw [alternate_take_succ (text_eq hprevious) hs] at hstart
    show (d.stop : Int) = _
    rw [Node.stop_eq, hstart, ← size_append]
    simp only [List.append_assoc]

end Module.Lists

/-- A removed variable of a top-level declaration leaves the others, the separators between
    them and all around them as they are: with the variable one separator goes away, the one
    after it or, for the last variable, the one before it.  The only variable of a
    declaration goes away with the span of its statement. -/
theorem Module.removeVariable_leaves {stmt : Node} (hstmt : stmt ∈ m.statements)
    (hvariables : stmt.unwrap.kind.isVariables = true) :
    ∃ before separators after, m.Lists stmt.unwrap before separators after ∧
      ∀ k d, stmt.unwrap.declarators[k]? = some d →
        (stmt.unwrap.declarators.length = 1 →
          m.removeVariable ⟨stmt, stmt.unwrap, d⟩ = Edit.removal (m.statementSpan stmt)) ∧
        (2 ≤ stmt.unwrap.declarators.length →
          m.applyEdits [m.removeVariable ⟨stmt, stmt.unwrap, d⟩] =
            .ok (m.withSource (encodeChars (before ++
              (alternate (stmt.unwrap.variableTexts.eraseIdx k)
                (separators.eraseIdx (min k (separators.length - 1))) ++ after))))) := by
  have hm : m.Readable := m.readable_of_statement hstmt
    (Or.inl fun herror => by rw [herror] at hvariables; cases hvariables)
  obtain ⟨before, separators, after, hlists⟩ := m.exists_lists hm hstmt hvariables
  refine ⟨before, separators, after, hlists, ?_⟩
  intro k d hd
  have hlength := hlists.length_eq
  obtain ⟨hk, hget⟩ := List.getElem?_eq_some_iff.mp hd
  have hsplit : stmt.unwrap.declarators = stmt.unwrap.declarators.take k ++
      d :: stmt.unwrap.declarators.drop (k + 1) := by
    rw [← hget, ← List.drop_eq_getElem_cons hk, List.take_append_drop]
  rw [m.removeVariable_split (v := ⟨stmt, stmt.unwrap, d⟩) hm hstmt rfl hsplit]
  cases hlater : stmt.unwrap.declarators.drop (k + 1) with
  | cons next later =>
    have hnext : stmt.unwrap.declarators[k + 1]? = some next := by
      rw [← List.head?_drop, hlater, List.head?_cons]
    have hlt := (List.getElem?_eq_some_iff.mp hnext).1
    rw [m.removalBetween_next, Nat.min_eq_left (by omega)]
    exact ⟨fun hone => absurd hone (by omega), fun _ => hlists.cut_until hd hnext⟩
  | nil =>
    have hlast : stmt.unwrap.declarators.length = k + 1 := by
      have := List.drop_eq_nil_iff.mp hlater
      omega
    cases k with
    | zero => exact ⟨fun _ => rfl, fun htwo => absurd htwo (by omega)⟩
    | succ k =>
      obtain ⟨previous, hprevious⟩ : ∃ previous, stmt.unwrap.declarators[k]? = some previous :=
        ⟨_, List.getElem?_eq_getElem (by omega)⟩
      have hearlier : stmt.unwrap.declarators.take (k + 1) =
          (stmt.unwrap.declarators.take k).concat previous := by
        obtain ⟨hlt, heq⟩ := List.getElem?_eq_some_iff.mp hprevious
        rw [List.take_succ_eq_append_getElem hlt, heq, List.concat_eq_append]
      rw [hearlier, m.removalBetween_previous, Nat.min_eq_right (by omega),
        show separators.length - 1 = k by omega]
      exact ⟨fun hone => absurd hone (by omega), fun _ => hlists.cut_after hprevious hd hlast⟩

/-- A module with three variables in one declaration. -/
def listedModule : Module := Module.ofText none
  "export const a = 1, /* c */ b\n  , c: number;\nlet d;\n"

theorem listedModule_statements : listedModule.statements ≠ [] := by
  have hsome : listedModule.statements.isEmpty = false := by decide +kernel
  exact List.isEmpty_eq_false_iff.mp hsome

/-- The first statement of that module. -/
def listedStatement : Node := listedModule.statements.head listedModule_statements

theorem Module.removeVariable_leaves_listed : listedStatement ∈ listedModule.statements ∧
    listedStatement.unwrap.kind.isVariables = true ∧
    listedStatement.unwrap.variableTexts =
      ["a = 1".toList, "b".toList, "c: number".toList] ∧
    ∃ before separators after, listedModule.Lists listedStatement.unwrap before separators after ∧
      ∀ k d, listedStatement.unwrap.declarators[k]? = some d →
        listedModule.applyEdits
          [listedModule.removeVariable ⟨listedStatement, listedStatement.unwrap, d⟩] =
            .ok (listedModule.withSource (encodeChars (before ++
              (alternate (listedStatement.unwrap.variableTexts.eraseIdx k)
                (separators.eraseIdx (min k (separators.length - 1))) ++ after)))) := by
  have hstmt : listedStatement ∈ listedModule.statements := List.head_mem listedModule_statements
  have hvariables : listedStatement.unwrap.kind.isVariables = true := by decide +kernel
  have hlength : 2 ≤ listedStatement.unwrap.declarators.length := by decide +kernel
  obtain ⟨before, separators, after, hlists, hleaves⟩ :=
    listedModule.removeVariable_leaves hstmt hvariables
  refine ⟨hstmt, hvariables, by decide +kernel, before, separators, after, hlists, ?_⟩
  intro k d hd
  exact (hleaves k d hd).2 hlength

end ComponentDecl
