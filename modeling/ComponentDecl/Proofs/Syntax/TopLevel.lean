import ComponentDecl.Proofs.Syntax.FilledGrammar

/-! # What stands at the top of a module

    The trees directly below a whole module are white space, comments and
    statements; only a final fault may end in white space.  Of a statement that
    exports a value, nothing but keywords and decorators stands before that value.

    Key theorem:
    - `parse_children`: the shape of the trees below a whole module
-/

namespace ComponentDecl.Syntax

open Lexeme Fragment

variable {g : Grammar}

/-! ### Exports -/

/-- A keyword, a decorator, white space or a comment. -/
def LeadsExport (t : Tree) : Prop :=
  t.role = none ∧ (t.kind = .blank ∨ t.kind = .comment ∨ t.kind = .mark ∨ t.kind = .decorator)

/-- There is no value, or what stands before it are keywords and decorators. -/
def ValueLed (ts : List Tree) : Prop :=
  (∀ t ∈ ts, t.role ≠ some .value) ∨
    ∃ before t after, ts = before ++ t :: after ∧ t.role = some .value ∧ t.kind ≠ .blank ∧
      ∀ u ∈ before, LeadsExport u

theorem ValueLed.prepend {ts : List Tree} (h : ValueLed ts) {before : List Tree}
    (hbefore : ∀ u ∈ before, LeadsExport u) : ValueLed (before ++ ts) := by
  rcases h with hnone | ⟨head, t, after, rfl, ht, hblank, hhead⟩
  · refine Or.inl fun u hu => ?_
    rcases List.mem_append.mp hu with hu | hu
    · rw [(hbefore u hu).1]
      exact nofun
    · exact hnone u hu
  · refine Or.inr ⟨before ++ head, t, after, by simp, ht, hblank, fun u hu => ?_⟩
    exact (List.mem_append.mp hu).elim (hbefore u) (hhead u)

theorem leadsExport_of_trivia {t : Tree} (h : IsTrivia t) : LeadsExport t := by
  refine ⟨h.role_eq, ?_⟩
  rcases h.kind_eq with hk | hk
  · exact Or.inl hk
  · exact Or.inr (Or.inl hk)

theorem reads_word_leadsExport (w : String) : Reads LeadsExport (word w) :=
  reads_token (fun _ => leadsExport_of_trivia)
    fun _ _ _ => ⟨rfl, Or.inr (Or.inr (Or.inl rfl))⟩

theorem reads_decorator_leadsExport : Reads LeadsExport (decorator g) :=
  reads_node (fun _ => leadsExport_of_trivia) fun _ _ _ => ⟨rfl, Or.inr (Or.inr (Or.inr rfl))⟩

/-- No tree has the role of a value. -/
def NoValue (t : Tree) : Prop :=
  t.role ≠ some .value

theorem noValue_of_role {t : Tree} (h : t.role = none) : NoValue t := by
  rw [NoValue, h]
  exact nofun

theorem reads_noValue_token {k : Kind} {l : Lexeme} : Reads NoValue (token k l) :=
  reads_token (fun _ h => noValue_of_role h.role_eq) fun _ _ _ => noValue_of_role rfl

theorem reads_noValue_node {k : Kind} {a : Fragment} : Reads NoValue (node k a) :=
  reads_node (fun _ h => noValue_of_role h.role_eq) fun _ _ _ => noValue_of_role rfl

theorem Fragment.Single.reads_noValue {a : Fragment} (ha : Single a) : Reads NoValue a :=
  ha.reads (fun _ h => noValue_of_role h.role_eq) fun _ h => noValue_of_role h.role_eq

theorem reads_noValue_role {a : Fragment} {r : Role} (hr : r ≠ .value) (ha : Reads NoValue a) :
    Reads NoValue (role r a) := by
  intro s x h t ht
  obtain ⟨y, hy, -, ⟨-, hx⟩ | ⟨ts, u, hytrees, hx⟩⟩ := mapLast_spec h
  · simp [hx] at ht
  · rw [hx, List.mem_append, List.mem_singleton] at ht
    rcases ht with ht | rfl
    · exact ha s y hy t (by simp [hytrees, ht])
    · cases u <;> simp [NoValue, Tree.withRole, Tree.role, hr]

theorem reads_noValue_semicolon (e : Ending) : Reads NoValue (semicolon e) :=
  reads_semicolon (fun _ _ _ => noValue_of_role rfl) e

theorem reads_noValue_declaration : Reads NoValue (declaration g) := by
  have hplain : Reads NoValue (plainDeclaration g) := by
    refine reads_noValue_node.or (reads_noValue_node.or (reads_noValue_node.or ?_))
    refine reads_noValue_node.or (reads_noValue_node.or (Reads.or ?_ ?_))
    · exact reads_noValue_node.or (reads_noValue_node.or reads_alt_nil)
    · refine reads_noValue_node.or (reads_noValue_node.or (reads_noValue_node.or ?_))
      exact reads_noValue_node.or (reads_noValue_node.or (reads_noValue_node.or reads_alt_nil))
  exact reads_noValue_node.or (hplain.or reads_alt_nil)

theorem valueLed_exportStatement (hexpression : Single (g .expression)) :
    Reads (fun t => t.kind = .exportStatement → ValueLed t.children) (exportStatement g) := by
  refine reads_node (fun t ht hkind => ?_) fun s r h _ => ?_
  · rcases ht.kind_eq with hk | hk <;> simp [hk] at hkind
  obtain ⟨x, y, hx, hy, htrees, -⟩ := seq_cons_spec h
  obtain ⟨z, w, hz, hw, htrees', -⟩ := seq_cons_spec hy
  show ValueLed r.trees
  rw [htrees, htrees']
  refine ValueLed.prepend (ValueLed.prepend ?_ (reads_word_leadsExport _ _ z hz))
    (reads_decorator_leadsExport.many _ x hx)
  -- Only the second way to export by default reads a value.
  have hends := (reads_noValue_semicolon .expression).seq reads_seq_nil
  have hname : Reads NoValue moduleExportName :=
    reads_noValue_token.or (Reads.or reads_noValue_node reads_alt_nil)
  have horigin : Reads NoValue (fromClause g) :=
    reads_noValue_token.seq (reads_noValue_node.seq (reads_noValue_node.opt.seq reads_seq_nil))
  have hall : Reads NoValue (alt [seq [sym "*", fromClause g],
      seq [node .namespaceExport (seq [sym "*", word "as", moduleExportName]),
        fromClause g]]) :=
    (reads_noValue_token.seq (horigin.seq reads_seq_nil)).or
      (Reads.or (reads_noValue_node.seq (horigin.seq reads_seq_nil)) reads_alt_nil)
  have hdeclared : Reads NoValue (role .declaration (declaration g)) :=
    reads_noValue_role nofun reads_noValue_declaration
  have hclause : Reads NoValue exportClause := reads_noValue_node
  obtain ⟨a, ha, hread⟩ := alt_spec hw
  simp only [List.mem_cons, List.not_mem_nil, or_false] at ha
  rcases ha with rfl | rfl | rfl | rfl | rfl | rfl | rfl
  · obtain ⟨d, e, hd, he, htrees, -⟩ := seq_cons_spec hread
    rw [htrees]
    refine ValueLed.prepend ?_ (reads_word_leadsExport _ _ d hd)
    rcases alt_cons_spec he with he | he
    · exact Or.inl (hdeclared _ e he)
    rcases alt_cons_spec he with he | he
    · obtain ⟨v, u, hv, -, htrees, -⟩ := seq_cons_spec he
      obtain ⟨x, hx, -, ⟨hempty, -⟩ | ⟨ts, t, hxtrees, hvtrees⟩⟩ := mapLast_spec hv
      · obtain ⟨before, t, hsingle, -⟩ := hexpression _ x hx
        simp [hempty] at hsingle
      · obtain ⟨before, t', hsingle, hbefore, hsolid⟩ := hexpression _ x hx
        obtain ⟨rfl, hsame⟩ := List.append_inj' (hxtrees.symm.trans hsingle) rfl
        obtain rfl := List.singleton_inj.mp hsame
        rw [htrees, hvtrees, List.append_assoc]
        refine Or.inr ⟨ts, t.withRole .value, u.trees, rfl, ?_, ?_, ?_⟩
        · cases t <;> rfl
        · have := hsolid.not_blank
          cases t <;> exact this
        · exact fun u hu => leadsExport_of_trivia (hbefore u hu)
    · cases he
  · exact Or.inl (((reads_noValue_token.seq ((Reads.or (hclause.seq (horigin.opt.seq reads_seq_nil))
      (hall.or reads_alt_nil)).seq hends))) _ w hread)
  · exact Or.inl (hdeclared _ w hread)
  · exact Or.inl ((hall.seq hends) _ w hread)
  · exact Or.inl ((hclause.seq (horigin.opt.seq hends)) _ w hread)
  · exact Or.inl ((reads_noValue_token.seq (hexpression.reads_noValue.seq hends)) _ w hread)
  · exact Or.inl ((reads_noValue_token.seq (reads_noValue_token.seq
      (reads_noValue_token.seq hends))) _ w hread)

theorem valueLed_of_kind_ne {k : Kind} {a : Fragment} (hk : k ≠ .exportStatement) :
    Reads (fun t => t.kind = .exportStatement → ValueLed t.children) (node k a) := by
  refine reads_node (fun t ht hkind => ?_) fun s r h hkind => absurd hkind hk
  rcases ht.kind_eq with h | h <;> simp [h] at hkind

/-- In a statement that exports a value, keywords and decorators lead up to that
    value. -/
theorem valueLed_statement (hg : g.Sound) :
    Reads (fun t => t.kind = .exportStatement → ValueLed t.children) (statement g) := by
  have other : ∀ {k : Kind} {a : Fragment} {as : List Fragment}, k ≠ .exportStatement →
      Reads (fun t => t.kind = .exportStatement → ValueLed t.children) (alt as) →
      Reads (fun t => t.kind = .exportStatement → ValueLed t.children) (alt (node k a :: as)) :=
    fun hk has => (valueLed_of_kind_ne hk).or has
  refine other (by decide) ((valueLed_exportStatement hg.expression).or ?_)
  refine other (by decide) (Reads.or (other (by decide) (Reads.or ?_ reads_alt_nil)) ?_)
  · refine other (by decide) (other (by decide) (other (by decide) (other (by decide) ?_)))
    refine other (by decide) (Reads.or ?_ (other (by decide) (other (by decide) ?_)))
    · exact other (by decide) (other (by decide) reads_alt_nil)
    · refine other (by decide) (other (by decide) (other (by decide) ?_))
      exact other (by decide) reads_alt_nil
  · refine other (by decide) (other (by decide) (other (by decide) (Reads.or ?_ ?_)))
    · refine other (by decide) (other (by decide) (other (by decide) (other (by decide) ?_)))
      refine other (by decide) (other (by decide) (other (by decide) (other (by decide) ?_)))
      refine other (by decide) (other (by decide) (other (by decide) (other (by decide) ?_)))
      exact other (by decide) (other (by decide) reads_alt_nil)
    · exact other (by decide) reads_alt_nil

/-! ### Whole modules -/

/-- A tree that stands at the top of a module: white space, or a tree with
    visible ends whose value, if it exports one, comes after its keywords. -/
def IsTopLevel (t : Tree) : Prop :=
  IsSettled t ∧ (t.kind = .exportStatement → ValueLed t.children)

theorem IsTrivia.topLevel {t : Tree} (h : IsTrivia t) : IsTopLevel t := by
  refine ⟨h.settled, fun hkind => ?_⟩
  rcases h.kind_eq with hk | hk <;> simp [hk] at hkind

theorem reads_topLevel_statement (depth : Nat) :
    Reads IsTopLevel (grammar depth .statement) := by
  cases depth with
  | zero =>
    intro s r h
    cases h
  | succ depth =>
    intro s r h t ht
    obtain ⟨x, y, hx, hy, htrees, -⟩ := andThen_spec h
    rw [htrees, List.mem_append] at ht
    rcases ht with ht | ht
    · exact ((trivia_spec hx).1 t ht).topLevel
    have hwhole := whole_statement (sound_grammar depth)
    refine ⟨?_, valueLed_statement (sound_grammar depth) _ y hy t ht⟩
    obtain ⟨before, u, hread, hbefore, hu⟩ := hwhole.single _ y hy
    rw [hread, List.mem_append, List.mem_singleton] at ht
    rcases ht with ht | rfl
    · exact (hbefore t ht).settled
    · have hends := hwhole.solid _ y hy
      rw [hread, Tree.spellAll_append] at hends
      refine Or.inr ⟨hu.not_blank, hu.starts, ?_⟩
      simpa using hends.of_append (by simpa using hu.starts)

theorem reads_topLevel_hashBang :
    Reads IsTopLevel (lexeme .hashBangLine Lexeme.hashBang) := by
  intro s r h t ht
  obtain ⟨n, hn, htrees, -⟩ := lexeme_spec h
  rw [htrees, List.mem_singleton] at ht
  subst ht
  refine ⟨Or.inr ⟨nofun, ?_, ?_⟩, nofun⟩
  · rw [Tree.spell_token]
    refine startsVisibly_of_append_eq (List.take_append_drop n s) (Or.inr ?_)
      (shows_hashBang s n hn).ne_nil
    unfold hashBang at hn
    split at hn
    · exact ⟨'#', _, rfl, by decide⟩
    · cases hn
  · rw [Tree.spell_token]
    exact shows_hashBang s n hn

theorem many_total (a : Fragment) (s : List Char) : ∃ r, many a s = some r := by
  have key : ∀ fuel t, ∃ r, repeatWithin fuel a t = some r := by
    intro fuel
    induction fuel with
    | nil => exact fun t => ⟨_, rfl⟩
    | cons c fuel ih =>
      intro t
      simp only [repeatWithin]
      cases a t with
      | none => exact ⟨_, rfl⟩
      | some x =>
        obtain ⟨y, hy⟩ := ih x.rest
        simp only [hy]
        split
        · exact ⟨_, rfl⟩
        · exact ⟨_, rfl⟩
  exact key s s

theorem fault_spec (s : List Char) :
    ∃ r, fault s = some r ∧ r.rest = [] ∧
      (r.trees = [] ∨ s ≠ [] ∧ r.trees = [.token none .error s]) := by
  cases s with
  | nil => exact ⟨_, rfl, rfl, Or.inl rfl⟩
  | cons c s => exact ⟨_, rfl, rfl, Or.inr ⟨nofun, rfl⟩⟩

/-- A module is read as an optional first line for an interpreter, statements,
    white space with comments, and perhaps a fault. -/
theorem parse_spec (s : List Char) :
    ∃ (x : Reading s) (y : Reading x.rest) (z : Reading y.rest) (faults : List Tree),
      opt (lexeme .hashBangLine Lexeme.hashBang) s = some x ∧
      many (grammar (depthBound s) .statement) x.rest = some y ∧ trivia y.rest = some z ∧
      (parse s).children = x.trees ++ y.trees ++ z.trees ++ faults ∧
      (faults = [] ∨ z.rest ≠ [] ∧ faults = [.token none .error z.rest]) := by
  obtain ⟨x, hx⟩ : ∃ x, opt (lexeme .hashBangLine Lexeme.hashBang) s = some x := by
    simp only [opt, alt, nothing]
    cases lexeme .hashBangLine Lexeme.hashBang s with
    | none => exact ⟨_, rfl⟩
    | some x => exact ⟨x, rfl⟩
  obtain ⟨y, hy⟩ := many_total (grammar (depthBound s) .statement) x.rest
  obtain ⟨z, hz⟩ : ∃ z, trivia y.rest = some z := many_total triviaPiece y.rest
  obtain ⟨w, hw, hend, hfault⟩ := fault_spec z.rest
  refine ⟨x, y, z, w.trees, hx, hy, hz, ?_, hfault⟩
  simp [parse, programParts, seq, andThen, hx, hy, hz, hw, hend, Tree.children]

/-- The trees directly below a whole module, from left to right: white space and
    trees with visible ends, and after them perhaps one fault that starts
    visibly. -/
theorem parse_children (s : List Char) :
    ∃ trees faults, (parse s).children = trees ++ faults ∧ (∀ t ∈ trees, IsTopLevel t) ∧
      (faults = [] ∨ ∃ text, faults = [.token none .error text] ∧ StartsVisibly text) := by
  obtain ⟨x, y, z, faults, hx, hy, hz, hchildren, hfaults⟩ := parse_spec s
  obtain ⟨htrivia, hstarts⟩ := trivia_spec hz
  refine ⟨x.trees ++ y.trees ++ z.trees, faults, hchildren, fun t ht => ?_, ?_⟩
  · rw [List.mem_append, List.mem_append] at ht
    rcases ht with (ht | ht) | ht
    · exact reads_topLevel_hashBang.opt _ x hx t ht
    · exact (reads_topLevel_statement _).many _ y hy t ht
    · exact (htrivia t ht).topLevel
  · rcases hfaults with hnone | ⟨hne, hfault⟩
    · exact Or.inl hnone
    · exact Or.inr ⟨_, hfault, hstarts.resolve_left hne⟩

/-- No tree below a whole module is empty, however deep it stands. -/
theorem full_parse_children (s : List Char) : ∀ t ∈ (parse s).children, Full t := by
  intro t ht
  obtain ⟨x, y, z, faults, hx, hy, hz, hchildren, hfaults⟩ := parse_spec s
  rw [hchildren, List.mem_append, List.mem_append, List.mem_append] at ht
  rcases ht with ((ht | ht) | ht) | ht
  · exact Reads.opt (filled_lexeme shows_hashBang.takes rfl) _ x hx t ht
  · exact (filled_grammar _ _).many _ y hy t ht
  · exact filled_trivia _ z hz t ht
  · rcases hfaults with rfl | ⟨hne, rfl⟩
    · cases ht
    · rw [List.mem_singleton.mp ht]
      exact .token hne rfl

end ComponentDecl.Syntax
