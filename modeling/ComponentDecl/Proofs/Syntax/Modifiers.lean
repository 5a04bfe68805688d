import ComponentDecl.Proofs.Syntax.TopLevel
import ComponentDecl.Module.Query

/-! # What stands before a class

    A statement leads up to the class in it by words that modify it, by decorators and by
    white space with comments, and behind the class no other class or wrapper follows.  Of the
    trees that a rule of the grammar reads only the kinds of those at the top matter here:
    types read no class, and no expression reads a wrapper.

    Key theorem:
    - `classLed_parse`: every tree directly below a whole module leads up to its class
-/

namespace ComponentDecl.Syntax

open Lexeme Fragment

/-! ### Leading trees -/

/-- The marks that may stand before a class in its statement. -/
def leadingMarks : List String := ["export", "default", "declare", "="]

/-- A tree that may stand before a class in its statement. -/
inductive LeadsClass : Tree → Prop where
  | trivia {t : Tree} (h : IsTrivia t) : LeadsClass t
  | decorator {t : Tree} (h : t.kind = .decorator) : LeadsClass t
  | mark {w : String} (h : w ∈ leadingMarks) : LeadsClass (.token none .mark w.toList)

/-- Holds of classes and of the statements that may hold one. -/
def Kind.bearsClass (k : Kind) : Bool := k.isWrapper || k.isClass

theorem Kind.isWrapper_of_not_bearsClass {k : Kind} (h : k.bearsClass = false) :
    k.isWrapper = false :=
  (Bool.or_eq_false_iff.mp h).1

theorem IsTrivia.not_bearsClass {t : Tree} (h : IsTrivia t) : t.kind.bearsClass = false := by
  rcases h.kind_eq with hk | hk <;> rw [hk] <;> rfl

theorem LeadsClass.not_bearsClass {t : Tree} (h : LeadsClass t) : t.kind.bearsClass = false := by
  cases h with
  | trivia h => exact h.not_bearsClass
  | decorator h => rw [h]; rfl
  | mark _ => rfl

mutual

/-- Holds of a tree that is no wrapper, or that leads up to the class in it. -/
inductive ClassLed : Tree → Prop where
  | plain {t : Tree} (h : t.kind.isWrapper = false) : ClassLed t
  | wrapper {t : Tree} (h : LedToClass t.children) : ClassLed t

/-- Holds of neighbouring trees that hold no class, or one tree with a class, where all that
    stands before that tree leads up to it. -/
inductive LedToClass : List Tree → Prop where
  | none {ts : List Tree} (h : ∀ t ∈ ts, t.kind.bearsClass = false) : LedToClass ts
  | one {lead after : List Tree} {t : Tree} (hlead : ∀ u ∈ lead, LeadsClass u) (h : ClassLed t)
    (hafter : ∀ u ∈ after, u.kind.bearsClass = false) : LedToClass (lead ++ t :: after)

end

theorem ClassLed.withRole {t : Tree} (h : ClassLed t) (r : Role) : ClassLed (t.withRole r) := by
  cases h with
  | plain h => exact .plain (by cases t <;> exact h)
  | wrapper h => exact .wrapper (by cases t <;> exact h)

theorem IsTrivia.classLed {t : Tree} (h : IsTrivia t) : ClassLed t :=
  .plain (Kind.isWrapper_of_not_bearsClass h.not_bearsClass)

theorem LedToClass.prepend {ts lead : List Tree} (h : LedToClass ts)
    (hlead : ∀ u ∈ lead, LeadsClass u) : LedToClass (lead ++ ts) := by
  cases h with
  | none h =>
    exact .none (List.forall_mem_append.mpr ⟨fun u hu => (hlead u hu).not_bearsClass, h⟩)
  | one hlead' ht hafter =>
    rw [← List.append_assoc]
    exact .one (List.forall_mem_append.mpr ⟨hlead, hlead'⟩) ht hafter

theorem LedToClass.append {ts after : List Tree} (h : LedToClass ts)
    (hafter : ∀ u ∈ after, u.kind.bearsClass = false) : LedToClass (ts ++ after) := by
  cases h with
  | none h => exact .none (List.forall_mem_append.mpr ⟨h, hafter⟩)
  | one hlead ht hafter' =>
    rw [List.append_assoc, List.cons_append]
    exact .one hlead ht (List.forall_mem_append.mpr ⟨hafter', hafter⟩)

/-! ### Fragments without classes -/

namespace Fragment

/-- The fragment reads no class and no wrapper. -/
abbrev Barren (a : Fragment) : Prop := Reads (fun t => t.kind.bearsClass = false) a

/-- The fragment reads no wrapper. -/
abbrev Unwrapped (a : Fragment) : Prop := Reads (fun t => t.kind.isWrapper = false) a

theorem barren_token {k : Kind} {l : Lexeme} (hk : k.bearsClass = false) : Barren (token k l) :=
  reads_token (fun _ h => h.not_bearsClass) fun _ _ _ => hk

theorem barren_node {k : Kind} {a : Fragment} (hk : k.bearsClass = false) : Barren (node k a) :=
  reads_node (fun _ h => h.not_bearsClass) fun _ _ _ => hk

theorem barren_semicolon (e : Ending) : Barren (semicolon e) :=
  reads_semicolon (by rintro k text (rfl | rfl | rfl) <;> rfl) e

theorem unwrapped_node {k : Kind} {a : Fragment} (hk : k.isWrapper = false) :
    Unwrapped (node k a) :=
  reads_node (fun _ h => Kind.isWrapper_of_not_bearsClass h.not_bearsClass) fun _ _ _ => hk

theorem unwrapped_token {k : Kind} {l : Lexeme} (hk : k.isWrapper = false) :
    Unwrapped (token k l) :=
  reads_token (fun _ h => Kind.isWrapper_of_not_bearsClass h.not_bearsClass) fun _ _ _ => hk

/-- A chain reads no tree of some kinds if its first part reads none and no step makes one. -/
theorem reads_chain_kinds {bad : Kind → Bool} {a : Fragment} {steps : List Step}
    (ha : Reads (fun t => bad t.kind = false) a)
    (hsteps : (steps.all fun step => !bad step.kind) = true) :
    Reads (fun t => bad t.kind = false) (chain a steps) :=
  Reads.chain ha fun step hstep _ => by
    simpa [Tree.kind] using List.all_eq_true.mp hsteps step hstep

theorem reads_chainOnce_kinds {bad : Kind → Bool} {a : Fragment} {steps : List Step}
    (ha : Reads (fun t => bad t.kind = false) a)
    (hsteps : (steps.all fun step => !bad step.kind) = true) :
    Reads (fun t => bad t.kind = false) (chainOnce a steps) :=
  Reads.chainOnce ha fun step hstep _ => by
    simpa [Tree.kind] using List.all_eq_true.mp hsteps step hstep

theorem Unwrapped.spaced {a : Fragment} (ha : Unwrapped a) : Unwrapped (spaced a) :=
  Reads.spaced (fun _ h => Kind.isWrapper_of_not_bearsClass h.not_bearsClass) ha

end Fragment

variable {g : Grammar}

/-! ### Types -/

theorem not_bearsClass_asTypeName {t : Tree} (h : t.kind.bearsClass = false) :
    (asTypeName t).kind.bearsClass = false := by
  unfold asTypeName
  split
  · rfl
  · rfl
  · exact h

theorem barren_namedWords {k : Kind} {ws : List String} (hk : k.bearsClass = false) :
    Barren (alt (ws.map (namedWord k))) := by
  refine reads_alt fun a ha => ?_
  obtain ⟨w, -, rfl⟩ := List.mem_map.mp ha
  exact barren_token hk

theorem barren_predefinedType : Barren predefinedType :=
  Reads.or (barren_node rfl) (Reads.or (barren_namedWords rfl) reads_alt_nil)

theorem barren_primaryType : Barren (primaryType g) := by
  have hname : Barren typeName :=
    Reads.mapLast (reads_chain_kinds (barren_token rfl) rfl) fun _ => not_bearsClass_asTypeName
  refine Reads.or (barren_node rfl) (Reads.or (barren_node rfl) (Reads.or (barren_node rfl) ?_))
  refine Reads.or (barren_node rfl) (barren_predefinedType.or (Reads.or (barren_node rfl) ?_))
  refine Reads.or (barren_token rfl) (Reads.or (barren_node rfl) (Reads.or ?_ ?_))
  · exact reads_chain_kinds (barren_node rfl) rfl
  · refine Reads.or (barren_token rfl) (Reads.or (barren_token rfl) (Reads.or ?_ reads_alt_nil))
    exact reads_chainOnce_kinds hname rfl

theorem barren_keysType : Barren (keysType g) :=
  Reads.or (barren_node rfl) (Reads.or (reads_chain_kinds barren_primaryType rfl) reads_alt_nil)

theorem barren_joinedTypes {k : Kind} {mark : String} {operand : Fragment}
    (hk : k.bearsClass = false) (h : Barren operand) : Barren (joinedTypes k mark operand) :=
  reads_chain_kinds (Reads.or (barren_node hk) (h.or reads_alt_nil)) (by simp [hk])

theorem barren_type (hkeys : Barren (g .keysType)) : Barren (type g) := by
  have hoperand : Barren (typeOperand g) :=
    Reads.or (barren_node rfl) (Reads.or (barren_node rfl) (Reads.or (barren_node rfl)
      (Reads.or (barren_node rfl) (hkeys.or reads_alt_nil))))
  exact reads_chainOnce_kinds (barren_joinedTypes rfl (barren_joinedTypes rfl hoperand)) rfl

/-! ### Expressions -/

theorem unwrapped_primary : Unwrapped (primary g) := by
  have hname : Unwrapped valueName :=
    Reads.or (unwrapped_token rfl) (Reads.or (unwrapped_token rfl) reads_alt_nil)
  have hfunction : Unwrapped (functionExpression g) :=
    Reads.or (unwrapped_node rfl) (Reads.or (unwrapped_node rfl) reads_alt_nil)
  refine Reads.or (unwrapped_node rfl) (Reads.or (unwrapped_token rfl) ?_)
  refine Reads.or (unwrapped_token rfl) (Reads.or (unwrapped_token rfl) ?_)
  refine Reads.or (unwrapped_node rfl) (Reads.or (unwrapped_node rfl) ?_)
  refine Reads.or (unwrapped_node rfl) (Reads.or (unwrapped_token rfl) ?_)
  refine Reads.or (unwrapped_token rfl) (Reads.or (unwrapped_token rfl) ?_)
  refine Reads.or (unwrapped_node rfl) (Reads.or (unwrapped_node rfl) (hfunction.or ?_))
  refine Reads.or (unwrapped_node rfl) (Reads.or (unwrapped_node rfl) ?_)
  exact Reads.or (unwrapped_token rfl) (Reads.or (unwrapped_token rfl) (hname.or reads_alt_nil))

theorem unwrapped_constructed : Unwrapped (constructed g) :=
  Reads.or (unwrapped_node rfl) (unwrapped_primary.or reads_alt_nil)

theorem unwrapped_operand (hconstructed : Unwrapped (g .constructed)) : Unwrapped (operand g) := by
  refine Reads.or (unwrapped_node rfl) (Reads.or (unwrapped_node rfl) ?_)
  refine Reads.or (unwrapped_node rfl) (Reads.or (unwrapped_node rfl) (Reads.or ?_ reads_alt_nil))
  exact reads_chainOnce_kinds (reads_chain_kinds hconstructed rfl) rfl

theorem unwrapped_joined {operand : Fragment} (operator : Fragment) (h : Unwrapped operand)
    {others : List Step} (hothers : (others.all fun step => !step.kind.isWrapper) = true) :
    Unwrapped (joined operand operator others) :=
  reads_chain_kinds h hothers

theorem unwrapped_levels {operand : Fragment} (h : Unwrapped operand) (levels : List Fragment) :
    Unwrapped (levels.foldl (joined · · []) operand) := by
  induction levels generalizing operand with
  | nil => exact h
  | cons level levels ih => exact ih (unwrapped_joined level h rfl)

theorem unwrapped_expression (hoperand : Unwrapped (g .operand)) : Unwrapped (expression g) := by
  have hbinary : Unwrapped (binary g) := by
    have harithmetic := unwrapped_levels hoperand arithmeticLevels
    exact unwrapped_levels (unwrapped_joined _ harithmetic (by rfl)) _
  exact Reads.or (unwrapped_node rfl) (Reads.or (unwrapped_node rfl)
    (Reads.or (reads_chainOnce_kinds hbinary rfl) reads_alt_nil))

/-- The rules that stand directly in a statement read no classes and wrappers where they
    should not. -/
structure Grammar.Plain (g : Grammar) : Prop where
  type : Barren (g .type)
  expression : Unwrapped (g .expression)

theorem plain_grammar (depth : Nat) : Grammar.Plain (grammar depth) := by
  -- A rule stands on rules of the depth below it, and at depth 0 none reads anything.
  have hzero : ∀ {P : Tree → Prop} r, Reads P (grammar 0 r) := by
    intro P r s x h
    cases h
  have hkeys : ∀ depth, Barren (grammar depth .keysType) := fun
    | 0 => hzero _
    | _ + 1 => Reads.spaced (fun _ h => h.not_bearsClass) barren_keysType
  have hconstructed : ∀ depth, Unwrapped (grammar depth .constructed) := fun
    | 0 => hzero _
    | _ + 1 => unwrapped_constructed.spaced
  have hoperand : ∀ depth, Unwrapped (grammar depth .operand) := fun
    | 0 => hzero _
    | depth + 1 => (unwrapped_operand (hconstructed depth)).spaced
  cases depth with
  | zero => exact ⟨hzero _, hzero _⟩
  | succ depth =>
    exact ⟨Reads.spaced (fun _ h => h.not_bearsClass) (barren_type (hkeys depth)),
      (unwrapped_expression (hoperand depth)).spaced⟩

/-! ### Statements -/

namespace Fragment

/-- Whatever the fragment reads leads up to the class in it. -/
def Leads (a : Fragment) : Prop :=
  ∀ s (r : Reading s), a s = some r → LedToClass r.trees

theorem Barren.leads {a : Fragment} (ha : Barren a) : Leads a :=
  fun s r h => .none (ha s r h)

theorem Leads.or {a : Fragment} {as : List Fragment} (ha : Leads a) (has : Leads (alt as)) :
    Leads (alt (a :: as)) := by
  intro s r h
  exact (alt_cons_spec h).elim (ha s r) (has s r)

theorem leads_alt_nil : Leads (alt []) := by
  intro s r h
  cases h

/-- What leads up to a class may stand before it. -/
theorem Leads.after {a : Fragment} {as : List Fragment} (has : Leads (seq as))
    (ha : Reads LeadsClass a) : Leads (seq (a :: as)) := by
  intro s r h
  obtain ⟨x, y, hx, hy, htrees, -⟩ := seq_cons_spec h
  rw [htrees]
  exact (has _ y hy).prepend (ha _ x hx)

/-- Behind a class anything else may follow. -/
theorem Leads.first {a : Fragment} {as : List Fragment} (ha : Leads a) (has : Barren (seq as)) :
    Leads (seq (a :: as)) := by
  intro s r h
  obtain ⟨x, y, hx, hy, htrees, -⟩ := seq_cons_spec h
  rw [htrees]
  exact (ha _ x hx).append (has _ y hy)

theorem leads_role_of_single {a : Fragment} (hsingle : Single a) (ha : Reads ClassLed a)
    (r : Role) : Leads (role r a) := by
  intro s x h
  obtain ⟨y, hy, -, ⟨hempty, -⟩ | ⟨ts, t, hytrees, hxtrees⟩⟩ := mapLast_spec h
  · obtain ⟨before, u, hread, -⟩ := hsingle s y hy
    simp [hempty] at hread
  · -- The role goes to the last tree, which is the only one that is no white space.
    obtain ⟨before, u, hread, hbefore, -⟩ := hsingle s y hy
    obtain ⟨rfl, -⟩ := List.append_inj' (hytrees.symm.trans hread) rfl
    rw [hxtrees]
    exact .one (fun v hv => .trivia (hbefore v hv))
      ((ha s y hy t (by simp [hytrees])).withRole r) (List.forall_mem_nil _)

theorem leads_of_single {a : Fragment} (hsingle : Single a) (ha : Reads ClassLed a) :
    Leads a := by
  intro s x h
  obtain ⟨before, u, hread, hbefore, -⟩ := hsingle s x h
  rw [hread]
  exact .one (fun v hv => .trivia (hbefore v hv)) (ha s x h u (by simp [hread]))
    (List.forall_mem_nil _)

theorem Leads.node {k : Kind} {a : Fragment} (ha : Leads a) : Reads ClassLed (node k a) :=
  reads_node (fun _ h => h.classLed) fun s r h => .wrapper (ha s r h)

theorem Unwrapped.classLed {a : Fragment} (ha : Unwrapped a) : Reads ClassLed a :=
  fun s r h t ht => .plain (ha s r h t ht)

theorem reads_mark_leadsClass {w : String} {a : Fragment} (hw : w ∈ leadingMarks)
    (ha : ∀ s (r : Reading s), a s = some r →
      ∃ gap, r.trees = gap ++ [.token none .mark w.toList] ∧ ∀ t ∈ gap, IsTrivia t) :
    Reads LeadsClass a := by
  intro s r h t ht
  obtain ⟨gap, htrees, hgap⟩ := ha s r h
  rw [htrees, List.mem_append, List.mem_singleton] at ht
  rcases ht with ht | rfl
  · exact .trivia (hgap t ht)
  · exact .mark hw

theorem reads_word_leadsClass {w : String} (hw : w ∈ leadingMarks) : Reads LeadsClass (word w) :=
  reads_mark_leadsClass hw fun _ _ => word_spec

theorem reads_sym_leadsClass {m : String} (hm : m ∈ leadingMarks) : Reads LeadsClass (sym m) :=
  reads_mark_leadsClass hm fun _ _ => sym_spec

end Fragment

theorem classLed_plainDeclaration : Reads ClassLed (plainDeclaration g) := by
  have other : ∀ {k : Kind} {a : Fragment} {as : List Fragment}, k.isWrapper = false →
      Unwrapped (alt as) → Unwrapped (alt (node k a :: as)) :=
    fun hk has => Reads.or (unwrapped_node hk) has
  refine Unwrapped.classLed (other rfl (other rfl (other rfl (other rfl (other rfl ?_)))))
  refine Reads.or (other rfl (other rfl reads_alt_nil)) (other rfl (other rfl (other rfl ?_)))
  exact other rfl (other rfl (other rfl reads_alt_nil))

theorem classLed_declaration (hg : g.Sound) (hplain : g.Plain) :
    Reads ClassLed (declaration g) := by
  have hdeclared : Leads (plainDeclaration g) :=
    leads_of_single (whole_plainDeclaration hg.solid).single classLed_plainDeclaration
  have hglobal : Barren (seq [word "global", block g]) :=
    Reads.seq (barren_token rfl) (Reads.seq (barren_node rfl) reads_seq_nil)
  have hmember : Barren (seq [word "module", sym ".", memberIdentifier, sym ":", g .type,
      semicolon .type]) :=
    Reads.seq (barren_token rfl) (Reads.seq (barren_token rfl) (Reads.seq (barren_token rfl)
      (Reads.seq (barren_token rfl) (hplain.type.seq
        ((barren_semicolon _).seq reads_seq_nil)))))
  have hambient : Reads ClassLed (ambientDeclaration g) := by
    refine Leads.node (Leads.after ?_ (reads_word_leadsClass (by decide)))
    exact hglobal.leads.or (hdeclared.or (hmember.leads.or leads_alt_nil))
  exact hambient.or (classLed_plainDeclaration.or reads_alt_nil)

theorem classLed_exportStatement (hg : g.Sound) (hplain : g.Plain) :
    Reads ClassLed (exportStatement g) := by
  have hends : Barren (seq [semicolon .expression]) := (barren_semicolon _).seq reads_seq_nil
  have hname : Barren moduleExportName :=
    Reads.or (barren_token rfl) (Reads.or (barren_node rfl) reads_alt_nil)
  have horigin : Barren (fromClause g) :=
    Reads.seq (barren_token rfl) (Reads.seq (barren_node rfl)
      (Reads.seq (barren_node rfl).opt reads_seq_nil))
  have hall : Barren (alt [seq [sym "*", fromClause g],
      seq [node .namespaceExport (seq [sym "*", word "as", moduleExportName]),
        fromClause g]]) :=
    (Reads.seq (barren_token rfl) (horigin.seq reads_seq_nil)).or
      (Reads.or (Reads.seq (barren_node rfl) (horigin.seq reads_seq_nil)) reads_alt_nil)
  have hclause : Barren exportClause := barren_node rfl
  have hdeclared : Leads (role .declaration (declaration g)) :=
    leads_role_of_single (whole_declaration hg.solid).single (classLed_declaration hg hplain) _
  have hvalue := leads_role_of_single hg.expression hplain.expression.classLed .value
  have hassigned := leads_of_single hg.expression hplain.expression.classLed
  refine Leads.node (Leads.after (Leads.after ?_ (reads_word_leadsClass (by decide)))
    (Reads.many (reads_node (fun _ h => .trivia h) fun _ _ _ => .decorator rfl)))
  -- With the word for a default behind the first word, as a type, and with neither.
  refine Leads.or (Leads.after ?_ (reads_word_leadsClass (by decide))) (Leads.or ?_ ?_)
  · exact hdeclared.or ((hvalue.first hends).or leads_alt_nil)
  · exact Barren.leads (Reads.seq (barren_token rfl) (Reads.seq
      ((hclause.seq (horigin.opt.seq reads_seq_nil)).or (hall.or reads_alt_nil)) hends))
  refine hdeclared.or (Leads.or (Barren.leads (hall.seq hends)) ?_)
  refine Leads.or (Barren.leads (hclause.seq (horigin.opt.seq hends))) (Leads.or ?_ ?_)
  · exact Leads.after (hassigned.first hends) (reads_sym_leadsClass (by decide))
  · exact (Barren.leads (Reads.seq (barren_token rfl) (Reads.seq (barren_token rfl)
      (Reads.seq (barren_token rfl) hends)))).or leads_alt_nil

theorem classLed_statement (hg : g.Sound) (hplain : g.Plain) :
    Reads ClassLed (statement g) := by
  have other : ∀ {k : Kind} {a : Fragment} {as : List Fragment}, k.isWrapper = false →
      Reads ClassLed (alt as) → Reads ClassLed (alt (node k a :: as)) :=
    fun hk has => (unwrapped_node hk).classLed.or has
  have homitted : Barren (seq [omittedSemicolon .expression]) :=
    (reads_omittedSemicolon (by rintro k text (rfl | rfl) <;> rfl) _).seq reads_seq_nil
  have hlonely : Barren (seq [alt (contextualWords.map (namedWord .identifier)),
      omittedSemicolon .expression]) :=
    Reads.seq (barren_namedWords rfl) homitted
  have hspace : Barren (seq [internalModule g, omittedSemicolon .expression]) :=
    Reads.seq (barren_node rfl) homitted
  have hsequence : Leads (sequence g) :=
    leads_of_single (whole_sequence hg).single
      (Unwrapped.classLed (reads_chainOnce_kinds hplain.expression rfl))
  refine hlonely.leads.node.or ((classLed_exportStatement hg hplain).or ?_)
  refine hspace.leads.node.or ((classLed_declaration hg hplain).or ?_)
  refine other rfl (other rfl (other rfl (Reads.or ?_ (Reads.or ?_ reads_alt_nil))))
  · refine other rfl (other rfl (other rfl (other rfl (other rfl (other rfl ?_)))))
    refine other rfl (other rfl (other rfl (other rfl (other rfl (other rfl ?_)))))
    exact other rfl (other rfl reads_alt_nil)
  · exact Leads.node (hsequence.first ((barren_semicolon _).seq reads_seq_nil))

theorem classLed_grammar (depth : Nat) : Reads ClassLed (grammar depth .statement) := by
  cases depth with
  | zero =>
    intro s r h
    cases h
  | succ depth =>
    exact Reads.spaced (fun _ h => h.classLed)
      (classLed_statement (sound_grammar depth) (plain_grammar depth))

/-- Every tree directly below a whole module leads up to the class in it. -/
theorem classLed_parse (s : List Char) : ∀ t ∈ (parse s).children, ClassLed t := by
  intro t ht
  obtain ⟨x, y, z, faults, hx, hy, hz, hchildren, hfaults⟩ := parse_spec s
  have hfirst : Reads ClassLed (lexeme .hashBangLine Lexeme.hashBang) := by
    intro s r h t ht
    obtain ⟨n, -, htrees, -⟩ := lexeme_spec h
    rw [htrees, List.mem_singleton] at ht
    exact ht ▸ .plain rfl
  rw [hchildren, List.mem_append, List.mem_append, List.mem_append] at ht
  rcases ht with ((ht | ht) | ht) | ht
  · exact hfirst.opt _ x hx t ht
  · exact (classLed_grammar _).many _ y hy t ht
  · exact ((trivia_spec hz).1 t ht).classLed
  · rcases hfaults with rfl | ⟨-, rfl⟩
    · cases ht
    · rw [List.mem_singleton.mp ht]
      exact .plain rfl

end ComponentDecl.Syntax
