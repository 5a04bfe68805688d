import ComponentDecl.Proofs.Syntax.Constructs
import ComponentDecl.Syntax.Program

/-! # The ends of what the grammar reads

    Whatever a rule of the grammar reads ends visibly, and expressions and
    statements are single constructs.  The rules are taken in the order of the
    grammar's own files; each is solid because of its last part, or because of
    the last part that it cannot leave out.

    Key theorem:
    - `sound_grammar`: the rules have these properties, at every depth
-/

namespace ComponentDecl.Syntax

open Lexeme Fragment

/-! ### Names and literals -/

theorem solid_identifier : Solid identifier := solid_token _ shows_name

theorem solid_typeIdentifier : Solid typeIdentifier := solid_token _ shows_name

theorem solid_memberIdentifier : Solid memberIdentifier := solid_token _ shows_word

theorem solid_privateIdentifier : Solid privateIdentifier := solid_token _ shows_privateName

theorem solid_namedWord (k : Kind) {w : String} (hw : lastVisible w.toList = true) :
    Solid (namedWord k w) :=
  solid_token k (shows_exactWord hw)

theorem solid_dottedName : Solid dottedName :=
  solid_identifier.chain (tidySteps_nil.cons (solid_seq_last rfl solid_identifier).tidy)

theorem solid_number : Solid number := solid_token _ shows_number

theorem solid_stringIn {quote : Char} (hquote : lastVisible [quote] = true) :
    Solid (stringIn quote) :=
  solid_seq_last rfl (solid_lexeme _ (shows_exactly hquote))

theorem solid_string : Solid string :=
  ((solid_stringIn (by decide)).or ((solid_stringIn (by decide)).or solid_alt_nil)).node _

variable {g : Grammar}

/-! ### Patterns and parameters -/

theorem solid_block : Solid (block g) :=
  (((solid_sym (by decide)).first
    ((tidy_omittedSemicolon _).opt.seq tidy_seq_nil)).after).after.node _

theorem solid_typeClause (hg : ∀ r, Solid (g r)) : Solid (typeClause g) :=
  (solid_seq_last rfl (hg .type)).node _

theorem tidy_annotated (hg : ∀ r, Solid (g r)) : Tidy (annotated g) :=
  ((solid_typeClause hg).role _).tidy.opt

theorem tidy_initialValue (hg : ∀ r, Solid (g r)) : Tidy (initialValue g) :=
  (solid_seq_last rfl ((hg .expression).role .value)).tidy.opt

theorem solid_pattern : Solid (pattern g) :=
  solid_identifier.or (((solid_seq_last rfl (solid_sym (by decide))).node _).or
    (((solid_seq_last rfl (solid_sym (by decide))).node _).or solid_alt_nil))

theorem solid_typeArguments : Solid (typeArguments g) :=
  (solid_seq_last rfl (solid_sym (by decide))).node _

theorem solid_formalParameters : Solid (formalParameters g) :=
  (solid_seq_last rfl (solid_sym (by decide))).node _

theorem solid_typePredicate (hg : ∀ r, Solid (g r)) : Solid (typePredicate g) :=
  (solid_seq_last rfl (hg .type)).node _

theorem solid_asserts (hg : ∀ r, Solid (g r)) : Solid (asserts g) :=
  (solid_seq_last rfl ((solid_typePredicate hg).or ((solid_token _ (shows_exactWord (by decide))).or
    (solid_identifier.or solid_alt_nil)))).node _

theorem solid_returnClause (hg : ∀ r, Solid (g r)) : Solid (returnClause g) :=
  ((solid_seq_last rfl (solid_asserts hg)).node _).or
    (((solid_seq_last rfl (solid_typePredicate hg)).node _).or
      ((solid_typeClause hg).or solid_alt_nil))

theorem solid_callSignature (hg : ∀ r, Solid (g r)) : Solid (callSignature g) :=
  (solid_formalParameters.first ((solid_returnClause hg).tidy.opt.seq tidy_seq_nil)).after

/-! ### Types -/

theorem solid_typeReference : Solid (typeReference g) :=
  solid_dottedName.mapLast.chainOnce (tidySteps_nil.cons (solid_typeArguments.role _).tidy)

theorem solid_members : Solid (members g) :=
  solid_seq_last rfl (solid_sym (by decide))

theorem solid_predefinedType : Solid predefinedType := by
  refine ((solid_seq_last rfl (solid_word (by decide))).node _).or (Solid.or ?_ solid_alt_nil)
  refine solid_alt fun a ha => ?_
  obtain ⟨w, hw, rfl⟩ := List.mem_map.mp ha
  have hvisible : ∀ w ∈ ["any", "number", "boolean", "string", "symbol", "void", "unknown",
      "never", "object"], lastVisible w.toList = true := by decide
  exact solid_namedWord _ (hvisible w hw)

theorem solid_literalType : Solid literalType :=
  (solid_string.or (solid_number.or (((solid_seq_last rfl solid_number).node _).or
    ((solid_namedWord _ (by decide)).or ((solid_namedWord _ (by decide)).or
      ((solid_namedWord _ (by decide)).or ((solid_namedWord _ (by decide)).or
        solid_alt_nil))))))).node _

theorem solid_typeLevelArguments : Solid (typeLevelArguments g) :=
  (solid_seq_last rfl (solid_sym (by decide))).node _

theorem solid_importedModule : Solid (importedModule g) :=
  (solid_seq_last rfl solid_typeLevelArguments).node _

theorem solid_memberName :
    Solid (alt [privateIdentifier, memberIdentifier]) :=
  solid_privateIdentifier.or (solid_memberIdentifier.or solid_alt_nil)

theorem solid_typeQuery : Solid (typeQuery g) := by
  refine (solid_seq_last rfl (Solid.chain (solid_importedModule.or
    ((solid_namedWord _ (by decide)).or (solid_identifier.or solid_alt_nil))) ?_)).node _
  refine TidySteps.cons (solid_seq_last rfl solid_memberName).tidy ?_
  refine TidySteps.cons (solid_seq_last rfl (solid_sym (by decide))).tidy ?_
  refine TidySteps.cons (solid_seq_last rfl solid_typeLevelArguments).tidy ?_
  exact tidySteps_nil.cons (solid_typeArguments.role _).tidy

theorem solid_primaryType : Solid (primaryType g) := by
  refine ((solid_seq_last rfl (solid_sym (by decide))).node _).or ?_
  refine (solid_members.node _).or ?_
  refine ((solid_seq_last rfl (solid_sym (by decide))).node _).or ?_
  refine ((solid_seq_last rfl (solid_lexeme _ (shows_exactly (by decide)))).node _).or ?_
  refine solid_predefinedType.or (solid_literalType.or ?_)
  refine (solid_namedWord _ (by decide)).or (solid_typeQuery.or ?_)
  refine (solid_importedModule.chain (tidySteps_nil.cons
    (solid_seq_last rfl solid_memberIdentifier).tidy)).or ?_
  refine (solid_namedWord _ (by decide)).or ?_
  exact (solid_token _ (shows_exactly (by decide))).or (solid_typeReference.or solid_alt_nil)

theorem solid_indexedType : Solid (indexedType g) := by
  refine solid_primaryType.chain ?_
  refine TidySteps.cons (solid_seq_last rfl (solid_sym (by decide))).tidy ?_
  exact tidySteps_nil.cons (solid_seq_last rfl (solid_sym (by decide))).tidy

theorem solid_keysType (hg : ∀ r, Solid (g r)) : Solid (keysType g) :=
  ((solid_seq_last rfl (hg .keysType)).node _).or (solid_indexedType.or solid_alt_nil)

theorem solid_typeOperand (hg : ∀ r, Solid (g r)) : Solid (typeOperand g) := by
  have hfunction : Solid (functionType g) :=
    (solid_seq_last rfl ((solid_asserts hg).or ((solid_typePredicate hg).or
      ((hg .type).or solid_alt_nil)))).node _
  have hconstructor : Solid (constructorType g) := (solid_seq_last rfl (hg .type)).node _
  have hinferred : Solid (inferredType g) :=
    (solid_typeIdentifier.first
      ((solid_seq_last rfl (hg .type)).tidy.opt.seq tidy_seq_nil)).after.node _
  refine hfunction.or (hconstructor.or (hinferred.or ?_))
  exact ((solid_seq_last rfl (hg .type)).node _).or ((hg .keysType).or solid_alt_nil)

theorem solid_joinedTypes (k : Kind) (mark : String) {operand : Fragment} (h : Solid operand) :
    Solid (joinedTypes k mark operand) :=
  (((solid_seq_last rfl h).node _).or (h.or solid_alt_nil)).chain
    (tidySteps_nil.cons (solid_seq_last rfl h).tidy)

theorem solid_type (hg : ∀ r, Solid (g r)) : Solid (type g) :=
  (solid_joinedTypes _ _ (solid_joinedTypes _ _ (solid_typeOperand hg))).chainOnce
    (tidySteps_nil.cons (solid_seq_last rfl (hg .type)).tidy)

/-! ### Expressions -/

/-- All rules are solid, and those for values are single. -/
structure Grammar.Sound (g : Grammar) : Prop where
  solid : ∀ r, Solid (g r)
  expression : Single (g .expression)
  operand : Single (g .operand)
  constructed : Single (g .constructed)
  statement : Single (g .statement)

theorem solid_classBody : Solid (classBody g) :=
  (solid_seq_last rfl (solid_sym (by decide))).node _

theorem whole_templateString : Whole (templateString g) :=
  (solid_seq_last rfl (solid_lexeme _ (shows_exactly (by decide)))).whole (by decide)

theorem whole_regex : Whole regex :=
  (((solid_lexeme _ (shows_exactly (by decide))).first
    ((solid_lexeme _ shows_regexFlags).tidy.opt.seq tidy_seq_nil)).after).after.whole (by decide)

theorem solid_arguments : Solid (arguments g) :=
  (solid_seq_last rfl (solid_sym (by decide))).node _

theorem whole_sequence (hg : g.Sound) : Whole (sequence g) :=
  Whole.chainOnce ⟨hg.solid _, hg.expression⟩ (tidySteps_nil.cons
    (solid_seq_last rfl (hg.solid .expression).sepBy).tidy) rfl

theorem whole_parenthesized : Whole (parenthesized g) :=
  (solid_seq_last rfl (solid_sym (by decide))).whole (by decide)

theorem whole_functionExpression : Whole (functionExpression g) :=
  ((solid_seq_last rfl (solid_block.role _)).whole (by decide)).or
    (((solid_seq_last rfl (solid_block.role _)).whole (by decide)).or whole_alt_nil)

theorem whole_namedWord {k : Kind} {w : String} (hw : lastVisible w.toList = true)
    (hk : k ≠ .blank ∧ k ≠ .comment) : Whole (namedWord k w) :=
  whole_token (shows_exactWord hw) hk

theorem whole_primary (hg : g.Sound) : Whole (primary g) := by
  have hname : Whole valueName :=
    (whole_namedWord (by decide) (by decide)).or
      ((whole_token shows_name (by decide)).or whole_alt_nil)
  have hstring : Whole string :=
    ((solid_stringIn (by decide)).or ((solid_stringIn (by decide)).or solid_alt_nil)).whole
      (by decide)
  have hbrackets : ∀ {k : Kind} {as : List Fragment} {m : String}, as.getLast? = some (sym m) →
      lastVisible m.toList = true → k ≠ .blank ∧ k ≠ .comment → Whole (node k (seq as)) :=
    fun hlast hm hk => (solid_seq_last hlast (solid_sym hm)).whole hk
  refine whole_parenthesized.or ?_
  refine (whole_namedWord (by decide) (by decide)).or ?_
  refine (whole_namedWord (by decide) (by decide)).or ?_
  refine (whole_token shows_number (by decide)).or (hstring.or ?_)
  refine whole_templateString.or (whole_regex.or ?_)
  refine (whole_namedWord (by decide) (by decide)).or ?_
  refine (whole_namedWord (by decide) (by decide)).or ?_
  refine (whole_namedWord (by decide) (by decide)).or ?_
  refine (hbrackets rfl (by decide) (by decide)).or ?_
  refine (hbrackets rfl (by decide) (by decide)).or (whole_functionExpression.or ?_)
  refine ((solid_seq_last rfl (hg.solid .classRest)).whole (by decide)).or ?_
  refine (((solid_seq_last rfl (solid_word (by decide))).or
    ((solid_seq_last rfl (solid_word (by decide))).or solid_alt_nil)).whole (by decide)).or ?_
  refine (whole_namedWord (by decide) (by decide)).or ?_
  exact (whole_token shows_privateName (by decide)).or (hname.or whole_alt_nil)

theorem tidySteps_suffixes : TidySteps (suffixes g) := by
  refine TidySteps.cons (solid_seq_last rfl solid_memberName).tidy ?_
  refine TidySteps.cons (solid_seq_last rfl (solid_sym (by decide))).tidy ?_
  refine TidySteps.cons (solid_seq_last rfl
    (solid_arguments.or (whole_templateString.solid.spaced.or solid_alt_nil))).tidy ?_
  exact tidySteps_nil.cons (solid_seq_last rfl (solid_symUnless _ (by decide))).tidy

theorem tidySteps_instantiated (followers : List Char) :
    TidySteps [instantiated g followers] :=
  tidySteps_nil.cons ((solid_typeArguments.role _).first
    ((tidy_ahead _).seq tidy_seq_nil)).tidy

theorem solid_classRest : Solid (classRest g) :=
  solid_seq_last rfl (solid_classBody.role _)

theorem whole_constructed (hg : g.Sound) : Whole (constructed g) := by
  have hbase : Solid (chain (g .constructed)
      ((suffixes g).filter fun step => step.kind != .callExpression)) :=
    (hg.solid _).chain (tidySteps_suffixes.filter _)
  have htypes : Tidy (opt (role .typeArguments (typeArguments g))) :=
    (solid_typeArguments.role _).tidy.opt
  have harguments : Tidy (opt (arguments g)) := solid_arguments.tidy.opt
  exact ((hbase.first (htypes.seq (harguments.seq tidy_seq_nil))).after.whole (by decide)).or
    ((whole_primary hg).or whole_alt_nil)

theorem whole_postfixed (hg : g.Sound) : Whole (postfixed g) :=
  Whole.chain ⟨hg.solid _, hg.constructed⟩
    (tidySteps_suffixes.append (tidySteps_instantiated _)) rfl

theorem whole_operand (hg : g.Sound) : Whole (operand g) := by
  have hmark : Solid (alt [sym "++", sym "--"]) :=
    (solid_sym (by decide)).or ((solid_sym (by decide)).or solid_alt_nil)
  refine ((solid_seq_last rfl (hg.solid .operand)).whole (by decide)).or ?_
  refine ((solid_seq_last rfl (hg.solid .operand)).whole (by decide)).or ?_
  refine ((solid_seq_last rfl (hg.solid .operand)).whole (by decide)).or ?_
  refine ((solid_seq_last rfl (hg.solid .operand)).whole (by decide)).or ?_
  refine Whole.or ((whole_postfixed hg).chainOnce ?_ rfl) whole_alt_nil
  exact tidySteps_nil.cons (solid_seq_last rfl hmark).tidy

theorem whole_joined {operand : Fragment} (operator : Fragment) (h : Whole operand)
    {others : List Step} (hothers : TidySteps others) (hkinds : ConstructSteps others) :
    Whole (joined operand operator others) :=
  h.chain (hothers.cons (solid_seq_last rfl h.solid).tidy) hkinds

theorem whole_levels {operand : Fragment} (h : Whole operand) (levels : List Fragment) :
    Whole (levels.foldl (joined · · []) operand) := by
  induction levels generalizing operand with
  | nil => exact h
  | cons level levels ih => exact ih (whole_joined level h tidySteps_nil rfl)

theorem whole_binary (hg : g.Sound) : Whole (binary g) := by
  have harithmetic := whole_levels ⟨hg.solid .operand, hg.operand⟩ arithmeticLevels
  refine whole_levels (whole_joined _ harithmetic ?_ (by rfl)) _
  refine TidySteps.cons (solid_seq_last rfl
    ((solid_namedWord _ (by decide)).or ((hg.solid .type).or solid_alt_nil))).tidy ?_
  exact tidySteps_nil.cons (solid_seq_last rfl (hg.solid .type)).tidy

theorem whole_expression (hg : g.Sound) : Whole (expression g) := by
  have hvalue := hg.solid .expression
  have harrow : Whole (arrowFunction g) :=
    (solid_seq_last rfl ((solid_block.or (hvalue.or solid_alt_nil)).role _)).whole (by decide)
  have hyield : Tidy (opt (seq [ahead sameLine, opt (sym "*"), g .expression])) :=
    (solid_seq_last rfl hvalue).tidy.opt
  refine harrow.or ((((solid_word (by decide)).first (hyield.seq tidy_seq_nil)).whole
    (by decide)).or (Whole.or ?_ whole_alt_nil))
  refine (whole_binary hg).chainOnce ?_ rfl
  refine TidySteps.cons (solid_seq_last rfl ((solid_seq_last rfl hvalue).or
    ((solid_seq_last rfl hvalue).or solid_alt_nil))).tidy ?_
  refine TidySteps.cons (solid_seq_last rfl hvalue).tidy ?_
  exact tidySteps_nil.cons (solid_seq_last rfl hvalue).tidy

/-! ### Declarations -/

theorem solid_declaredClassRest (hg : ∀ r, Solid (g r)) : Solid (declaredClassRest g) :=
  (solid_seq_last rfl (solid_classBody.role _)).or ((hg .classRest).or solid_alt_nil)

theorem whole_classDeclaration (hg : ∀ r, Solid (g r)) : Whole (classDeclaration g) :=
  ((solid_declaredClassRest hg).first
    ((tidy_omittedSemicolon _).opt.seq tidy_seq_nil)).after.after.after.after.whole (by decide)

theorem whole_abstractClassDeclaration (hg : ∀ r, Solid (g r)) :
    Whole (abstractClassDeclaration g) :=
  (solid_seq_last rfl (solid_declaredClassRest hg)).whole (by decide)

theorem whole_interfaceDeclaration : Whole (interfaceDeclaration g) :=
  (solid_seq_last rfl ((solid_members.node _).role _)).whole (by decide)

theorem whole_typeAliasDeclaration (hg : ∀ r, Solid (g r)) : Whole (typeAliasDeclaration g) :=
  (((hg .type).role .value).first
    ((tidy_semicolon _).seq tidy_seq_nil)).after.after.after.after.whole (by decide)

theorem whole_enumDeclaration : Whole (enumDeclaration g) :=
  (solid_seq_last rfl (((solid_seq_last rfl (solid_sym (by decide))).node _).role _)).whole
    (by decide)

theorem whole_functionDeclaration : Whole (functionDeclaration g) := by
  have hbody : Solid (seq [role .body (block g), opt (omittedSemicolon .type)]) :=
    (solid_block.role _).first ((tidy_omittedSemicolon _).opt.seq tidy_seq_nil)
  exact (hbody.after.after.after.after.whole (by decide)).or
    ((hbody.after.after.after.after.after.whole (by decide)).or whole_alt_nil)

theorem whole_functionSignature (hg : ∀ r, Solid (g r)) : Whole (functionSignature g) :=
  ((solid_callSignature hg).first
    ((tidy_semicolon _).seq tidy_seq_nil)).after.after.after.whole (by decide)

theorem solid_variableDeclarator (hg : ∀ r, Solid (g r)) : Solid (variableDeclarator g) := by
  have hpattern : Solid (seq [role .name (g .pattern), annotated g, initialValue g]) :=
    ((hg .pattern).role _).first
      ((tidy_annotated hg).seq ((tidy_initialValue hg).seq tidy_seq_nil))
  exact ((solid_seq_last rfl ((solid_typeClause hg).role _)).or
    (hpattern.or solid_alt_nil)).node _

theorem tidy_variableListEnd : Tidy variableListEnd :=
  (tidy_semicolon _).or ((tidy_semicolon _).or tidy_alt_nil)

theorem whole_lexicalDeclaration (hg : ∀ r, Solid (g r)) : Whole (lexicalDeclaration g) :=
  ((solid_variableDeclarator hg).sepBy.first
    (tidy_variableListEnd.seq tidy_seq_nil)).after.whole (by decide)

theorem whole_variableDeclaration (hg : ∀ r, Solid (g r)) : Whole (variableDeclaration g) :=
  ((solid_variableDeclarator hg).sepBy.first
    (tidy_variableListEnd.seq tidy_seq_nil)).after.whole (by decide)

theorem solid_moduleRest : Solid (moduleRest g) :=
  Solid.first ((solid_string.or (solid_dottedName.or solid_alt_nil)).role _)
    ((solid_block.role _).tidy.opt.seq tidy_seq_nil)

theorem whole_internalModule : Whole (internalModule g) :=
  (solid_seq_last rfl solid_moduleRest).whole (by decide)

theorem whole_importAlias : Whole importAlias :=
  (solid_dottedName.first ((tidy_semicolon _).seq tidy_seq_nil)).after.after.after.whole
    (by decide)

theorem whole_plainDeclaration (hg : ∀ r, Solid (g r)) : Whole (plainDeclaration g) := by
  refine (whole_classDeclaration hg).or ((whole_abstractClassDeclaration hg).or ?_)
  refine whole_interfaceDeclaration.or ((whole_typeAliasDeclaration hg).or ?_)
  refine whole_enumDeclaration.or (whole_functionDeclaration.or ?_)
  refine (whole_functionSignature hg).or ((whole_lexicalDeclaration hg).or ?_)
  refine (whole_variableDeclaration hg).or (whole_internalModule.or ?_)
  exact ((solid_seq_last rfl solid_moduleRest).whole (by decide)).or
    (whole_importAlias.or whole_alt_nil)

theorem whole_ambientDeclaration (hg : ∀ r, Solid (g r)) : Whole (ambientDeclaration g) := by
  have hmember : Solid (seq [word "module", sym ".", memberIdentifier, sym ":", g .type,
      semicolon .type]) :=
    ((hg .type).first ((tidy_semicolon _).seq tidy_seq_nil)).after.after.after.after
  exact (solid_seq_last rfl ((solid_seq_last rfl solid_block).or
    ((whole_plainDeclaration hg).solid.or (hmember.or solid_alt_nil)))).whole (by decide)

theorem whole_declaration (hg : ∀ r, Solid (g r)) : Whole (declaration g) :=
  (whole_ambientDeclaration hg).or ((whole_plainDeclaration hg).or whole_alt_nil)

/-! ### Statements -/

theorem solid_fromClause : Solid (fromClause g) := by
  have hattribute : Solid (node .importAttribute (seq [anyWord ["with", "assert"],
      node .objectLiteral (seq [sym "\x7b", opt (commaList (objectMember g)), sym "\x7d"])])) :=
    (solid_seq_last rfl ((solid_seq_last rfl (solid_sym (by decide))).node _)).node _
  exact (solid_string.first (hattribute.tidy.opt.seq tidy_seq_nil)).after

theorem whole_importStatement : Whole (importStatement g) := by
  have htarget : Solid (alt [seq [importClause, fromClause g],
      node .importRequireClause
        (seq [identifier, sym "=", word "require", sym "(", string, sym ")"])]) :=
    (solid_seq_last rfl solid_fromClause).or
      (((solid_seq_last rfl (solid_sym (by decide))).node _).or solid_alt_nil)
  exact (Solid.first ((solid_seq_last rfl htarget).or (htarget.or (solid_string.or solid_alt_nil)))
    ((tidy_semicolon _).seq tidy_seq_nil)).after.whole (by decide)

theorem whole_exportStatement (hg : ∀ r, Solid (g r)) : Whole (exportStatement g) := by
  have hends : Tidy (seq [semicolon .expression]) := (tidy_semicolon _).seq tidy_seq_nil
  have hall : Solid (alt [seq [sym "*", fromClause g],
      seq [node .namespaceExport (seq [sym "*", word "as", moduleExportName]),
        fromClause g]]) :=
    (solid_seq_last rfl solid_fromClause).or
      ((solid_seq_last rfl solid_fromClause).or solid_alt_nil)
  have hclause : Solid exportClause := (solid_seq_last rfl (solid_sym (by decide))).node _
  have horigin : Tidy (opt (fromClause g)) := solid_fromClause.tidy.opt
  have hdeclared := (whole_declaration hg).solid.role .declaration
  refine (solid_seq_last rfl ?_).whole (by decide)
  refine Solid.or (solid_seq_last rfl (hdeclared.or
    ((((hg .expression).role _).first hends).or solid_alt_nil))) ?_
  refine Solid.or (Solid.first ((hclause.first (horigin.seq tidy_seq_nil)).or
    (hall.or solid_alt_nil)) hends).after ?_
  refine hdeclared.or ((hall.first hends).or ?_)
  refine (hclause.first (horigin.seq hends)).or ?_
  refine ((hg .expression).first hends).after.or ?_
  exact (solid_identifier.first hends).after.after.or solid_alt_nil

theorem whole_controlStatement (hg : g.Sound) : Whole (controlStatement g) := by
  have hends : Tidy (seq [semicolon .expression]) := (tidy_semicolon _).seq tidy_seq_nil
  have hstatement := hg.solid .statement
  have hbody : Solid (role .body (g .statement)) := hstatement.role _
  have hsequence : Solid (sequence g) := (whole_sequence hg).solid
  have hlabel : Solid (token .statementIdentifier Lexeme.name) := solid_token _ shows_name
  have hjump : ∀ w : String, lastVisible w.toList = true →
      Solid (seq [word w, opt (seq [ahead sameLine, token .statementIdentifier Lexeme.name]),
        semicolon .expression]) := fun w hw =>
    (solid_word hw).first ((solid_seq_last rfl hlabel).tidy.opt.seq hends)
  have helse : Solid (node .elseClause (seq [word "else", g .statement])) :=
    (solid_seq_last rfl hstatement).node _
  have hcatch : Solid (node .catchClause (seq [word "catch",
      opt (seq [sym "(", g .pattern, annotated g, sym ")"]), role .body (block g)])) :=
    (solid_seq_last rfl (solid_block.role _)).node _
  have hfinally : Solid (node .finallyClause (seq [word "finally", role .body (block g)])) :=
    (solid_seq_last rfl (solid_block.role _)).node _
  refine ((hstatement.first (helse.tidy.opt.seq tidy_seq_nil)).after.after.whole (by decide)).or ?_
  refine ((solid_seq_last rfl hbody).whole (by decide)).or ?_
  refine ((solid_seq_last rfl hbody).whole (by decide)).or ?_
  refine ((solid_seq_last rfl hbody).whole (by decide)).or ?_
  refine ((whole_parenthesized.solid.first
    ((tidy_semicolon _).opt.seq tidy_seq_nil)).after.after.after.whole (by decide)).or ?_
  refine ((solid_seq_last rfl (((solid_seq_last rfl (solid_sym (by decide))).node _).role
    _)).whole (by decide)).or ?_
  refine (((solid_block.role _).first (hcatch.tidy.opt.seq
    (hfinally.tidy.opt.seq tidy_seq_nil))).after.whole (by decide)).or ?_
  refine ((solid_seq_last rfl hbody).whole (by decide)).or ?_
  refine ((hjump _ (by decide)).whole (by decide)).or ?_
  refine ((hjump _ (by decide)).whole (by decide)).or ?_
  refine (((solid_word (by decide)).first
    ((solid_seq_last rfl hsequence).tidy.opt.seq hends)).whole (by decide)).or ?_
  refine ((hsequence.first hends).after.whole (by decide)).or ?_
  refine (((solid_word (by decide)).first hends).whole (by decide)).or ?_
  exact ((solid_seq_last rfl hbody).whole (by decide)).or whole_alt_nil

theorem whole_lonelyWord : Whole lonelyWord := by
  refine (Solid.first (solid_alt fun a ha => ?_)
    ((tidy_omittedSemicolon _).seq tidy_seq_nil)).whole (by decide)
  obtain ⟨w, hw, rfl⟩ := List.mem_map.mp ha
  have hvisible : ∀ w ∈ contextualWords, lastVisible w.toList = true := by decide
  exact solid_namedWord _ (hvisible w hw)

theorem whole_statement (hg : g.Sound) : Whole (statement g) := by
  have hends : Tidy (seq [omittedSemicolon .expression]) :=
    (tidy_omittedSemicolon _).seq tidy_seq_nil
  have hblock : Solid (seq [sym "\x7b", many (g .statement), sym "\x7d",
      opt (omittedSemicolon .expression)]) :=
    ((solid_sym (by decide)).first ((tidy_omittedSemicolon _).opt.seq tidy_seq_nil)).after.after
  refine whole_lonelyWord.or ((whole_exportStatement hg.solid).or ?_)
  refine ((whole_internalModule.solid.first hends).whole (by decide)).or ?_
  refine (whole_declaration hg.solid).or (whole_importStatement.or ?_)
  refine (hblock.whole (by decide)).or (((solid_sym (by decide)).whole (by decide)).or ?_)
  refine (whole_controlStatement hg).or (Whole.or ?_ whole_alt_nil)
  exact ((whole_sequence hg).solid.first ((tidy_semicolon _).seq tidy_seq_nil)).whole (by decide)

/-! ### The whole grammar -/

theorem solid_fragment (hg : g.Sound) (r : Rule) : Solid (r.fragment g) := by
  cases r with
  | type => exact solid_type hg.solid
  | keysType => exact solid_keysType hg.solid
  | expression => exact (whole_expression hg).solid
  | operand => exact (whole_operand hg).solid
  | constructed => exact (whole_constructed hg).solid
  | classRest => exact solid_classRest
  | pattern => exact solid_pattern
  | statement => exact (whole_statement hg).solid

/-- The grammar has these properties however deep its constructs are nested. -/
theorem sound_grammar (depth : Nat) : Grammar.Sound (grammar depth) := by
  induction depth with
  | zero =>
    have hnone : ∀ r, Whole (grammar 0 r) := by
      intro r
      constructor <;>
      · intro s x h
        cases h
    exact ⟨fun r => (hnone r).solid, (hnone _).single, (hnone _).single, (hnone _).single,
      (hnone _).single⟩
  | succ depth ih =>
    exact ⟨fun r => (solid_fragment ih r).spaced, (whole_expression ih).single.spaced,
      (whole_operand ih).single.spaced, (whole_constructed ih).single.spaced,
      (whole_statement ih).single.spaced⟩

end ComponentDecl.Syntax
