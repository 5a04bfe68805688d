import ComponentDecl.Proofs.Syntax.FilledFragments

/-! # Nothing is missing

    Every tree that the grammar reads has some text, and so has every tree below
    it.  Two neighbours therefore never start at the same place, and a place
    determines at most one of them.  What it reads as white space, as a comment or
    as a declaration of variables has the form of one, at every depth.

    Key theorem:
    - `filled_grammar`: what the rules read is full, at every depth
-/

namespace ComponentDecl.Syntax

open Lexeme Fragment

/-! ### Names and literals -/

theorem filled_identifier : Filled identifier := filled_token shows_name rfl

theorem filled_typeIdentifier : Filled typeIdentifier := filled_token shows_name rfl

theorem filled_memberIdentifier : Filled memberIdentifier := filled_token shows_word rfl

theorem filled_privateIdentifier : Filled privateIdentifier := filled_token shows_privateName rfl

theorem filled_number : Filled number := filled_token shows_number rfl

theorem filled_namedWord {k : Kind} {w : String} (hw : lastVisible w.toList = true)
    (hk : k.isOrdinary = true) : Filled (namedWord k w) :=
  filled_token (shows_exactWord hw) hk

theorem filled_namedWords {k : Kind} {ws : List String}
    (hws : ∀ w ∈ ws, lastVisible w.toList = true) (hk : k.isOrdinary = true) :
    Filled (alt (ws.map (namedWord k))) := by
  refine filled_alt (List.forall_iff_forall_mem.mpr fun a ha => ?_)
  obtain ⟨w, hw, rfl⟩ := List.mem_map.mp ha
  exact filled_namedWord (hws w hw) hk

theorem filled_dottedName : Filled dottedName :=
  filled_identifier.chain (filled_seq ⟨filled_sym (by decide), filled_identifier⟩) rfl

theorem filled_mark {m : List Char} (hm : lastVisible m = true) :
    Filled (lexeme .mark (exactly m)) :=
  filled_lexeme (shows_exactly hm).takes rfl

theorem filled_string : Filled string := by
  have hquoted : ∀ quote, lastVisible [quote] = true → Filled (stringIn quote) := fun quote h =>
    filled_seq ⟨filled_mark h, Reads.many (filled_alt ⟨filled_lexeme (takes_stringChars quote) rfl,
      filled_lexeme takes_escape rfl⟩), filled_mark h⟩
  exact Filled.node (filled_alt ⟨hquoted _ (by decide), hquoted _ (by decide)⟩)
    (fills_alt ⟨fills_at 0 rfl fills_lexeme, fills_at 0 rfl fills_lexeme⟩) rfl

theorem filled_modifier {w : String} (hw : lastVisible w.toList = true) :
    Filled (modifier w) :=
  filled_seq ⟨filled_word hw, filled_ahead _⟩

theorem fills_modifier {w : String} : Fills (modifier w) := fills_at 0 rfl fills_token

theorem filled_accessibility : Filled accessibility :=
  Filled.node (filled_alt ⟨filled_modifier (by decide), filled_modifier (by decide),
    filled_modifier (by decide)⟩)
    (fills_alt ⟨fills_modifier, fills_modifier, fills_modifier⟩) rfl

theorem filled_overriding : Filled overriding := Filled.node (filled_modifier
  (by decide)) fills_modifier rfl

variable {g : Grammar}

theorem filled_propertyName (hg : ∀ r, Filled (g r)) : Filled (propertyName g) :=
  filled_alt ⟨filled_memberIdentifier, filled_privateIdentifier, filled_string, filled_number,
    Filled.node (filled_seq ⟨filled_sym (by decide), hg _, filled_sym (by decide)⟩)
      (fills_at 0 rfl fills_token) rfl⟩

theorem filled_block (hg : ∀ r, Filled (g r)) : Filled (block g) :=
  Filled.node (filled_seq ⟨filled_sym (by decide), (hg _).many, filled_sym (by decide),
    (filled_omittedSemicolon _).opt⟩)
    (fills_at 0 rfl fills_token) rfl

/-! ### Patterns and parameters -/

theorem filled_typeClause (hg : ∀ r, Filled (g r)) : Filled (typeClause g) :=
  Filled.node (filled_seq ⟨filled_sym (by decide), hg _⟩) (fills_at 0 rfl fills_token) rfl

theorem filled_annotated (hg : ∀ r, Filled (g r)) : Filled (annotated g) :=
  (filled_typeClause hg).role.opt

theorem filled_initialValue (hg : ∀ r, Filled (g r)) : Filled (initialValue g) :=
  (Reads.opt (filled_seq ⟨filled_symUnless (by decide), (hg _).role⟩))

theorem filled_restPattern (hg : ∀ r, Filled (g r)) : Filled (restPattern g) :=
  Filled.node (filled_seq ⟨filled_sym (by decide), hg _⟩) (fills_at 0 rfl fills_token) rfl

theorem filled_patternWithDefault (hg : ∀ r, Filled (g r)) : Filled (patternWithDefault g) :=
  (hg .pattern).chainOnce (filled_seq ⟨filled_symUnless (by decide), hg _⟩) rfl

theorem filled_memberPattern (hg : ∀ r, Filled (g r)) : Filled (memberPattern g) :=
  filled_alt ⟨filled_restPattern hg,
    Filled.node (filled_seq ⟨filled_propertyName hg, filled_sym (by decide),
      filled_patternWithDefault hg⟩)
      (fills_at 1 rfl fills_token) rfl,
    (filled_token shows_name rfl).chainOnce (filled_seq ⟨filled_symUnless (by decide), hg _⟩) rfl⟩

theorem filled_pattern (hg : ∀ r, Filled (g r)) : Filled (pattern g) :=
  filled_alt ⟨filled_identifier,
    Filled.node (filled_seq ⟨filled_sym (by decide), (filled_memberPattern hg).commaList.opt,
      filled_sym (by decide)⟩)
      (fills_at 0 rfl fills_token) rfl,
    Filled.node (filled_seq ⟨filled_sym (by decide), Reads.many (filled_alt ⟨filled_sym (by decide),
      filled_restPattern hg, filled_patternWithDefault hg⟩), filled_sym (by decide)⟩)
      (fills_at 0 rfl fills_token) rfl⟩

theorem filled_decorator (hg : ∀ r, Filled (g r)) : Filled (decorator g) :=
  Filled.node (filled_seq ⟨filled_sym (by decide), Filled.chain (filled_alt ⟨filled_identifier,
      Filled.node (filled_seq ⟨filled_sym (by decide), hg _, filled_sym (by decide)⟩)
        (fills_at 0 rfl fills_token) rfl⟩)
    ⟨filled_seq ⟨filled_sym (by decide), filled_memberIdentifier⟩,
      Filled.node (filled_seq ⟨filled_sym (by decide), (hg _).commaList.opt, filled_sym
        (by decide)⟩)
        (fills_at 0 rfl fills_token) rfl⟩ rfl⟩) (fills_at 0 rfl fills_token) rfl

theorem filled_parameterTarget (hg : ∀ r, Filled (g r)) : Filled (parameterTarget g) :=
  filled_seq ⟨(filled_decorator hg).many, filled_accessibility.opt, filled_overriding.opt,
    Reads.opt (filled_modifier (by decide)),
    filled_alt ⟨filled_token (shows_exactWord (by decide)) rfl, filled_restPattern hg, hg _⟩⟩

theorem fills_parameterTarget (hpattern : Fills (g .pattern)) : Fills (parameterTarget g) :=
  fills_at 4 rfl (fills_alt ⟨fills_token, fills_node, hpattern⟩)

theorem filled_parameter (hg : ∀ r, Filled (g r)) (hpattern : Fills (g .pattern)) :
    Filled (parameter g) :=
  filled_alt ⟨
    Filled.node (filled_seq ⟨filled_parameterTarget hg, filled_sym (by decide), filled_annotated hg,
      filled_initialValue hg⟩) (fills_at 1 rfl fills_token) rfl,
    Filled.node (filled_seq ⟨filled_parameterTarget hg, filled_annotated hg,
      filled_initialValue hg⟩) (fills_at 0 rfl (fills_parameterTarget hpattern)) rfl⟩

theorem filled_formalParameters (hg : ∀ r, Filled (g r)) (hpattern : Fills (g .pattern)) :
    Filled (formalParameters g) :=
  Filled.node (filled_seq ⟨filled_sym (by decide), (filled_parameter hg hpattern).commaList.opt,
    filled_sym (by decide)⟩)
    (fills_at 0 rfl fills_token) rfl

theorem filled_typeParameters (hg : ∀ r, Filled (g r)) : Filled (typeParameters g) := by
  have hbound : Filled (node .constraint (seq [alt [word "extends", sym ":"], g .type])) :=
    Filled.node (filled_seq ⟨filled_alt ⟨filled_word (by decide), filled_sym (by decide)⟩, hg _⟩)
      (fills_at 0 rfl (fills_alt ⟨fills_token, fills_token⟩)) rfl
  have hdefault : Filled (node .defaultType (seq [sym "=", g .type])) :=
    Filled.node (filled_seq ⟨filled_sym (by decide), hg _⟩) (fills_at 0 rfl fills_token) rfl
  have hparameter : Filled (typeParameter g) :=
    Filled.node (filled_seq ⟨Reads.opt (filled_modifier (by decide)), Reads.opt (filled_modifier
      (by decide)), Reads.opt (filled_modifier (by decide)),
      filled_typeIdentifier.role, hbound.opt, hdefault.role.opt⟩)
      (fills_at 3 rfl fills_token.role) rfl
  exact Filled.node (filled_seq ⟨filled_sym (by decide), hparameter.commaList, filled_sym
    (by decide)⟩)
    (fills_at 0 rfl fills_token) rfl

theorem filled_typeArguments (hg : ∀ r, Filled (g r)) : Filled (typeArguments g) :=
  Filled.node (filled_seq ⟨filled_sym (by decide), (hg _).commaList, filled_sym (by decide)⟩)
    (fills_at 0 rfl fills_token) rfl

theorem filled_typePredicate (hg : ∀ r, Filled (g r)) : Filled (typePredicate g) :=
  Filled.node (filled_seq ⟨filled_alt ⟨filled_token (shows_exactWord (by decide)) rfl,
    filled_identifier⟩, filled_word (by decide), hg _⟩) (fills_at 1 rfl fills_token) rfl

theorem filled_asserts (hg : ∀ r, Filled (g r)) : Filled (asserts g) :=
  Filled.node (filled_seq ⟨filled_word (by decide), filled_alt ⟨filled_typePredicate hg,
    filled_token (shows_exactWord (by decide)) rfl, filled_identifier⟩⟩)
    (fills_at 0 rfl fills_token) rfl

theorem filled_returnClause (hg : ∀ r, Filled (g r)) : Filled (returnClause g) :=
  filled_alt ⟨
    Filled.node (filled_seq ⟨filled_sym (by decide), filled_asserts hg⟩)
      (fills_at 0 rfl fills_token) rfl,
    Filled.node (filled_seq ⟨filled_sym (by decide), filled_typePredicate hg⟩)
      (fills_at 0 rfl fills_token) rfl,
    filled_typeClause hg⟩

theorem filled_callSignature (hg : ∀ r, Filled (g r)) (hpattern : Fills (g .pattern)) :
    Filled (callSignature g) :=
  filled_seq ⟨(filled_typeParameters hg).opt, filled_formalParameters hg hpattern,
    (filled_returnClause hg).opt⟩

theorem fills_callSignature : Fills (callSignature g) := fills_at 1 rfl fills_node

/-! ### Types -/

theorem filled_typeReference (hg : ∀ r, Filled (g r)) : Filled (typeReference g) :=
  (filled_dottedName.mapLast fun _ h => h.asTypeName).chainOnce (filled_typeArguments hg).role rfl

theorem filled_mappedTypeClause (hg : ∀ r, Filled (g r)) : Filled (mappedTypeClause g) :=
  Filled.node (filled_seq ⟨filled_typeIdentifier.role, filled_word (by decide), (hg _).role,
    (Reads.opt (filled_seq ⟨filled_word (by decide), hg _⟩))⟩) (fills_at 1 rfl fills_token) rfl

theorem filled_indexSignature (hg : ∀ r, Filled (g r)) : Filled (indexSignature g) := by
  have hclause : ∀ {k : Kind} {m : String}, lastVisible m.toList = true → k.isOrdinary = true →
      Filled (role .type (node k (seq [sym m, g .type]))) := by
    intro k m hm hk
    have hinner : Filled (node k (seq [sym m, g .type])) :=
      Filled.node (filled_seq ⟨filled_sym hm, hg _⟩) (fills_at 0 rfl fills_token) hk
    exact hinner.role
  exact Filled.node (filled_seq ⟨
    (Reads.opt (filled_seq ⟨(Reads.opt (filled_alt ⟨filled_sym (by decide), filled_sym
      (by decide)⟩)), filled_word (by decide)⟩)),
    filled_sym (by decide),
    filled_alt ⟨filled_seq ⟨filled_identifier.role, filled_sym (by decide), hg _⟩,
      filled_mappedTypeClause hg⟩,
    filled_sym (by decide),
    filled_alt ⟨hclause (by decide) rfl, hclause (by decide) rfl, hclause (by decide) rfl,
      (filled_typeClause hg).role⟩⟩) (fills_at 1 rfl fills_token) rfl

theorem filled_constructSignature (hg : ∀ r, Filled (g r)) (hpattern : Fills (g .pattern)) :
    Filled (constructSignature g) :=
  Filled.node (filled_seq ⟨Reads.opt (filled_modifier (by decide)), filled_word (by decide),
    (filled_typeParameters hg).opt,
    filled_formalParameters hg hpattern, filled_annotated hg⟩) (fills_at 1 rfl fills_token) rfl

theorem filled_getOrSet : Filled (alt [modifier "get", modifier "set", sym "*"]) :=
  filled_alt ⟨filled_modifier (by decide), filled_modifier (by decide), filled_sym (by decide)⟩

theorem filled_methodSignature (hg : ∀ r, Filled (g r)) (hpattern : Fills (g .pattern)) :
    Filled (methodSignature g) :=
  Filled.node (filled_seq ⟨filled_accessibility.opt, Reads.opt (filled_modifier (by decide)),
    filled_overriding.opt,
    Reads.opt (filled_modifier (by decide)), Reads.opt (filled_modifier (by decide)),
      filled_getOrSet.opt, (filled_propertyName hg).role,
    Reads.opt (filled_sym (by decide)), filled_callSignature hg hpattern⟩)
      (fills_at 8 rfl fills_callSignature) rfl

theorem fills_propertyName : Fills (propertyName g) :=
  fills_alt ⟨fills_token, fills_token, fills_node, fills_token, fills_node⟩

theorem filled_propertySignature (hg : ∀ r, Filled (g r)) : Filled (propertySignature g) :=
  Filled.node (filled_seq ⟨filled_accessibility.opt, Reads.opt (filled_modifier (by decide)),
    filled_overriding.opt,
    Reads.opt (filled_modifier (by decide)), (filled_propertyName hg).role, Reads.opt (filled_sym
      (by decide)), filled_annotated hg⟩)
    (fills_at 4 rfl fills_propertyName.role) rfl

theorem filled_members (hg : ∀ r, Filled (g r)) (hpattern : Fills (g .pattern)) :
    Filled (members g) := by
  have hmember : Filled (typeMember g) :=
    filled_alt ⟨filled_constructSignature hg hpattern,
      (filled_callSignature hg hpattern).node fills_callSignature rfl, filled_indexSignature hg,
      filled_methodSignature hg hpattern, filled_propertySignature hg⟩
  have hseparator : Filled (alt [sym ",", semicolon .type]) :=
    filled_alt ⟨filled_sym (by decide), filled_semicolon _⟩
  exact filled_seq ⟨filled_sym (by decide), (Reads.opt (filled_seq ⟨(Reads.opt (filled_alt
    ⟨filled_sym (by decide), filled_sym (by decide)⟩)), hmember,
    (Reads.many (filled_seq ⟨hseparator, hmember⟩)), hseparator.opt⟩)), filled_sym (by decide)⟩

theorem fills_members : Fills (members g) := fills_at 0 rfl fills_token

theorem filled_tupleMember (hg : ∀ r, Filled (g r)) : Filled (tupleMember g) := by
  have hannotated : Filled (tupleMember.annotatedTuple g) := (filled_typeClause hg).role
  exact filled_alt ⟨
    Filled.node (filled_seq ⟨filled_alt ⟨
      Filled.node (filled_seq ⟨filled_sym (by decide), filled_identifier⟩)
        (fills_at 0 rfl fills_token) rfl,
      filled_identifier⟩, hannotated⟩)
      (fills_at 0 rfl (fills_alt ⟨fills_node, fills_token⟩)) rfl,
    Filled.node (filled_seq ⟨filled_identifier, filled_sym (by decide), hannotated⟩)
      (fills_at 0 rfl fills_token) rfl,
    Filled.node (filled_seq ⟨filled_sym (by decide), hg _⟩) (fills_at 0 rfl fills_token) rfl,
    (hg .type).chainOnce (filled_sym (by decide)) rfl⟩

theorem filled_templateLiteralType (hg : ∀ r, Filled (g r)) : Filled (templateLiteralType g) :=
  Filled.node (filled_seq ⟨filled_mark (by decide), Reads.many (filled_alt
    ⟨filled_lexeme takes_templateChars rfl,
      filled_lexeme takes_escape rfl,
      Filled.node (filled_seq ⟨filled_mark (by decide), hg _, filled_sym (by decide)⟩)
        (fills_at 0 rfl fills_lexeme) rfl⟩),
    filled_mark (by decide)⟩) (fills_at 0 rfl fills_lexeme) rfl

theorem filled_predefinedType : Filled predefinedType :=
  filled_alt ⟨Filled.node (filled_seq ⟨filled_word (by decide), filled_word (by decide)⟩)
    (fills_at 0 rfl fills_token) rfl,
    filled_namedWords (by decide) rfl⟩

theorem filled_literalType : Filled literalType :=
  Filled.node (filled_alt ⟨filled_string, filled_number,
      Filled.node (filled_seq ⟨filled_alt ⟨filled_sym (by decide), filled_sym (by decide)⟩,
        filled_number⟩)
        (fills_at 1 rfl fills_token) rfl,
      filled_namedWord (by decide) rfl, filled_namedWord (by decide) rfl,
      filled_namedWord (by decide) rfl, filled_namedWord (by decide) rfl⟩)
    (fills_alt ⟨fills_node, fills_token, fills_node, fills_token, fills_token, fills_token,
      fills_token⟩) rfl

theorem filled_typeLevelArguments (hg : ∀ r, Filled (g r)) : Filled (typeLevelArguments g) :=
  Filled.node (filled_seq ⟨filled_sym (by decide), (hg _).commaList.opt, filled_sym (by decide)⟩)
    (fills_at 0 rfl fills_token) rfl

theorem filled_importedModule (hg : ∀ r, Filled (g r)) : Filled (importedModule g) :=
  Filled.node (filled_seq ⟨filled_namedWord (by decide) rfl, filled_typeLevelArguments hg⟩)
    (fills_at 0 rfl fills_token) rfl

theorem filled_memberName : Filled (alt [privateIdentifier, memberIdentifier]) :=
  filled_alt ⟨filled_privateIdentifier, filled_memberIdentifier⟩

theorem filled_typeQuery (hg : ∀ r, Filled (g r)) : Filled (typeQuery g) :=
  Filled.node (filled_seq ⟨filled_word (by decide),
    Filled.chain (filled_alt ⟨filled_importedModule hg, filled_namedWord (by decide) rfl,
      filled_identifier⟩)
      ⟨filled_seq ⟨filled_alt ⟨filled_sym (by decide), filled_sym (by decide)⟩, filled_memberName⟩,
        filled_seq ⟨Reads.opt (filled_sym (by decide)), filled_ahead _, filled_sym (by decide),
          filled_alt ⟨filled_predefinedType, filled_string, filled_number⟩, filled_sym (by decide)⟩,
        filled_seq ⟨filled_ahead _, filled_typeLevelArguments hg⟩,
        (filled_typeArguments hg).role⟩ rfl⟩) (fills_at 0 rfl fills_token) rfl

theorem filled_primaryType (hg : ∀ r, Filled (g r)) (hpattern : Fills (g .pattern)) :
    Filled (primaryType g) :=
  filled_alt ⟨
    Filled.node (filled_seq ⟨filled_sym (by decide), hg _, filled_sym (by decide)⟩)
      (fills_at 0 rfl fills_token) rfl,
    (filled_members hg hpattern).node fills_members rfl,
    Filled.node (filled_seq ⟨filled_sym (by decide), (filled_tupleMember hg).commaList.opt,
      filled_sym (by decide)⟩)
      (fills_at 0 rfl fills_token) rfl,
    filled_templateLiteralType hg, filled_predefinedType, filled_literalType, filled_namedWord
      (by decide) rfl,
    filled_typeQuery hg,
    (filled_importedModule hg).chain
      (filled_seq ⟨filled_sym (by decide), filled_memberIdentifier⟩) rfl,
    filled_namedWord (by decide) rfl, filled_token (shows_exactly (by decide)) rfl,
    filled_typeReference hg⟩

theorem filled_keysType (hg : ∀ r, Filled (g r)) (hpattern : Fills (g .pattern)) :
    Filled (keysType g) :=
  filled_alt ⟨
    Filled.node (filled_seq ⟨filled_word (by decide), hg _⟩) (fills_at 0 rfl fills_token) rfl,
    (filled_primaryType hg hpattern).chain
      ⟨filled_seq ⟨filled_ahead _, filled_sym (by decide), filled_sym (by decide)⟩,
        filled_seq ⟨filled_ahead _, filled_sym (by decide), hg _, filled_sym (by decide)⟩⟩ rfl⟩

theorem filled_typeOperand (hg : ∀ r, Filled (g r)) (hpattern : Fills (g .pattern)) :
    Filled (typeOperand g) :=
  filled_alt ⟨
    Filled.node (filled_seq ⟨(filled_typeParameters hg).opt, filled_formalParameters hg hpattern,
      filled_sym (by decide), filled_alt ⟨filled_asserts hg, filled_typePredicate hg, hg _⟩⟩)
      (fills_at 1 rfl fills_node) rfl,
    Filled.node (filled_seq ⟨Reads.opt (filled_word (by decide)), filled_word (by decide),
      (filled_typeParameters hg).opt,
      filled_formalParameters hg hpattern, filled_sym (by decide), hg _⟩)
        (fills_at 1 rfl fills_token) rfl,
    Filled.node (filled_seq ⟨filled_word (by decide), filled_typeIdentifier,
      (Reads.opt (filled_seq ⟨filled_word (by decide), hg _⟩))⟩) (fills_at 0 rfl fills_token) rfl,
    Filled.node (filled_seq ⟨filled_word (by decide), hg _⟩) (fills_at 0 rfl fills_token) rfl,
    hg _⟩

theorem filled_joinedTypes {k : Kind} {mark : String} {operand : Fragment} (h : Filled operand)
    (hmark : lastVisible mark.toList = true) (hk : k.isOrdinary = true) :
    Filled (joinedTypes k mark operand) :=
  Filled.chain (filled_alt ⟨Filled.node (filled_seq ⟨filled_sym hmark, h⟩)
    (fills_at 0 rfl fills_token) hk, h⟩) (filled_seq ⟨filled_sym hmark, h⟩)
    (by simp [OrdinarySteps, hk])

theorem filled_unionType (hg : ∀ r, Filled (g r)) (hpattern : Fills (g .pattern)) :
    Filled (unionType g) :=
  filled_joinedTypes (filled_joinedTypes (filled_typeOperand hg hpattern) (by decide) rfl)
    (by decide) rfl

theorem filled_type (hg : ∀ r, Filled (g r)) (hpattern : Fills (g .pattern)) : Filled (type g) :=
  (filled_unionType hg hpattern).chainOnce (filled_seq ⟨filled_word (by decide),
    filled_unionType hg hpattern, filled_sym (by decide), hg _, filled_sym (by decide), hg _⟩) rfl

/-! ### Expressions -/

theorem filled_methodDefinition (hg : ∀ r, Filled (g r)) (hpattern : Fills (g .pattern)) :
    Filled (methodDefinition g) :=
  Filled.node (filled_seq ⟨filled_accessibility.opt, Reads.opt (filled_modifier (by decide)),
    filled_overriding.opt,
    Reads.opt (filled_modifier (by decide)), Reads.opt (filled_modifier (by decide)),
      filled_getOrSet.opt, (filled_propertyName hg).role, Reads.opt (filled_sym (by decide)),
    filled_callSignature hg hpattern, (filled_block hg).role⟩) (fills_at 9 rfl fills_node.role) rfl

theorem filled_classBody (hg : ∀ r, Filled (g r)) (hpattern : Fills (g .pattern)) :
    Filled (classBody g) := by
  have habstract : Filled (abstractMethodSignature g) :=
    Filled.node (filled_seq ⟨filled_accessibility.opt, filled_modifier (by decide),
      filled_overriding.opt,
      filled_getOrSet.opt, (filled_propertyName hg).role, Reads.opt (filled_sym (by decide)),
      filled_callSignature hg hpattern⟩) (fills_at 1 rfl fills_modifier) rfl
  have hwords : Filled (alt (["declare", "static", "readonly", "abstract", "accessor"].map
      modifier)) :=
    filled_alt ⟨filled_modifier (by decide), filled_modifier (by decide), filled_modifier
      (by decide), filled_modifier (by decide), filled_modifier (by decide)⟩
  have hfield : Filled (fieldDefinition g) :=
    Filled.node (filled_seq ⟨(filled_decorator hg).many,
      Reads.many (filled_alt ⟨filled_accessibility, filled_overriding, hwords⟩),
      (filled_propertyName hg).role, Reads.opt (filled_alt ⟨filled_sym (by decide), filled_sym
        (by decide)⟩), filled_annotated hg,
      filled_initialValue hg⟩) (fills_at 2 rfl fills_propertyName.role) rfl
  have hstatic : Filled (node .classStaticBlock (seq [word "static", role .body (block g)])) :=
    Filled.node (filled_seq ⟨filled_word (by decide), (filled_block hg).role⟩)
      (fills_at 0 rfl fills_token) rfl
  have hmember : Filled (classMember g) :=
    filled_alt ⟨filled_sym (by decide), hstatic,
      filled_seq ⟨(filled_decorator hg).many, filled_methodDefinition hg hpattern,
        (filled_semicolon _).opt⟩,
      filled_seq ⟨filled_alt ⟨habstract, filled_indexSignature hg,
        filled_methodSignature hg hpattern, hfield⟩, filled_alt ⟨filled_semicolon _, filled_sym
          (by decide)⟩⟩⟩
  exact Filled.node (filled_seq ⟨filled_sym (by decide), hmember.many, filled_sym (by decide)⟩)
    (fills_at 0 rfl fills_token) rfl

theorem filled_templateString (hg : ∀ r, Filled (g r)) : Filled (templateString g) := by
  have hsubstitution : Filled (node .templateSubstitution
      (seq [lexeme .mark (Lexeme.exactly ['$', '\x7b']), g .expression, sym "\x7d"])) :=
    Filled.node (filled_seq ⟨filled_mark (by decide), hg _, filled_sym (by decide)⟩)
      (fills_at 0 rfl fills_lexeme) rfl
  exact Filled.node (filled_seq ⟨filled_mark (by decide), Reads.many (filled_alt
    ⟨filled_lexeme takes_templateChars rfl,
    filled_lexeme takes_escape rfl, hsubstitution⟩), filled_mark (by decide)⟩)
      (fills_at 0 rfl fills_lexeme) rfl

theorem filled_regex : Filled regex :=
  Filled.node (filled_seq ⟨filled_mark (by decide), filled_lexeme takes_regexPattern rfl,
    filled_mark (by decide),
    Reads.opt (filled_lexeme shows_regexFlags.takes rfl)⟩) (fills_at 0 rfl fills_lexeme) rfl

theorem filled_spreadElement (hg : ∀ r, Filled (g r)) : Filled (spreadElement g) :=
  Filled.node (filled_seq ⟨filled_sym (by decide), hg _⟩) (fills_at 0 rfl fills_token) rfl

theorem filled_objectMember (hg : ∀ r, Filled (g r)) (hpattern : Fills (g .pattern)) :
    Filled (objectMember g) :=
  filled_alt ⟨
    Filled.node (filled_seq ⟨filled_propertyName hg, filled_sym (by decide), (hg _).role⟩)
      (fills_at 1 rfl fills_token) rfl,
    filled_spreadElement hg, filled_methodDefinition hg hpattern,
    (filled_token shows_name rfl).chainOnce (filled_seq ⟨filled_symUnless (by decide), hg _⟩) rfl⟩

theorem filled_arguments (hg : ∀ r, Filled (g r)) : Filled (arguments g) := by
  have hone : Filled (alt [spreadElement g, g .expression]) :=
    filled_alt ⟨filled_spreadElement hg, hg _⟩
  exact Filled.node (filled_seq ⟨filled_sym (by decide), hone.commaList.opt, filled_sym
    (by decide)⟩) (fills_at 0 rfl fills_token) rfl

theorem filled_sequence (hg : ∀ r, Filled (g r)) : Filled (sequence g) :=
  (hg .expression).chainOnce (filled_seq ⟨filled_sym (by decide), Filled.sepBy (filled_sym
    (by decide)) (hg _)⟩) rfl

theorem filled_parenthesized (hg : ∀ r, Filled (g r)) : Filled (parenthesized g) :=
  Filled.node (filled_seq ⟨filled_sym (by decide), filled_sequence hg, filled_annotated hg,
    filled_sym (by decide)⟩)
    (fills_at 0 rfl fills_token) rfl

theorem filled_functionExpression (hg : ∀ r, Filled (g r)) (hpattern : Fills (g .pattern)) :
    Filled (functionExpression g) :=
  filled_alt ⟨
    Filled.node (filled_seq ⟨Reads.opt (filled_modifier (by decide)), filled_word (by decide),
      filled_identifier.role.opt,
      filled_callSignature hg hpattern, (filled_block hg).role⟩) (fills_at 1 rfl fills_token) rfl,
    Filled.node (filled_seq ⟨Reads.opt (filled_modifier (by decide)), filled_word (by decide),
      filled_sym (by decide), filled_identifier.role.opt,
      filled_callSignature hg hpattern, (filled_block hg).role⟩) (fills_at 1 rfl fills_token) rfl⟩

theorem filled_primary (hg : ∀ r, Filled (g r)) (hpattern : Fills (g .pattern)) :
    Filled (primary g) := by
  have hclass : Filled (node .classExpression (seq [many (decorator g), word "class",
      opt (seq [ahead (fun s => !primary.startsHeritage s), role .name typeIdentifier]),
      opt (typeParameters g), g .classRest])) :=
    Filled.node (filled_seq ⟨(filled_decorator hg).many, filled_word (by decide),
      Reads.opt (filled_seq ⟨filled_ahead _, filled_typeIdentifier.role⟩),
      (filled_typeParameters hg).opt, hg _⟩) (fills_at 1 rfl fills_token) rfl
  have hmeta : Filled (node .metaProperty (alt [seq [word "new", sym ".", word "target"],
      seq [word "import", sym ".", word "meta"]])) :=
    Filled.node (filled_alt ⟨filled_seq ⟨filled_word (by decide), filled_sym (by decide),
      filled_word (by decide)⟩, filled_seq ⟨filled_word (by decide), filled_sym (by decide),
        filled_word (by decide)⟩⟩)
      (fills_alt ⟨fills_at 0 rfl fills_token, fills_at 0 rfl fills_token⟩) rfl
  have hobject : Filled (node .objectLiteral
      (seq [sym "\x7b", opt (commaList (objectMember g)), sym "\x7d"])) :=
    Filled.node (filled_seq ⟨filled_sym (by decide),
      (filled_objectMember hg hpattern).commaList.opt, filled_sym (by decide)⟩)
      (fills_at 0 rfl fills_token) rfl
  have harray : Filled (node .arrayLiteral
      (seq [sym "[", many (alt [sym ",", spreadElement g, g .expression]), sym "]"])) :=
    Filled.node (filled_seq ⟨filled_sym (by decide), Reads.many (filled_alt ⟨filled_sym
      (by decide), filled_spreadElement hg, hg _⟩), filled_sym (by decide)⟩)
      (fills_at 0 rfl fills_token) rfl
  exact filled_alt ⟨filled_parenthesized hg, filled_namedWord (by decide) rfl, filled_namedWord
    (by decide) rfl, filled_number, filled_string,
    filled_templateString hg, filled_regex, filled_namedWord (by decide) rfl, filled_namedWord
      (by decide) rfl, filled_namedWord (by decide) rfl, hobject, harray,
    filled_functionExpression hg hpattern, hclass, hmeta, filled_namedWord (by decide) rfl,
      filled_privateIdentifier,
    filled_alt ⟨filled_namedWord (by decide) rfl, filled_identifier⟩⟩

theorem filled_optionalChain {continuations : List String} :
    Filled (node .optionalChain (symUnless "?." continuations)) :=
  Filled.node (filled_symUnless (by decide)) fills_token rfl

theorem filled_suffixes (hg : ∀ r, Filled (g r)) :
    List.Forall (fun step => Filled step.more) (suffixes g) :=
  ⟨filled_seq ⟨filled_alt ⟨filled_optionalChain, filled_symUnless (by decide)⟩, filled_memberName⟩,
    filled_seq ⟨filled_optionalChain.opt, filled_sym (by decide), filled_sequence hg, filled_sym
      (by decide)⟩,
    filled_seq ⟨filled_optionalChain.opt, (filled_typeArguments hg).role.opt,
      filled_alt ⟨filled_arguments hg, (filled_templateString hg).spaced⟩⟩,
    filled_seq ⟨filled_ahead _, filled_symUnless (by decide)⟩⟩

theorem filled_instantiated (hg : ∀ r, Filled (g r)) (followers : List Char) :
    Filled (instantiated g followers).more :=
  filled_seq ⟨(filled_typeArguments hg).role, filled_ahead _⟩

theorem filled_heritage (hg : ∀ r, Filled (g r)) {bases : Fragment} (hbases : Filled bases) :
    Filled (heritage g bases) := by
  have himplements : Filled (node .implementsClause
      (seq [word "implements", sepBy (sym ",") (g .type)])) :=
    Filled.node (filled_seq ⟨filled_word (by decide), Filled.sepBy (filled_sym (by decide))
      (hg _)⟩) (fills_at 0 rfl fills_token) rfl
  have hextends : Filled (node .extendsClause (seq [word "extends", sepBy (sym ",") bases])) :=
    Filled.node (filled_seq ⟨filled_word (by decide), Filled.sepBy (filled_sym
      (by decide)) hbases⟩) (fills_at 0 rfl fills_token) rfl
  exact Filled.node (filled_alt ⟨filled_seq ⟨hextends, himplements.opt⟩, himplements⟩)
    (fills_alt ⟨fills_at 0 rfl fills_node, fills_node⟩) rfl

theorem filled_classRest (hg : ∀ r, Filled (g r)) (hpattern : Fills (g .pattern)) :
    Filled (classRest g) := by
  have hbase : Filled (chain (primary g) (suffixes g ++ [instantiated g ['.']])) :=
    (filled_primary hg hpattern).chain (List.forall_append.mpr
      ⟨filled_suffixes hg, filled_instantiated hg _⟩) rfl
  have hbases : Filled (seq [role .value (chain (primary g) (suffixes g ++ [instantiated g ['.']])),
      opt (role .typeArguments (typeArguments g))]) :=
    filled_seq ⟨hbase.role, (filled_typeArguments hg).role.opt⟩
  exact filled_seq ⟨(filled_heritage hg hbases).opt, (filled_classBody hg hpattern).role⟩

theorem filled_constructed (hg : ∀ r, Filled (g r)) (hpattern : Fills (g .pattern)) :
    Filled (constructed g) := by
  have hcalled : Filled (chain (g .constructed)
      ((suffixes g).filter fun step => step.kind != .callExpression)) := by
    refine (hg .constructed).chain (List.forall_iff_forall_mem.mpr fun step hstep => ?_) rfl
    exact List.forall_iff_forall_mem.mp (filled_suffixes hg) step (List.mem_filter.mp hstep).1
  exact filled_alt ⟨
    Filled.node (filled_seq ⟨filled_word (by decide), hcalled, (filled_typeArguments hg).role.opt,
      (filled_arguments hg).opt⟩) (fills_at 0 rfl fills_token) rfl,
    filled_primary hg hpattern⟩

theorem filled_operand (hg : ∀ r, Filled (g r)) : Filled (operand g) := by
  have hpostfixed : Filled (postfixed g) :=
    (hg .constructed).chain (List.forall_append.mpr
      ⟨filled_suffixes hg, filled_instantiated hg _⟩) rfl
  exact filled_alt ⟨
    Filled.node (filled_seq ⟨filled_alt ⟨filled_sym (by decide), filled_sym (by decide)⟩, hg _⟩)
      (fills_at 0 rfl
      (fills_alt ⟨fills_token, fills_token⟩)) rfl,
    Filled.node (filled_seq ⟨filled_alt ⟨filled_sym (by decide), filled_sym (by decide),
      filled_sym (by decide), filled_sym (by decide), filled_anyWord (by decide)⟩, hg _⟩)
        (fills_at 0 rfl (fills_alt
      ⟨fills_token, fills_token, fills_token, fills_token,
        fills_alt ⟨fills_token, fills_token, fills_token⟩⟩)) rfl,
    Filled.node (filled_seq ⟨filled_modifier (by decide), hg _⟩)
      (fills_at 0 rfl fills_modifier) rfl,
    Filled.node (filled_seq ⟨filled_typeArguments hg, hg _⟩) (fills_at 0 rfl fills_node) rfl,
    hpostfixed.chainOnce (filled_seq ⟨filled_ahead _, filled_alt ⟨filled_sym (by decide),
      filled_sym (by decide)⟩⟩) rfl⟩

theorem filled_joined {operand operator : Fragment} (h : Filled operand)
    (hoperator : Filled operator) {others : List Step}
    (hothers : List.Forall (fun step => Filled step.more) others)
    (hkinds : OrdinarySteps others) : Filled (joined operand operator others) := by
  refine h.chain (List.forall_iff_forall_mem.mpr fun step hstep => ?_) hkinds
  rcases List.mem_cons.mp hstep with rfl | hstep
  · exact filled_seq ⟨hoperator, h⟩
  · exact List.forall_iff_forall_mem.mp hothers step hstep

theorem filled_levels {operand : Fragment} (h : Filled operand) {levels : List Fragment}
    (hlevels : List.Forall Filled levels) : Filled (levels.foldl (joined · · []) operand) := by
  rw [List.forall_iff_forall_mem] at hlevels
  induction levels generalizing operand with
  | nil => exact h
  | cons level levels ih =>
    refine ih (filled_joined h (hlevels level List.mem_cons_self) trivial rfl) ?_
    exact fun l hl => hlevels l (List.mem_cons_of_mem _ hl)

theorem filled_binary (hg : ∀ r, Filled (g r)) : Filled (binary g) := by
  have harithmetic : Filled (arithmeticLevels.foldl (joined · · []) (g .operand)) :=
    filled_levels (hg _) ⟨filled_symUnless (by decide), filled_alt ⟨filled_symUnless (by decide),
      filled_symUnless (by decide), filled_symUnless (by decide)⟩, filled_alt ⟨filled_symUnless
        (by decide), filled_symUnless (by decide)⟩, filled_alt ⟨filled_symUnless (by decide),
          filled_symUnless (by decide), filled_symUnless (by decide)⟩⟩
  have hrelational : Filled relationalLevel := filled_alt ⟨filled_sym (by decide), filled_sym
    (by decide), filled_symUnless (by decide), filled_symUnless (by decide), filled_anyWord
      (by decide)⟩
  refine filled_levels (filled_joined harithmetic hrelational ?_ (by exact rfl))
    ⟨filled_alt ⟨filled_sym (by decide), filled_sym (by decide), filled_symUnless (by decide),
      filled_symUnless (by decide)⟩, filled_symUnless (by decide), filled_symUnless (by decide),
      filled_symUnless (by decide), filled_symUnless (by decide),
      filled_alt ⟨filled_symUnless (by decide), filled_symUnless (by decide)⟩⟩
  refine ⟨?_, ?_⟩
  · exact filled_seq ⟨filled_ahead _, filled_word (by decide),
      filled_alt ⟨filled_namedWord (by decide) rfl, hg _⟩⟩
  · exact filled_seq ⟨filled_ahead _, filled_word (by decide), hg _⟩

theorem filled_augmentedOperators : Filled augmentedOperators :=
  filled_alt ⟨filled_sym (by decide), filled_sym (by decide), filled_sym (by decide), filled_sym
    (by decide), filled_sym (by decide), filled_sym (by decide), filled_sym (by decide),
      filled_sym (by decide), filled_sym (by decide), filled_sym (by decide), filled_sym
        (by decide), filled_sym (by decide), filled_sym (by decide), filled_sym (by decide),
          filled_sym (by decide)⟩

theorem filled_expression (hg : ∀ r, Filled (g r)) (hpattern : Fills (g .pattern)) :
    Filled (expression g) := by
  have harrow : Filled (arrowFunction g) :=
    Filled.node (filled_seq ⟨Reads.opt (filled_seq ⟨filled_word (by decide), filled_ahead _⟩),
      filled_alt ⟨filled_identifier, filled_callSignature hg hpattern⟩, filled_sym (by decide),
      Filled.role (filled_alt ⟨filled_block hg, hg _⟩)⟩) (fills_at 2 rfl fills_token) rfl
  have hyield : Filled (node .yieldExpression
      (seq [word "yield", opt (seq [ahead sameLine, opt (sym "*"), g .expression])])) :=
    Filled.node (filled_seq ⟨filled_word (by decide), Reads.opt (filled_seq ⟨filled_ahead _,
      Reads.opt (filled_sym (by decide)), hg _⟩)⟩)
      (fills_at 0 rfl fills_token) rfl
  exact filled_alt ⟨harrow, hyield, (filled_binary hg).chainOnce
    ⟨filled_seq ⟨filled_symUnless (by decide), filled_alt ⟨filled_seq ⟨hg _, filled_sym
      (by decide), hg _⟩,
        filled_seq ⟨filled_binary hg, filled_sym (by decide), hg _⟩⟩⟩,
      filled_seq ⟨filled_symUnless (by decide), hg _⟩, filled_seq ⟨filled_augmentedOperators,
        hg _⟩⟩ rfl⟩

/-! ### Declarations -/

theorem filled_declaredClassRest (hg : ∀ r, Filled (g r)) (hpattern : Fills (g .pattern)) :
    Filled (declaredClassRest g) :=
  filled_alt ⟨filled_seq ⟨filled_heritage hg (hg _).role, (filled_classBody hg hpattern).role⟩,
    hg _⟩

theorem filled_classDeclaration (hg : ∀ r, Filled (g r)) (hpattern : Fills (g .pattern)) :
    Filled (classDeclaration g) :=
  Filled.node (filled_seq ⟨(filled_decorator hg).many, filled_word (by decide),
    filled_typeIdentifier.role,
    (filled_typeParameters hg).opt, filled_declaredClassRest hg hpattern,
    (filled_omittedSemicolon _).opt⟩) (fills_at 1 rfl fills_token) rfl

theorem filled_abstractClassDeclaration (hg : ∀ r, Filled (g r))
    (hpattern : Fills (g .pattern)) : Filled (abstractClassDeclaration g) :=
  Filled.node (filled_seq ⟨(filled_decorator hg).many, filled_word (by decide), filled_word
    (by decide), filled_typeIdentifier.role,
    (filled_typeParameters hg).opt, filled_declaredClassRest hg hpattern⟩)
    (fills_at 1 rfl fills_token) rfl

theorem filled_interfaceDeclaration (hg : ∀ r, Filled (g r)) (hpattern : Fills (g .pattern)) :
    Filled (interfaceDeclaration g) := by
  have hbases : Filled (node .extendsTypeClause (seq [word "extends",
      sepBy (sym ",") (role .type (typeReference g))])) :=
    Filled.node (filled_seq ⟨filled_word (by decide), Filled.sepBy (filled_sym (by decide))
      (filled_typeReference hg).role⟩)
      (fills_at 0 rfl fills_token) rfl
  have hbody : Filled (node .interfaceBody (members g)) :=
    (filled_members hg hpattern).node fills_members rfl
  exact Filled.node (filled_seq ⟨filled_word (by decide), filled_typeIdentifier.role,
    (filled_typeParameters hg).opt,
    hbases.opt, hbody.role⟩) (fills_at 0 rfl fills_token) rfl

theorem filled_typeAliasDeclaration (hg : ∀ r, Filled (g r)) : Filled (typeAliasDeclaration g) :=
  Filled.node (filled_seq ⟨filled_word (by decide), filled_typeIdentifier.role,
    (filled_typeParameters hg).opt, filled_sym (by decide),
    (hg _).role, filled_semicolon _⟩) (fills_at 0 rfl fills_token) rfl

theorem filled_enumDeclaration (hg : ∀ r, Filled (g r)) : Filled (enumDeclaration g) := by
  have hentry : Filled (chainOnce (role .name (propertyName g))
      [⟨.enumAssignment, some .name, seq [sym "=", role .value (g .expression)]⟩]) :=
    (filled_propertyName hg).role.chainOnce (filled_seq ⟨filled_sym (by decide), (hg _).role⟩) rfl
  have hbody : Filled (node .enumBody (seq [sym "\x7b",
      opt (commaList (chainOnce (role .name (propertyName g))
        [⟨.enumAssignment, some .name, seq [sym "=", role .value (g .expression)]⟩])),
      sym "\x7d"])) :=
    Filled.node (filled_seq ⟨filled_sym (by decide), hentry.commaList.opt, filled_sym
      (by decide)⟩) (fills_at 0 rfl fills_token) rfl
  exact Filled.node (filled_seq ⟨Reads.opt (filled_word (by decide)), filled_word (by decide),
    filled_identifier.role, hbody.role⟩)
    (fills_at 1 rfl fills_token) rfl

theorem filled_functionDeclaration (hg : ∀ r, Filled (g r)) (hpattern : Fills (g .pattern)) :
    Filled (functionDeclaration g) :=
  filled_alt ⟨
    Filled.node (filled_seq ⟨Reads.opt (filled_word (by decide)), filled_word (by decide),
      filled_identifier.role,
      filled_callSignature hg hpattern, (filled_block hg).role,
      (filled_omittedSemicolon _).opt⟩) (fills_at 1 rfl fills_token) rfl,
    Filled.node (filled_seq ⟨Reads.opt (filled_word (by decide)), filled_word (by decide),
      filled_sym (by decide), filled_identifier.role,
      filled_callSignature hg hpattern, (filled_block hg).role,
      (filled_omittedSemicolon _).opt⟩) (fills_at 1 rfl fills_token) rfl⟩

theorem filled_functionSignature (hg : ∀ r, Filled (g r)) (hpattern : Fills (g .pattern)) :
    Filled (functionSignature g) :=
  Filled.node (filled_seq ⟨Reads.opt (filled_word (by decide)), filled_word (by decide),
    filled_identifier.role,
    filled_callSignature hg hpattern, filled_semicolon _⟩) (fills_at 1 rfl fills_token) rfl

theorem filled_variableList (hg : ∀ r, Filled (g r)) (hpattern : Fills (g .pattern)) :
    Filled (variableList g) := by
  have hdeclarator : Filled (variableDeclarator g) :=
    Filled.node (filled_alt ⟨
        filled_seq ⟨filled_identifier.role, filled_sym (by decide), (filled_typeClause hg).role⟩,
        filled_seq ⟨(hg _).role, filled_annotated hg, filled_initialValue hg⟩⟩)
      (fills_alt ⟨fills_at 1 rfl fills_token, fills_at 0 rfl hpattern.role⟩) rfl
  exact Filled.sepBy (filled_sym (by decide)) hdeclarator

theorem filled_variableListEnd : Filled variableListEnd :=
  filled_alt ⟨filled_semicolon _, filled_semicolon _⟩

/-- A declaration of variables is full, for its list has a comma between two variables. -/
theorem filled_declaration_of {k : Kind} {keywords : Fragment}
    (hk : k = .lexicalDeclaration ∨ k = .variableDeclaration) (hg : ∀ r, Filled (g r))
    (hpattern : Fills (g .pattern)) (hkeywords : Filled keywords)
    (hnone : Reads (fun t => t.kind ≠ .variableDeclarator) keywords) :
    Filled (node k (seq [keywords, variableList g, variableListEnd])) := by
  refine filled_node_of fun s r h => ?_
  obtain ⟨lead, first, more, ending, hlist⟩ := declaratorList_of_reads hnone h
  have hall : Filled (seq [keywords, variableList g, variableListEnd]) :=
    filled_seq ⟨hkeywords, filled_variableList hg hpattern, filled_variableListEnd⟩
  exact .declaration hk hlist (hall s r h)

theorem filled_lexicalDeclaration (hg : ∀ r, Filled (g r)) (hpattern : Fills (g .pattern)) :
    Filled (lexicalDeclaration g) :=
  filled_declaration_of (Or.inl rfl) hg hpattern (filled_anyWord (by decide))
    ((reads_word_kind_ne _).or (Reads.or (reads_word_kind_ne _) reads_alt_nil))

theorem filled_variableDeclaration (hg : ∀ r, Filled (g r)) (hpattern : Fills (g .pattern)) :
    Filled (variableDeclaration g) :=
  filled_declaration_of (Or.inr rfl) hg hpattern (filled_word (by decide)) (reads_word_kind_ne _)

theorem filled_moduleRest (hg : ∀ r, Filled (g r)) : Filled (moduleRest g) :=
  filled_seq ⟨Filled.role (filled_alt ⟨filled_string, filled_dottedName⟩),
    (filled_block hg).role.opt⟩

theorem filled_internalModule (hg : ∀ r, Filled (g r)) : Filled (internalModule g) :=
  Filled.node (filled_seq ⟨filled_word (by decide), filled_moduleRest hg⟩)
    (fills_at 0 rfl fills_token) rfl

theorem filled_plainDeclaration (hg : ∀ r, Filled (g r)) (hpattern : Fills (g .pattern)) :
    Filled (plainDeclaration g) := by
  have hmodule : Filled (ambientModule g) :=
    Filled.node (filled_seq ⟨filled_word (by decide), filled_moduleRest hg⟩)
      (fills_at 0 rfl fills_token) rfl
  have halias : Filled importAlias :=
    Filled.node (filled_seq ⟨filled_word (by decide), filled_identifier, filled_sym (by decide),
      filled_dottedName, filled_semicolon _⟩)
      (fills_at 0 rfl fills_token) rfl
  exact filled_alt ⟨filled_classDeclaration hg hpattern,
    filled_abstractClassDeclaration hg hpattern, filled_interfaceDeclaration hg hpattern,
    filled_typeAliasDeclaration hg, filled_enumDeclaration hg,
    filled_functionDeclaration hg hpattern, filled_functionSignature hg hpattern,
    filled_lexicalDeclaration hg hpattern, filled_variableDeclaration hg hpattern,
    filled_internalModule hg, hmodule, halias⟩

theorem filled_declaration (hg : ∀ r, Filled (g r)) (hpattern : Fills (g .pattern)) :
    Filled (declaration g) := by
  have hambient : Filled (ambientDeclaration g) :=
    Filled.node (filled_seq ⟨filled_word (by decide), filled_alt ⟨filled_seq ⟨filled_word
      (by decide), filled_block hg⟩,
      filled_plainDeclaration hg hpattern,
      filled_seq ⟨filled_word (by decide), filled_sym (by decide), filled_memberIdentifier,
        filled_sym (by decide), hg _, filled_semicolon _⟩⟩⟩)
      (fills_at 0 rfl fills_token) rfl
  exact filled_alt ⟨hambient, filled_plainDeclaration hg hpattern⟩

/-! ### Statements -/

theorem filled_fromClause (hg : ∀ r, Filled (g r)) (hpattern : Fills (g .pattern)) :
    Filled (fromClause g) := by
  have hobject : Filled (node .objectLiteral
      (seq [sym "\x7b", opt (commaList (objectMember g)), sym "\x7d"])) :=
    Filled.node (filled_seq ⟨filled_sym (by decide),
      (filled_objectMember hg hpattern).commaList.opt, filled_sym (by decide)⟩)
      (fills_at 0 rfl fills_token) rfl
  have hattribute : Filled (node .importAttribute (seq [anyWord ["with", "assert"],
      node .objectLiteral (seq [sym "\x7b", opt (commaList (objectMember g)), sym "\x7d"])])) :=
    Filled.node (filled_seq ⟨filled_anyWord (by decide), hobject⟩) (fills_at 1 rfl fills_node) rfl
  exact filled_seq ⟨filled_word (by decide), filled_string, hattribute.opt⟩

theorem filled_moduleExportName : Filled moduleExportName :=
  filled_alt ⟨filled_token shows_word rfl, filled_string⟩

theorem fills_moduleExportName : Fills moduleExportName := fills_alt ⟨fills_token, fills_node⟩

theorem filled_importClause : Filled importClause := by
  have htarget : Filled (alt [seq [role .name moduleExportName, word "as", identifier],
      role .name identifier]) :=
    filled_alt ⟨filled_seq ⟨filled_moduleExportName.role, filled_word (by decide),
      filled_identifier⟩,
      filled_identifier.role⟩
  have htakes : Fills (alt [seq [role .name moduleExportName, word "as", identifier],
      role .name identifier]) :=
    fills_alt ⟨fills_at 1 rfl fills_token, fills_token.role⟩
  have hspecifier : Filled importSpecifier :=
    Filled.node (filled_alt ⟨filled_seq ⟨filled_anyWord (by decide), htarget⟩, htarget⟩)
      (fills_alt ⟨fills_at 1 rfl htakes, htakes⟩) rfl
  have hnamed : Filled (alt [node .namespaceImport (seq [sym "*", word "as", identifier]),
      node .namedImports (seq [sym "\x7b", opt (commaList importSpecifier), sym "\x7d"])]) :=
    filled_alt ⟨Filled.node (filled_seq ⟨filled_sym (by decide), filled_word (by decide),
      filled_identifier⟩) (fills_at 0 rfl fills_token) rfl,
      Filled.node (filled_seq ⟨filled_sym (by decide), hspecifier.commaList.opt, filled_sym
        (by decide)⟩) (fills_at 0 rfl fills_token) rfl⟩
  exact Filled.node (filled_alt ⟨hnamed, filled_seq ⟨filled_identifier,
      Reads.opt (filled_seq ⟨filled_sym (by decide), hnamed⟩)⟩⟩)
    (fills_alt ⟨fills_alt ⟨fills_node, fills_node⟩, fills_at 0 rfl fills_token⟩) rfl

theorem filled_importStatement (hg : ∀ r, Filled (g r)) (hpattern : Fills (g .pattern)) :
    Filled (importStatement g) := by
  have hrequire : Filled (node .importRequireClause
      (seq [identifier, sym "=", word "require", sym "(", string, sym ")"])) :=
    Filled.node (filled_seq ⟨filled_identifier, filled_sym (by decide), filled_word (by decide),
      filled_sym (by decide), filled_string, filled_sym (by decide)⟩)
      (fills_at 0 rfl fills_token) rfl
  have htarget : Filled (alt [seq [importClause, fromClause g], node .importRequireClause
      (seq [identifier, sym "=", word "require", sym "(", string, sym ")"])]) :=
    filled_alt ⟨filled_seq ⟨filled_importClause, filled_fromClause hg hpattern⟩, hrequire⟩
  exact Filled.node (filled_seq ⟨filled_word (by decide), filled_alt ⟨filled_seq ⟨filled_anyWord
    (by decide), htarget⟩, htarget, filled_string⟩,
    filled_semicolon _⟩) (fills_at 0 rfl fills_token) rfl

theorem filled_exportClause : Filled exportClause := by
  have htarget : Filled (seq [role .name moduleExportName,
      opt (seq [word "as", moduleExportName])]) :=
    filled_seq ⟨filled_moduleExportName.role,
      Reads.opt (filled_seq ⟨filled_word (by decide), filled_moduleExportName⟩)⟩
  have htakes : Fills (seq [role .name moduleExportName,
      opt (seq [word "as", moduleExportName])]) :=
    fills_at 0 rfl fills_moduleExportName.role
  have hspecifier : Filled exportSpecifier :=
    Filled.node (filled_alt ⟨filled_seq ⟨filled_anyWord (by decide), htarget⟩, htarget⟩)
      (fills_alt ⟨fills_at 1 rfl htakes, htakes⟩) rfl
  exact Filled.node (filled_seq ⟨filled_sym (by decide), hspecifier.commaList.opt, filled_sym
    (by decide)⟩) (fills_at 0 rfl fills_token) rfl

theorem filled_exportStatement (hg : ∀ r, Filled (g r)) (hpattern : Fills (g .pattern)) :
    Filled (exportStatement g) := by
  have horigin := filled_fromClause hg hpattern
  have hdeclared := (filled_declaration hg hpattern).role (r := .declaration)
  have hspace : Filled (node .namespaceExport (seq [sym "*", word "as", moduleExportName])) :=
    Filled.node (filled_seq ⟨filled_sym (by decide), filled_word (by decide),
      filled_moduleExportName⟩) (fills_at 0 rfl fills_token) rfl
  have hall : Filled (alt [seq [sym "*", fromClause g],
      seq [node .namespaceExport (seq [sym "*", word "as", moduleExportName]),
        fromClause g]]) :=
    filled_alt ⟨filled_seq ⟨filled_sym (by decide), horigin⟩, filled_seq ⟨hspace, horigin⟩⟩
  have hends := filled_semicolon .expression
  exact Filled.node (filled_seq ⟨(filled_decorator hg).many, filled_word (by decide), filled_alt ⟨
    filled_seq ⟨filled_word (by decide), filled_alt ⟨hdeclared, filled_seq ⟨(hg _).role, hends⟩⟩⟩,
    filled_seq ⟨filled_word (by decide), filled_alt ⟨filled_seq ⟨filled_exportClause, horigin.opt⟩,
      hall⟩, hends⟩,
    hdeclared, filled_seq ⟨hall, hends⟩,
    filled_seq ⟨filled_exportClause, horigin.opt, hends⟩, filled_seq ⟨filled_sym (by decide), hg _,
      hends⟩,
    filled_seq ⟨filled_word (by decide), filled_word (by decide), filled_identifier, hends⟩⟩⟩)
      (fills_at 1 rfl fills_token) rfl

theorem filled_forStatements (hg : ∀ r, Filled (g r)) (hpattern : Fills (g .pattern)) :
    Filled (forHead g) ∧ Filled (forInHead g) := by
  have hempty : Filled (node .emptyStatement (sym ";")) := Filled.node (filled_sym
    (by decide)) fills_token rfl
  have hsequence := filled_sequence hg
  exact ⟨filled_seq ⟨filled_alt ⟨filled_lexicalDeclaration hg hpattern,
        filled_variableDeclaration hg hpattern, filled_seq ⟨hsequence, filled_sym (by decide)⟩,
          hempty⟩,
      filled_alt ⟨filled_seq ⟨hsequence, filled_sym (by decide)⟩, hempty⟩, hsequence.opt⟩,
    filled_seq ⟨Reads.opt (filled_anyWord (by decide)), hg _, filled_anyWord (by decide),
      hsequence⟩⟩

theorem filled_controlStatement (hg : ∀ r, Filled (g r)) (hpattern : Fills (g .pattern)) :
    Filled (controlStatement g) := by
  -- All but labelled statements start with a word, which is what they show first.
  have hfirst : ∀ {k : Kind} {v : String} {as : List Fragment}, List.Forall Filled as →
      lastVisible v.toList = true → k.isOrdinary = true →
      Filled (node k (seq (word v :: as))) := by
    intro k v as has hv hk
    refine Filled.node ?_ (fills_at 0 rfl fills_token) hk
    exact Reads.seq (filled_word hv) (filled_seq has)
  have hbody := (hg .statement).role (r := .body)
  have hblock := (filled_block hg).role (r := .body)
  have hcondition := filled_parenthesized hg
  have hsequence := filled_sequence hg
  have hends := filled_semicolon .expression
  have hlabel : Filled (token .statementIdentifier Lexeme.name) := filled_token shows_name rfl
  have hjump : Filled (opt (seq [ahead sameLine, token .statementIdentifier Lexeme.name])) :=
    Reads.opt (filled_seq ⟨filled_ahead _, hlabel⟩)
  have hcases : Filled (node .switchBody (seq [sym "\x7b",
      many (alt [
        node .switchCase (seq [word "case", role .value (sequence g), sym ":",
          many (g .statement)]),
        node .switchDefault (seq [word "default", sym ":", many (g .statement)])]),
      sym "\x7d"])) := by
    refine Filled.node (filled_seq ⟨filled_sym (by decide), Reads.many (filled_alt ⟨?_, ?_⟩),
      filled_sym (by decide)⟩)
      (fills_at 0 rfl fills_token) rfl
    · exact hfirst ⟨hsequence.role, filled_sym (by decide), (hg _).many⟩ (by decide) rfl
    · exact hfirst ⟨filled_sym (by decide), (hg _).many⟩ (by decide) rfl
  have helse : Filled (node .elseClause (seq [word "else", g .statement])) :=
    hfirst (hg _) (by decide) rfl
  have hcatch : Filled (node .catchClause (seq [word "catch",
      opt (seq [sym "(", g .pattern, annotated g, sym ")"]), role .body (block g)])) :=
    hfirst ⟨Reads.opt (filled_seq ⟨filled_sym (by decide), hg _, filled_annotated hg, filled_sym
      (by decide)⟩), hblock⟩ (by decide) rfl
  have hfinally : Filled (node .finallyClause (seq [word "finally", role .body (block g)])) :=
    hfirst hblock (by decide) rfl
  obtain ⟨hfor, hforIn⟩ := filled_forStatements hg hpattern
  refine filled_alt ⟨?_, ?_, ?_, ?_, ?_, ?_, ?_, ?_, ?_, ?_, ?_, ?_, ?_, ?_⟩
  · exact hfirst ⟨hcondition, hg _, helse.opt⟩ (by decide) rfl
  · exact hfirst ⟨filled_sym (by decide), hfor, filled_sym (by decide), hbody⟩ (by decide) rfl
  · exact hfirst ⟨Reads.opt (filled_word (by decide)), filled_sym (by decide), hforIn, filled_sym
    (by decide), hbody⟩ (by decide) rfl
  · exact hfirst ⟨hcondition, hbody⟩ (by decide) rfl
  · exact hfirst ⟨hbody, filled_word (by decide), hcondition, hends.opt⟩ (by decide) rfl
  · exact hfirst ⟨hcondition.role, hcases.role⟩ (by decide) rfl
  · exact hfirst ⟨hblock, hcatch.opt, hfinally.opt⟩ (by decide) rfl
  · exact hfirst ⟨hcondition, hbody⟩ (by decide) rfl
  · exact hfirst ⟨hjump, hends⟩ (by decide) rfl
  · exact hfirst ⟨hjump, hends⟩ (by decide) rfl
  · exact hfirst ⟨Reads.opt (filled_seq ⟨filled_ahead _, hsequence⟩), hends⟩ (by decide) rfl
  · exact hfirst ⟨hsequence, hends⟩ (by decide) rfl
  · exact hfirst hends (by decide) rfl
  · exact Filled.node (filled_seq ⟨hlabel, filled_sym (by decide), hbody⟩)
      (fills_at 0 rfl fills_token) rfl

theorem filled_statement (hg : ∀ r, Filled (g r)) (hpattern : Fills (g .pattern))
    (hexpression : Fills (g .expression)) : Filled (statement g) := by
  have hlonely : Filled lonelyWord :=
    Filled.node (filled_seq ⟨filled_namedWords (by decide) rfl, filled_omittedSemicolon _⟩)
      (fills_at 0 rfl (solid_alt fun b hb => by
        obtain ⟨v, hv, rfl⟩ := List.mem_map.mp hb
        have hvisible : ∀ v ∈ contextualWords, lastVisible v.toList = true := by decide
        exact solid_namedWord _ (hvisible v hv)).fills) rfl
  have hfills : Fills (sequence g) := by
    intro t r h
    obtain ⟨x, hx, rfl⟩ := Option.map_eq_some_iff.mp h
    cases he : extend [⟨.sequenceExpression, none,
        seq [sym ",", sepBy (sym ",") (g .expression)]⟩] x with
    | none => exact hexpression t x hx
    | some y =>
      obtain ⟨ts, u, step, -, more, -, -, hy, -⟩ := extend_spec he
      simp [hy]
  exact filled_alt ⟨hlonely, filled_exportStatement hg hpattern,
    Filled.node (filled_seq ⟨filled_internalModule hg, filled_omittedSemicolon _⟩)
      (fills_at 0 rfl fills_node) rfl,
    filled_declaration hg hpattern, filled_importStatement hg hpattern, filled_block hg,
    Filled.node (filled_sym (by decide)) fills_token rfl, filled_controlStatement hg hpattern,
    Filled.node (filled_seq ⟨filled_sequence hg, filled_semicolon _⟩) (fills_at 0 rfl hfills) rfl⟩

/-! ### The whole grammar -/

theorem filled_fragment (hg : ∀ r, Filled (g r)) (hpattern : Fills (g .pattern))
    (hexpression : Fills (g .expression)) (r : Rule) : Filled (r.fragment g) := by
  cases r with
  | type => exact filled_type hg hpattern
  | keysType => exact filled_keysType hg hpattern
  | expression => exact filled_expression hg hpattern
  | operand => exact filled_operand hg
  | constructed => exact filled_constructed hg hpattern
  | classRest => exact filled_classRest hg hpattern
  | pattern => exact filled_pattern hg
  | statement => exact filled_statement hg hpattern hexpression

/-- The rules read full trees however deep their constructs are nested. -/
theorem filled_grammar (depth : Nat) (r : Rule) : Filled (grammar depth r) := by
  induction depth generalizing r with
  | zero =>
    intro s x h
    cases h
  | succ depth ih =>
    have hsound := sound_grammar depth
    exact (filled_fragment ih (hsound.solid _).fills (hsound.solid _).fills r).spaced

end ComponentDecl.Syntax
