/-! # Kinds of syntax nodes

    The vocabulary of the syntax tree.  A named kind stands for a construct of
    the declaration language and has a fixed type name; marks (punctuation and
    keywords) are known by their own text, and blanks are the white space
    between tokens. -/

namespace ComponentDecl.Syntax

/-- What a node of the syntax tree is. -/
inductive Kind where
  /-- White space between tokens. -/
  | blank
  /-- Punctuation or a keyword. -/
  | mark
  -- The whole text, comments and faults.
  | program | comment | hashBangLine | error
  -- Imports.
  | importStatement | importClause | namedImports | importSpecifier | namespaceImport
  | importRequireClause | importAttribute | importAlias
  -- Exports.
  | exportStatement | exportClause | exportSpecifier | namespaceExport
  -- Classes and their members.
  | ambientDeclaration | classDeclaration | abstractClassDeclaration | classExpression
  | classHeritage | extendsClause | implementsClause | classBody | methodDefinition
  | methodSignature | abstractMethodSignature | publicFieldDefinition | classStaticBlock
  | decorator | accessibilityModifier | overrideModifier
  -- Other declarations.
  | interfaceDeclaration | extendsTypeClause | interfaceBody | typeAliasDeclaration
  | enumDeclaration | enumBody | enumAssignment | functionDeclaration
  | generatorFunctionDeclaration | functionSignature | lexicalDeclaration | variableDeclaration
  | variableDeclarator | internalModule | ambientModule
  -- Statements.
  | expressionStatement | statementBlock | emptyStatement | ifStatement | elseClause
  | forStatement | forInStatement | whileStatement | doStatement | labeledStatement
  | returnStatement | throwStatement | breakStatement | continueStatement | tryStatement
  | catchClause | finallyClause | switchStatement | switchBody | switchCase | switchDefault
  | debuggerStatement | withStatement
  -- Types and their members.
  | typeClause | omittingTypeClause | addingTypeClause | optingTypeClause
  | typePredicateClause | assertsClause | typeArguments | typeParameters
  | typeParameter | constraint | defaultType | predefinedType | typeIdentifier
  | nestedTypeIdentifier | genericType | objectType | propertySignature | indexSignature
  | callSignature | constructSignature | mappedTypeClause | arrayType | lookupType | tupleType
  | optionalType | restType | unionType | intersectionType | parenthesizedType | functionType
  | constructorType | conditionalType | inferType | literalType | templateLiteralType
  | templateType | indexTypeQuery | typeQuery | readonlyType | thisType | existentialType
  | typePredicate | asserts
  -- Parameters and binding patterns.
  | formalParameters | requiredParameter | optionalParameter | restPattern | objectPattern
  | arrayPattern | pairPattern | assignmentPattern | objectAssignmentPattern
  -- Names.
  | identifier | nestedIdentifier | propertyIdentifier | privatePropertyIdentifier
  | shorthandPropertyIdentifier | shorthandPropertyIdentifierPattern | statementIdentifier
  | computedPropertyName
  -- Primary expressions.
  | thisReference | superReference | importCall | numberLiteral | stringLiteral
  | stringFragment | escapeSequence | templateString | templateSubstitution | regex
  | regexPattern | regexFlags | trueLiteral | falseLiteral | nullLiteral | undefinedLiteral
  -- Compound expressions.
  | objectLiteral | pair | spreadElement | arrayLiteral | functionExpression
  | generatorFunction | arrowFunction | arguments | callExpression | newExpression
  | memberExpression | subscriptExpression | instantiationExpression | optionalChain
  | metaProperty | nonNullExpression | parenthesizedExpression | sequenceExpression
  | unaryExpression | updateExpression | binaryExpression | ternaryExpression
  | assignmentExpression | augmentedAssignmentExpression | awaitExpression | yieldExpression
  | asExpression | satisfiesExpression | typeAssertion
  deriving DecidableEq, Repr, Inhabited

/-- The type name of a named kind; blanks and marks have none of their own. -/
def Kind.name : Kind → String
  | .blank | .mark => ""
  | .program => "program"
  | .comment => "comment"
  | .hashBangLine => "hash_bang_line"
  | .error => "ERROR"
  | .importStatement => "import_statement"
  | .importClause => "import_clause"
  | .namedImports => "named_imports"
  | .importSpecifier => "import_specifier"
  | .namespaceImport => "namespace_import"
  | .importRequireClause => "import_require_clause"
  | .importAttribute => "import_attribute"
  | .importAlias => "import_alias"
  | .exportStatement => "export_statement"
  | .exportClause => "export_clause"
  | .exportSpecifier => "export_specifier"
  | .namespaceExport => "namespace_export"
  | .ambientDeclaration => "ambient_declaration"
  | .classDeclaration => "class_declaration"
  | .abstractClassDeclaration => "abstract_class_declaration"
  | .classExpression => "class"
  | .classHeritage => "class_heritage"
  | .extendsClause => "extends_clause"
  | .implementsClause => "implements_clause"
  | .classBody => "class_body"
  | .methodDefinition => "method_definition"
  | .methodSignature => "method_signature"
  | .abstractMethodSignature => "abstract_method_signature"
  | .publicFieldDefinition => "public_field_definition"
  | .classStaticBlock => "class_static_block"
  | .decorator => "decorator"
  | .accessibilityModifier => "accessibility_modifier"
  | .overrideModifier => "override_modifier"
  | .interfaceDeclaration => "interface_declaration"
  | .extendsTypeClause => "extends_type_clause"
  | .interfaceBody => "interface_body"
  | .typeAliasDeclaration => "type_alias_declaration"
  | .enumDeclaration => "enum_declaration"
  | .enumBody => "enum_body"
  | .enumAssignment => "enum_assignment"
  | .functionDeclaration => "function_declaration"
  | .generatorFunctionDeclaration => "generator_function_declaration"
  | .functionSignature => "function_signature"
  | .lexicalDeclaration => "lexical_declaration"
  | .variableDeclaration => "variable_declaration"
  | .variableDeclarator => "variable_declarator"
  | .internalModule => "internal_module"
  | .ambientModule => "module"
  | .expressionStatement => "expression_statement"
  | .statementBlock => "statement_block"
  | .emptyStatement => "empty_statement"
  | .ifStatement => "if_statement"
  | .elseClause => "else_clause"
  | .forStatement => "for_statement"
  | .forInStatement => "for_in_statement"
  | .whileStatement => "while_statement"
  | .doStatement => "do_statement"
  | .labeledStatement => "labeled_statement"
  | .returnStatement => "return_statement"
  | .throwStatement => "throw_statement"
  | .breakStatement => "break_statement"
  | .continueStatement => "continue_statement"
  | .tryStatement => "try_statement"
  | .catchClause => "catch_clause"
  | .finallyClause => "finally_clause"
  | .switchStatement => "switch_statement"
  | .switchBody => "switch_body"
  | .switchCase => "switch_case"
  | .switchDefault => "switch_default"
  | .debuggerStatement => "debugger_statement"
  | .withStatement => "with_statement"
  | .typeClause => "type_annotation"
  | .omittingTypeClause => "omitting_type_annotation"
  | .addingTypeClause => "adding_type_annotation"
  | .optingTypeClause => "opting_type_annotation"
  | .typePredicateClause => "type_predicate_annotation"
  | .assertsClause => "asserts_annotation"
  | .typeArguments => "type_arguments"
  | .typeParameters => "type_parameters"
  | .typeParameter => "type_parameter"
  | .constraint => "constraint"
  | .defaultType => "default_type"
  | .predefinedType => "predefined_type"
  | .typeIdentifier => "type_identifier"
  | .nestedTypeIdentifier => "nested_type_identifier"
  | .genericType => "generic_type"
  | .objectType => "object_type"
  | .propertySignature => "property_signature"
  | .indexSignature => "index_signature"
  | .callSignature => "call_signature"
  | .constructSignature => "construct_signature"
  | .mappedTypeClause => "mapped_type_clause"
  | .arrayType => "array_type"
  | .lookupType => "lookup_type"
  | .tupleType => "tuple_type"
  | .optionalType => "optional_type"
  | .restType => "rest_type"
  | .unionType => "union_type"
  | .intersectionType => "intersection_type"
  | .parenthesizedType => "parenthesized_type"
  | .functionType => "function_type"
  | .constructorType => "constructor_type"
  | .conditionalType => "conditional_type"
  | .inferType => "infer_type"
  | .literalType => "literal_type"
  | .templateLiteralType => "template_literal_type"
  | .templateType => "template_type"
  | .indexTypeQuery => "index_type_query"
  | .typeQuery => "type_query"
  | .readonlyType => "readonly_type"
  | .thisType => "this_type"
  | .existentialType => "existential_type"
  | .typePredicate => "type_predicate"
  | .asserts => "asserts"
  | .formalParameters => "formal_parameters"
  | .requiredParameter => "required_parameter"
  | .optionalParameter => "optional_parameter"
  | .restPattern => "rest_pattern"
  | .objectPattern => "object_pattern"
  | .arrayPattern => "array_pattern"
  | .pairPattern => "pair_pattern"
  | .assignmentPattern => "assignment_pattern"
  | .objectAssignmentPattern => "object_assignment_pattern"
  | .identifier => "identifier"
  | .nestedIdentifier => "nested_identifier"
  | .propertyIdentifier => "property_identifier"
  | .privatePropertyIdentifier => "private_property_identifier"
  | .shorthandPropertyIdentifier => "shorthand_property_identifier"
  | .shorthandPropertyIdentifierPattern => "shorthand_property_identifier_pattern"
  | .statementIdentifier => "statement_identifier"
  | .computedPropertyName => "computed_property_name"
  | .thisReference => "this"
  | .superReference => "super"
  | .importCall => "import"
  | .numberLiteral => "number"
  | .stringLiteral => "string"
  | .stringFragment => "string_fragment"
  | .escapeSequence => "escape_sequence"
  | .templateString => "template_string"
  | .templateSubstitution => "template_substitution"
  | .regex => "regex"
  | .regexPattern => "regex_pattern"
  | .regexFlags => "regex_flags"
  | .trueLiteral => "true"
  | .falseLiteral => "false"
  | .nullLiteral => "null"
  | .undefinedLiteral => "undefined"
  | .objectLiteral => "object"
  | .pair => "pair"
  | .spreadElement => "spread_element"
  | .arrayLiteral => "array"
  | .functionExpression => "function_expression"
  | .generatorFunction => "generator_function"
  | .arrowFunction => "arrow_function"
  | .arguments => "arguments"
  | .callExpression => "call_expression"
  | .newExpression => "new_expression"
  | .memberExpression => "member_expression"
  | .subscriptExpression => "subscript_expression"
  | .instantiationExpression => "instantiation_expression"
  | .optionalChain => "optional_chain"
  | .metaProperty => "meta_property"
  | .nonNullExpression => "non_null_expression"
  | .parenthesizedExpression => "parenthesized_expression"
  | .sequenceExpression => "sequence_expression"
  | .unaryExpression => "unary_expression"
  | .updateExpression => "update_expression"
  | .binaryExpression => "binary_expression"
  | .ternaryExpression => "ternary_expression"
  | .assignmentExpression => "assignment_expression"
  | .augmentedAssignmentExpression => "augmented_assignment_expression"
  | .awaitExpression => "await_expression"
  | .yieldExpression => "yield_expression"
  | .asExpression => "as_expression"
  | .satisfiesExpression => "satisfies_expression"
  | .typeAssertion => "type_assertion"

/-- Holds of the kinds that stand for a construct of the language. -/
def Kind.isNamed : Kind → Bool
  | .blank | .mark => false
  | _ => true

/-- What a node is to the node above it. -/
inductive Role where
  | name | type | value | body | declaration | typeArguments
  deriving DecidableEq, Repr

end ComponentDecl.Syntax
