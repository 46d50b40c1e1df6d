/-
The kinds of syntax tree nodes.

A node's kind is spelled by a word of the grammar or, for a bare token,
by the token's own text. The words of the grammar form a closed
enumeration; since the keywords `class`, `function` and `import` are
spelled like grammar words, a kind is read off its spelling
(`Kind.ofName`), and whether a node is a bare token is a property of
the node, not of its kind.
-/
namespace Codemod

/-- The words of the grammar that name a kind of node. -/
inductive Symbol where
  | program
  | hashBangLine
  | comment
  | expressionStatement
  | variableDeclaration
  | lexicalDeclaration
  | variableDeclarator
  | statementBlock
  | emptyStatement
  | debuggerStatement
  | ifStatement
  | elseClause
  | whileStatement
  | doStatement
  | forStatement
  | forInStatement
  | switchStatement
  | switchBody
  | switchCase
  | switchDefault
  | tryStatement
  | catchClause
  | finallyClause
  | returnStatement
  | throwStatement
  | breakStatement
  | continueStatement
  | labeledStatement
  | statementIdentifier
  | withStatement
  | functionDeclaration
  | generatorFunctionDeclaration
  | classDeclaration
  | classHeritage
  | classBody
  | methodDefinition
  | fieldDefinition
  | classStaticBlock
  | importStatement
  | importClause
  | namespaceImport
  | namedImports
  | importSpecifier
  | exportStatement
  | namespaceExport
  | exportClause
  | exportSpecifier
  | identifier
  | propertyIdentifier
  | privatePropertyIdentifier
  | shorthandPropertyIdentifier
  | shorthandPropertyIdentifierPattern
  | thisExpr
  | superExpr
  | nullLit
  | trueLit
  | falseLit
  | undefinedLit
  | number
  | parenthesizedExpression
  | string
  | stringFragment
  | escapeSequence
  | templateString
  | templateSubstitution
  | regex
  | regexPattern
  | regexFlags
  | array
  | spreadElement
  | object
  | pair
  | computedPropertyName
  | memberExpression
  | optionalChain
  | subscriptExpression
  | callExpression
  | arguments
  | importExpr
  | metaProperty
  | newExpression
  | unaryExpression
  | awaitExpression
  | yieldExpression
  | updateExpression
  | binaryExpression
  | ternaryExpression
  | assignmentExpression
  | augmentedAssignmentExpression
  | sequenceExpression
  | arrowFunction
  | functionExpression
  | generatorFunction
  | functionWord
  | classExpr
  | formalParameters
  | objectPattern
  | pairPattern
  | objectAssignmentPattern
  | restPattern
  | arrayPattern
  | assignmentPattern
deriving DecidableEq, Repr, Inhabited

/-- The spelling of a grammar word. -/
def Symbol.spelling : Symbol → String
  | .program => "program"
  | .hashBangLine => "hash_bang_line"
  | .comment => "comment"
  | .expressionStatement => "expression_statement"
  | .variableDeclaration => "variable_declaration"
  | .lexicalDeclaration => "lexical_declaration"
  | .variableDeclarator => "variable_declarator"
  | .statementBlock => "statement_block"
  | .emptyStatement => "empty_statement"
  | .debuggerStatement => "debugger_statement"
  | .ifStatement => "if_statement"
  | .elseClause => "else_clause"
  | .whileStatement => "while_statement"
  | .doStatement => "do_statement"
  | .forStatement => "for_statement"
  | .forInStatement => "for_in_statement"
  | .switchStatement => "switch_statement"
  | .switchBody => "switch_body"
  | .switchCase => "switch_case"
  | .switchDefault => "switch_default"
  | .tryStatement => "try_statement"
  | .catchClause => "catch_clause"
  | .finallyClause => "finally_clause"
  | .returnStatement => "return_statement"
  | .throwStatement => "throw_statement"
  | .breakStatement => "break_statement"
  | .continueStatement => "continue_statement"
  | .labeledStatement => "labeled_statement"
  | .statementIdentifier => "statement_identifier"
  | .withStatement => "with_statement"
  | .functionDeclaration => "function_declaration"
  | .generatorFunctionDeclaration => "generator_function_declaration"
  | .classDeclaration => "class_declaration"
  | .classHeritage => "class_heritage"
  | .classBody => "class_body"
  | .methodDefinition => "method_definition"
  | .fieldDefinition => "field_definition"
  | .classStaticBlock => "class_static_block"
  | .importStatement => "import_statement"
  | .importClause => "import_clause"
  | .namespaceImport => "namespace_import"
  | .namedImports => "named_imports"
  | .importSpecifier => "import_specifier"
  | .exportStatement => "export_statement"
  | .namespaceExport => "namespace_export"
  | .exportClause => "export_clause"
  | .exportSpecifier => "export_specifier"
  | .identifier => "identifier"
  | .propertyIdentifier => "property_identifier"
  | .privatePropertyIdentifier => "private_property_identifier"
  | .shorthandPropertyIdentifier => "shorthand_property_identifier"
  | .shorthandPropertyIdentifierPattern => "shorthand_property_identifier_pattern"
  | .thisExpr => "this"
  | .superExpr => "super"
  | .nullLit => "null"
  | .trueLit => "true"
  | .falseLit => "false"
  | .undefinedLit => "undefined"
  | .number => "number"
  | .parenthesizedExpression => "parenthesized_expression"
  | .string => "string"
  | .stringFragment => "string_fragment"
  | .escapeSequence => "escape_sequence"
  | .templateString => "template_string"
  | .templateSubstitution => "template_substitution"
  | .regex => "regex"
  | .regexPattern => "regex_pattern"
  | .regexFlags => "regex_flags"
  | .array => "array"
  | .spreadElement => "spread_element"
  | .object => "object"
  | .pair => "pair"
  | .computedPropertyName => "computed_property_name"
  | .memberExpression => "member_expression"
  | .optionalChain => "optional_chain"
  | .subscriptExpression => "subscript_expression"
  | .callExpression => "call_expression"
  | .arguments => "arguments"
  | .importExpr => "import"
  | .metaProperty => "meta_property"
  | .newExpression => "new_expression"
  | .unaryExpression => "unary_expression"
  | .awaitExpression => "await_expression"
  | .yieldExpression => "yield_expression"
  | .updateExpression => "update_expression"
  | .binaryExpression => "binary_expression"
  | .ternaryExpression => "ternary_expression"
  | .assignmentExpression => "assignment_expression"
  | .augmentedAssignmentExpression => "augmented_assignment_expression"
  | .sequenceExpression => "sequence_expression"
  | .arrowFunction => "arrow_function"
  | .functionExpression => "function_expression"
  | .generatorFunction => "generator_function"
  | .functionWord => "function"
  | .classExpr => "class"
  | .formalParameters => "formal_parameters"
  | .objectPattern => "object_pattern"
  | .pairPattern => "pair_pattern"
  | .objectAssignmentPattern => "object_assignment_pattern"
  | .restPattern => "rest_pattern"
  | .arrayPattern => "array_pattern"
  | .assignmentPattern => "assignment_pattern"

/-- Every grammar word. -/
def Symbol.all : List Symbol := [
  .program, .hashBangLine, .comment, .expressionStatement,
  .variableDeclaration, .lexicalDeclaration, .variableDeclarator,
  .statementBlock, .emptyStatement, .debuggerStatement, .ifStatement,
  .elseClause, .whileStatement, .doStatement, .forStatement, .forInStatement,
  .switchStatement, .switchBody, .switchCase, .switchDefault, .tryStatement,
  .catchClause, .finallyClause, .returnStatement, .throwStatement,
  .breakStatement, .continueStatement, .labeledStatement,
  .statementIdentifier, .withStatement, .functionDeclaration,
  .generatorFunctionDeclaration, .classDeclaration, .classHeritage,
  .classBody, .methodDefinition, .fieldDefinition, .classStaticBlock,
  .importStatement, .importClause, .namespaceImport, .namedImports,
  .importSpecifier, .exportStatement, .namespaceExport, .exportClause,
  .exportSpecifier, .identifier, .propertyIdentifier,
  .privatePropertyIdentifier, .shorthandPropertyIdentifier,
  .shorthandPropertyIdentifierPattern, .thisExpr, .superExpr, .nullLit,
  .trueLit, .falseLit, .undefinedLit, .number, .parenthesizedExpression,
  .string, .stringFragment, .escapeSequence, .templateString,
  .templateSubstitution, .regex, .regexPattern, .regexFlags, .array,
  .spreadElement, .object, .pair, .computedPropertyName, .memberExpression,
  .optionalChain, .subscriptExpression, .callExpression, .arguments,
  .importExpr, .metaProperty, .newExpression, .unaryExpression,
  .awaitExpression, .yieldExpression, .updateExpression, .binaryExpression,
  .ternaryExpression, .assignmentExpression, .augmentedAssignmentExpression,
  .sequenceExpression, .arrowFunction, .functionExpression,
  .generatorFunction, .functionWord, .classExpr, .formalParameters,
  .objectPattern, .pairPattern, .objectAssignmentPattern, .restPattern,
  .arrayPattern, .assignmentPattern]

/-- The grammar word with a given spelling. -/
def Symbol.ofName? (s : String) : Option Symbol :=
  Symbol.all.find? (·.spelling == s)

theorem Symbol.mem_all (s : Symbol) : s ∈ Symbol.all := by
  cases s <;> decide

/-- The kind of a node. -/
inductive Kind where
  /-- A word of the grammar. -/
  | symbol (s : Symbol)
  /-- A token whose spelling is no grammar word. -/
  | word (text : String)
deriving DecidableEq, Repr, Inhabited

/-- How a kind is spelled. -/
def Kind.spelling : Kind → String
  | .symbol s => s.spelling
  | .word t => t

/-- The kind with a given spelling. -/
def Kind.ofName (s : String) : Kind :=
  match Symbol.ofName? s with
  | some k => .symbol k
  | none => .word s

theorem Kind.spelling_ofName (s : String) : (Kind.ofName s).spelling = s := by
  unfold Kind.ofName
  split
  · rename_i k h
    have := List.find?_some h
    simpa [Kind.spelling] using this
  · rfl

instance : Coe Symbol Kind := ⟨.symbol⟩

/-- The roles a child can have in its parent. -/
inductive Role where
  | alias
  | alternative
  | argument
  | arguments
  | body
  | condition
  | consequence
  | constructorOf
  | declaration
  | finalizer
  | flags
  | function
  | handler
  | increment
  | index
  | initializer
  | key
  | kind
  | label
  | left
  | member
  | name
  | object
  | operator
  | optionalChain
  | parameter
  | parameters
  | pattern
  | property
  | right
  | source
  | value
deriving DecidableEq, Repr, Inhabited

/-- The spelling of a role. -/
def Role.spelling : Role → String
  | .alias => "alias"
  | .alternative => "alternative"
  | .argument => "argument"
  | .arguments => "arguments"
  | .body => "body"
  | .condition => "condition"
  | .consequence => "consequence"
  | .constructorOf => "constructor"
  | .declaration => "declaration"
  | .finalizer => "finalizer"
  | .flags => "flags"
  | .function => "function"
  | .handler => "handler"
  | .increment => "increment"
  | .index => "index"
  | .initializer => "initializer"
  | .key => "key"
  | .kind => "kind"
  | .label => "label"
  | .left => "left"
  | .member => "member"
  | .name => "name"
  | .object => "object"
  | .operator => "operator"
  | .optionalChain => "optional_chain"
  | .parameter => "parameter"
  | .parameters => "parameters"
  | .pattern => "pattern"
  | .property => "property"
  | .right => "right"
  | .source => "source"
  | .value => "value"

/-- Every role. -/
def Role.all : List Role := [
  .alias, .alternative, .argument, .arguments, .body, .condition,
  .consequence, .constructorOf, .declaration, .finalizer, .flags, .function,
  .handler, .increment, .index, .initializer, .key, .kind, .label, .left,
  .member, .name, .object, .operator, .optionalChain, .parameter,
  .parameters, .pattern, .property, .right, .source, .value]

/-- The role with a given spelling. -/
def Role.ofName? (s : String) : Option Role :=
  Role.all.find? (·.spelling == s)

end Codemod
