/-
Building syntax.

A builder takes its operands as they are, without the white space that
stood before them, and puts parentheses around an operand that would
otherwise bind differently. Built nodes have no identity until they are
placed in a tree.
-/
import Codemod.Text.Escape
import Codemod.Tree.Node

namespace Codemod

-- ========================================================== parentheses

/-- The expressions that are operands anywhere without parentheses. -/
def primarySymbols : List Symbol := [
  .identifier, .thisExpr, .superExpr, .memberExpression,
  .subscriptExpression, .callExpression, .parenthesizedExpression, .string,
  .templateString, .number, .array, .nullLit, .trueLit, .falseLit,
  .undefinedLit, .regex]

/-- The expressions that bind looser than the operators around them. -/
def looseSymbols : List Symbol := [
  .assignmentExpression, .augmentedAssignmentExpression,
  .sequenceExpression, .ternaryExpression, .arrowFunction,
  .yieldExpression, .binaryExpression]

/-- The kind is one of the given grammar words. -/
def Kind.isAny (k : Kind) (ss : List Symbol) : Bool := ss.any (k == .symbol ·)

/-- An expression of kind `k` keeps its meaning in a parent only inside
parentheses. -/
def needsParentheses (k parent : Kind) (role : Option Role) : Bool :=
  if k.isAny primarySymbols then false
  else if parent.isAny [.memberExpression, .subscriptExpression]
      && role == some .object then true
  else if parent.isAny [.callExpression] && role == some .function then true
  else if parent.isAny [.newExpression] && role == some .constructorOf then true
  else if parent.isAny [.binaryExpression, .unaryExpression,
      .updateExpression, .awaitExpression] then k.isAny looseSymbols
  else if parent.isAny [.ternaryExpression] && role == some .condition then
    k.isAny looseSymbols
  else if k.isAny [.sequenceExpression] then
    !parent.isAny [.expressionStatement, .parenthesizedExpression, .forStatement]
  else parent.isAny [.expressionStatement]
    && k.isAny [.object, .functionExpression, .classExpr]

namespace Build

/-- The expression in parentheses. -/
def parenthesized (e : Node) : Node :=
  .branch .parenthesizedExpression
    [.token "(", e.placed none [], .token ")"]

/-- The expression as an operand of a parent in a role. -/
def operand (e : Node) (parent : Symbol) (role : Role) : Node :=
  if needsParentheses e.kind parent (some role) then parenthesized e else e

/-- The node in a role, right behind what precedes it. -/
def inRole (n : Node) (role : Role) : Node := n.placed (some role) []

/-- The node in a role, behind a space. -/
def spaced (n : Node) (role : Role) : Node :=
  n.placed (some role) [.scalar ' ']

/-- The token behind a space. -/
def spacedToken (text : String) : Node :=
  (Node.token text).placed none [.scalar ' ']

/-- Operands separated by commas. -/
def commaSeparated : List Node → List Node
  | [] => []
  | e :: es => e.placed none [] :: es.flatMap fun d =>
    [.token ",", d.placed none [.scalar ' ']]

-- =============================================================== leaves

/-- A name. -/
def identifier (name : Text) : Node := .leaf .identifier name

/-- The name of a property. -/
def propertyIdentifier (name : Text) : Node := .leaf .propertyIdentifier name

/-- A number as it is written. -/
def number (text : Text) : Node := .leaf .number text

/-- `true` or `false`. -/
def boolean (b : Bool) : Node :=
  if b then .leaf .trueLit "true" else .leaf .falseLit "false"

/-- A string literal for a value, between the given quotes. -/
def quoted (value : Text) (quote : String) : Node :=
  let body := if quote == "'" then value.escape.requote else value.escape
  let part := if body.isEmpty then [] else [Node.leaf .stringFragment body]
  .branch .string (.token quote :: part ++ [.token quote])

/-- A string literal for a value, in double quotes. -/
def string (value : Text) : Node := quoted value "\""

-- ========================================================== expressions

/-- `obj.prop`, the property being a node. -/
def memberNode (obj prop : Node) (isOptional : Bool) : Node :=
  let dot :=
    if isOptional then inRole (.token "?.") .optionalChain else .token "."
  .branch .memberExpression
    [inRole (operand obj .memberExpression .object) .object, dot,
      inRole prop .property]

/-- `obj.name`. -/
def member (obj : Node) (name : Text) : Node :=
  memberNode obj (propertyIdentifier name) false

/-- Arguments in parentheses. -/
def arguments (args : List Node) : Node :=
  .branch .arguments (.token "(" :: commaSeparated args ++ [.token ")"])

/-- `callee(args)`. -/
def call (callee : Node) (args : List Node) : Node :=
  .branch .callExpression
    [inRole (operand callee .callExpression .function) .function,
      inRole (arguments args) .arguments]

/-- `obj.name(args)`. -/
def methodCall (obj : Node) (name : Text) (args : List Node) : Node :=
  call (member obj name) args

/-- `new constructor(args)`. -/
def newExpression (maker : Node) (args : List Node) : Node :=
  .branch .newExpression
    [.token "new",
      spaced (operand maker .newExpression .constructorOf) .constructorOf,
      inRole (arguments args) .arguments]

/-- `left operator right` as an assignment. -/
def assignmentWith (left : Node) (operator : String) (right : Node) : Node :=
  if operator == "=" then
    .branch .assignmentExpression
      [inRole left .left, spacedToken "=", spaced right .right]
  else
    .branch .augmentedAssignmentExpression
      [inRole left .left, spaced (.token operator) .operator,
        spaced right .right]

/-- `left = right`. -/
def assignment (left right : Node) : Node := assignmentWith left "=" right

/-- `left operator right`. An operand that is itself binary or looser is
put in parentheses, and so is a unary expression before `**`. -/
def binary (left : Node) (operator : String) (right : Node) : Node :=
  let wrapLeft := needsParentheses left.kind Symbol.binaryExpression (some .left)
    || (operator == "**"
      && left.kind.isAny [.unaryExpression, .awaitExpression])
  let wrapRight := needsParentheses right.kind Symbol.binaryExpression (some .right)
  .branch .binaryExpression
    [inRole (if wrapLeft then parenthesized left else left) .left,
      spaced (.token operator) .operator,
      spaced (if wrapRight then parenthesized right else right) .right]

/-- The operators that are words. -/
def wordOperators : List String := ["typeof", "void", "delete", "await"]

/-- `operator argument`. -/
def unary (operator : String) (argument : Node) : Node :=
  let a := operand argument .unaryExpression .argument
  .branch .unaryExpression
    [inRole (.token operator) .operator,
      if wordOperators.contains operator then spaced a .argument
      else inRole a .argument]

/-- The expression, negated on demand. -/
def negatedIf (negated : Bool) (e : Node) : Node :=
  if negated then unary "!" e else e

/-- Parameters in parentheses. -/
def formalParameters (params : List Node) : Node :=
  .branch .formalParameters (.token "(" :: commaSeparated params ++ [.token ")"])

/-- `key: value` behind a space. -/
def pair (key : Text) (value : Node) : Node :=
  (Node.branch .pair
    [inRole (propertyIdentifier key) .key, .token ":",
      spaced value .value]).placed none [.scalar ' ']

/-- An object literal with plain keys. -/
def object (pairs : List (Text × Node)) : Node :=
  let body := match pairs with
    | [] => []
    | (k, v) :: ps => pair k v :: ps.flatMap fun (l, w) => [.token ",", pair l w]
  .branch .object (.token "\x7b" :: body
    ++ [if pairs.isEmpty then .token "\x7d" else spacedToken "\x7d"])

/-- The expression as a statement. -/
def expressionStatement (e : Node) : Node :=
  .branch .expressionStatement [e.placed none [], .token ";"]

/-- `...argument`. -/
def spread (argument : Node) : Node :=
  .branch .spreadElement
    [.token "...", (operand argument .spreadElement .argument).placed none []]

/-- An array literal. -/
def array (elements : List Node) : Node :=
  .branch .array (.token "[" :: commaSeparated elements ++ [.token "]"])

/-- `(params) => body`. -/
def arrow (params : List Node) (body : Node) : Node :=
  let b := if body.kind.isAny [.object, .sequenceExpression] then
      parenthesized body
    else body
  .branch .arrowFunction
    [inRole (formalParameters params) .parameters, spacedToken "=>",
      spaced b .body]

end Build

end Codemod
