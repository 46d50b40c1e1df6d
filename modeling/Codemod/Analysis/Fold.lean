/-
Folding: may a particular factory call give way to its argument?

Only where every use of the wrapper is accounted for: as the receiver of
a member access, as a statement of its own, or as the initializer of a
variable each use of which could itself be folded.
-/
import Codemod.Analysis.Chain

namespace Codemod.Cursor

/-- Every use of the variable that a declarator binds to the call could
be folded. -/
def isDeclaratorFoldable (declarator call : Cursor) (allowed : List Text) : Bool :=
  match declarator.child? .name with
  | none => false
  | some target =>
    if !target.is .identifier then false
    else
      let name := target.code
      match target.binding? name with
      | some (scope, [_]) =>
        !isSharedDollar name (some scope)
          && (match target.resolve? name with
            | some init => init.unparen.same call
            | none => false)
          && (scope.references name).all fun r =>
            r.is .identifier && r.isChainFoldable allowed
      | _ => false

/-- The factory call may be replaced by its argument, written `copies`
times. -/
def isFoldable (c : Cursor) (copies : Int) (allowed names : List Text) :
    Check Bool := do
  let call := c.unparen
  if !(← call.isFactoryCall names) then return false
  match call.arguments with
  | [a] =>
    if copies > 1 then
      if !(← a.unparen.node.isLiteral) then return false
    let holder := call.climb
    match holder.parent? with
    | none => return false
    | some p =>
      if p.is .memberExpression && p.hasChild .object holder then return true
      if p.is .variableDeclarator && p.hasChild .value holder then
        return isDeclaratorFoldable p call allowed
      return p.is .expressionStatement
  | _ => return false

end Codemod.Cursor
