/-
Aliases: names that stand for one value.

A name resolves to its initializer when exactly one declaration binds it
and nothing assigns to it again, wherever the use stands. A reference is
stable between two places when it means the same never-written binding
in both.
-/
import Codemod.Analysis.Scope

namespace Codemod.Cursor

/-- The initializer that a name is bound to, when that is its only
value. -/
def resolve? (c : Cursor) (name : Text) : Option Cursor :=
  if name.isEmpty || c.inWith then none
  else match c.binding? name with
    | some (scope, [d]) =>
      if !d.kind.isVariable || d.destructured then none
      else match d.init, d.declarator.bind (·.child? .name) with
        | some init, some target =>
          if !target.same d.identifier then none
          else if scope.hasDynamicScope || scope.isWritten name then none
          else some init
        | _, _ => none
    | _ => none

/-- A use of a declaration's name at `use` comes after the declaration
has taken effect. -/
def isInitializedAt (d : Declaration) (use : Cursor) : Bool :=
  if d.kind.isVariable then
    match d.declarator with
    | some declarator => declarator.is .forInStatement || declarator.precedes use
    | none => false
  else match d.kind with
    | .param => true
    | .importName => true
    | .function => true
    | .classLike => true
    | _ => false

/-- A name means one never-written binding both here and at `use`. -/
def isStableName (c use : Cursor) (name : Text) : Bool :=
  if c.inWith || use.inWith then false
  else
    let here := c.binding? name
    if !sameScope (here.map (·.1)) (use.bindingScope? name) then false
    else
      let owner := match here with
        | some (scope, _) => scope
        | none => c.root
      if owner.hasDynamicScope || owner.isWritten name then false
      else match here with
        | none => true
        | some (_, [d]) => isInitializedAt d use
        | some _ => false

/-- The expression has the same value when it is evaluated at `use`. -/
def isStableAt (c use : Cursor) : Check Bool := do
  let e := c.unparen
  if ← e.node.isLiteral then return true
  if e.is .thisExpr then return sameScope e.thisScope? use.thisScope?
  if e.is .identifier then
    if e.code.isOneOf ["undefined", "arguments"] then return false
    return e.isStableName use e.code
  return false

/-- The expression may be written more than once: it is a literal, or
stable at the place given. -/
def isDuplicable (c : Cursor) (use : Option Cursor) : Check Bool := do
  if ← c.unparen.node.isLiteral then return true
  match use with
  | some u => c.isStableAt u
  | none => return false

end Codemod.Cursor
