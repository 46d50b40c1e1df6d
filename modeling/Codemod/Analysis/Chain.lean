/-
Chains: the member accesses and calls that use a wrapper.

Taking a wrapper away changes the receiver of every step chained onto
it, so one step outside the allowed names keeps the whole chain.
-/
import Codemod.Analysis.Wrapper

namespace Codemod

/-- One `.name` access, and the call of it if it is called. -/
structure ChainStep where
  /-- The name accessed. -/
  name : Text
  /-- The member access. -/
  member : Cursor
  /-- The call of the member. -/
  call : Option Cursor

/-- The whole of a step. -/
def ChainStep.node (s : ChainStep) : Cursor := s.call.getD s.member

namespace Cursor

/-- The chain onto a node, from the innermost step outwards; none when a
step has no plain name. Each step moves outwards, so `fuel` is the
number of ancestors. -/
def chainWithin : Nat → Cursor → Option (List ChainStep)
  | 0, _ => some []
  | fuel + 1, c =>
    match c.parent? with
    | none => some []
    | some p =>
      if p.is .subscriptExpression && p.hasChild .object c then none
      else if p.is .callExpression && p.hasChild .function c then none
      else if !p.is .memberExpression || !p.hasChild .object c then some []
      else match p.node.propertyName? with
        | none => none
        | some name =>
          if p.node.isOptional then none
          else
            let member := p.climb
            let call := member.parent?.filter fun g =>
              g.is .callExpression && g.hasChild .function member
            match call with
            | some g =>
              if g.node.isOptional then none
              else (chainWithin fuel g.climb).map (⟨name, p, some g⟩ :: ·)
            | none => (chainWithin fuel member).map (⟨name, p, none⟩ :: ·)

/-- The chain onto a node. -/
def chain? (c : Cursor) : Option (List ChainStep) :=
  chainWithin (c.above.length + 1) c.climb

/-- Every step chained onto a call has an allowed name. -/
def isChainAllowed (c : Cursor) (allowed : List Text) : Bool :=
  c.is .callExpression
    && match c.chain? with
      | some steps => steps.all fun s => allowed.contains s.name
      | none => false

/-- The outermost node of the chain onto a node. -/
def chainAnchor (c : Cursor) : Cursor :=
  match c.chain? with
  | some steps =>
    match steps.getLast? with
    | some s => s.node
    | none => c
  | none => c

/-- The steps are allowed and leave no trace of the wrapper: a method
that takes no arguments is called bare, last, and its value unused. -/
def areStepsFoldable (allowed : List Text) : List ChainStep → Bool
  | [] => true
  | s :: rest =>
    allowed.contains s.name
      && (!s.name.isOneOf noArgumentMembers
        || match s.call with
          | some call =>
            call.arguments.isEmpty && rest.isEmpty && call.statement?.isSome
          | none => false)
      && areStepsFoldable allowed rest

/-- The wrapper may give way to the element it wraps. -/
def isChainFoldable (c : Cursor) (allowed : List Text) : Bool :=
  match c.chain? with
  | some [] => false
  | some steps => areStepsFoldable allowed steps
  | none => false

end Cursor

end Codemod
