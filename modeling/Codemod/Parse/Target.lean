/-
Assignment targets.

The left side of an assignment is first read as an expression. When `=`
follows, an object or array literal turns out to be a pattern and its
parts change their kinds; no text changes (`render_asTarget`).
-/
import Codemod.Parse.Progress

namespace Codemod.Node

/-- The kind a node has inside a pattern. -/
def targetSymbol : Symbol → Symbol
  | .object => .objectPattern
  | .array => .arrayPattern
  | .assignmentExpression => .assignmentPattern
  | .spreadElement => .restPattern
  | .pair => .pairPattern
  | .shorthandPropertyIdentifier => .shorthandPropertyIdentifierPattern
  | s => s

/-- The kinds of node whose parts are targets too. -/
def holdsTargets : Symbol → Bool
  | .object => true
  | .array => true
  | .spreadElement => true
  | .pair => true
  | _ => false

mutual

/-- The node read as a target. -/
def asTarget : Node → Node
  | ⟨i, .symbol s, b, r, l, t, cs, z⟩ =>
    ⟨i, .symbol (targetSymbol s), b, r, l, t,
      if holdsTargets s then asTargets cs else cs, z⟩
  | ⟨i, .word w, b, r, l, t, cs, z⟩ => ⟨i, .word w, b, r, l, t, cs, z⟩

/-- Neighbouring nodes read as targets. -/
def asTargets : List Node → List Node
  | [] => []
  | c :: cs => asTarget c :: asTargets cs

end

/-- The kinds of expression that can be assigned to as they stand. -/
def simpleTargets : List Symbol :=
  [.identifier, .undefinedLit, .memberExpression, .subscriptExpression,
    .parenthesizedExpression]

mutual

/-- The node can be read as a target, or as a part of one. -/
def isTarget : Node → Bool
  | ⟨_, .symbol s, named, _, _, _, cs, _⟩ =>
    !named || simpleTargets.contains s || s == .comment
      || s == .assignmentExpression || s == .shorthandPropertyIdentifier
      || s == .objectAssignmentPattern || s == .objectPattern
      || s == .arrayPattern || (holdsTargets s && areTargets cs)
  | ⟨_, .word _, _, _, _, _, _, _⟩ => true

/-- Neighbouring nodes can be read as parts of a target; the key of a
pair is no part. -/
def areTargets : List Node → Bool
  | [] => true
  | c :: cs => (c.role == some .key || isTarget c) && areTargets cs

end

mutual

theorem render_asTarget (n : Node) : n.asTarget.render = n.render := by
  obtain ⟨i, k, b, r, l, t, cs, z⟩ := n
  cases k with
  | word w => rfl
  | symbol s =>
    cases t with
    | some t => simp [asTarget, render, code]
    | none =>
      have h := codeAll_asTargets cs
      cases hs : holdsTargets s <;> simp [asTarget, render, code, hs, h]

theorem codeAll_asTargets (cs : List Node) :
    codeAll (asTargets cs) = codeAll cs := by
  cases cs with
  | nil => rfl
  | cons c cs =>
    have hc : c.asTarget.lead ++ c.asTarget.code = c.lead ++ c.code :=
      render_asTarget c
    rw [asTargets, codeAll_cons, codeAll_cons, codeAll_asTargets cs,
      ← List.append_assoc, hc, List.append_assoc]

end

end Codemod.Node
