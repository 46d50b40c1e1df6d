/-
What a program uses and declares.

A program is measured by a report (`usage`) of the methods that it calls,
of the identifiers that it calls, of the names of which it calls methods
and of the arguments of its calls. Parentheses make no difference to what
is called and to receivers (`Cursor.uses_unparen`), and a call uses what
its function and its arguments use (`Cursor.uses_call`).

The report also lists the plain names that are declared, each with the
scope that it belongs to and with whether its initializer wraps a name,
as in `var x = $(y)`. Names that are declared by patterns are left out:
they are never taken for elements or wrappers.
-/
import Codemod.Proofs.Tree.Report
import Codemod.Proofs.Rule.Form

namespace Codemod

-- ============================================================ declarations

/-- Where a name belongs. -/
inductive Holder where
  /-- To the nearest function or to the program. -/
  | wide
  /-- To the nearest scope. -/
  | near
  /-- To the construct that introduces it. -/
  | self

/-- A plain name that a node introduces. -/
structure Introduction where
  /-- The name. -/
  name : Text
  /-- Where it belongs. -/
  holder : Holder
  /-- Its initializer wraps a name. -/
  wraps : Bool

namespace Node

/-- The expression is a name or `this`. -/
def isReference (n : Node) : Bool := n.strip.isAny [.identifier, .thisExpr]

/-- The expression is a call of an identifier on a name or `this`. -/
def wraps (n : Node) : Bool :=
  n.strip.is .callExpression
    && (n.strip.child? .function).any (·.is .identifier)
    && (n.strip.child? .arguments).any fun a =>
      a.is .arguments && a.operands.any isReference

/-- The node can be a plain name that is declared. -/
def isPlainName (n : Node) : Bool :=
  n.isAny [.identifier, .shorthandPropertyIdentifierPattern]

/-- The parameters of a function. -/
def parameters (n : Node) : List Node :=
  match n.child? .parameter with
  | some p => [p]
  | none =>
    match n.child? .parameters with
    | some ps => ps.operands
    | none => []

/-- The name that a declarator introduces. -/
def declaratorIntroduces (holder : Holder) (d : Node) : List Introduction :=
  ((d.child? .name).toList.filter isPlainName).map fun t =>
    ⟨t.code, holder, (d.child? .value).any wraps⟩

/-- The name that a loop over keys or values introduces. -/
def loopIntroduces (n : Node) : List Introduction :=
  match n.child? .kind, n.child? .left with
  | some k, some l =>
    if l.isPlainName then
      [⟨l.code, if k.code == Text.ofString "var" then .wide else .self, false⟩]
    else []
  | _, _ => []

/-- The plain names that a node introduces. -/
def introductions (n : Node) : List Introduction :=
  if n.isAny [.variableDeclaration, .lexicalDeclaration] then
    (n.children.filter (·.is .variableDeclarator)).flatMap
      (declaratorIntroduces (if n.is .variableDeclaration then .wide else .near))
  else if n.isFunction then
    (n.parameters.filter (·.is .identifier)).map (⟨·.code, .self, false⟩)
  else if n.is .catchClause then
    ((n.child? .parameter).toList.filter (·.is .identifier)).map
      (⟨·.code, .self, false⟩)
  else if n.is .forInStatement then n.loopIntroduces
  else []

/-- The kinds of node that introduce plain names. -/
def introducingSymbols : List Symbol :=
  .variableDeclaration :: .lexicalDeclaration :: .catchClause :: .forInStatement
    :: functionSymbols

variable {n : Node} {s : Symbol}

theorem introductions_of_kind (hk : n.is s = true) (hs : s ∉ introducingSymbols) :
    n.introductions = [] := by
  have hne : ∀ t ∈ introducingSymbols, n.is t = false := fun t ht =>
    is_false_of_kind (is_iff.1 hk) (fun heq => hs (heq ▸ ht))
  have hvars : n.isAny [.variableDeclaration, .lexicalDeclaration] = false :=
    isAny_false_of_kind hk fun h => hs (by
      simp only [List.mem_cons, List.not_mem_nil, or_false] at h
      rcases h with rfl | rfl <;> simp [introducingSymbols])
  have hfun : n.isFunction = false :=
    isAny_false_of_kind hk fun h => hs (by simp [introducingSymbols, h])
  rw [introductions, hvars, hfun, hne .catchClause (by simp [introducingSymbols]),
    hne .forInStatement (by simp [introducingSymbols])]
  rfl

theorem introductions_children_nil (h : n.children = []) : n.introductions = [] := by
  have hchild : ∀ r, n.child? r = none := fun r => by rw [child?, h, List.find?_nil]
  have hparams : n.parameters = [] := by simp [parameters, hchild]
  unfold introductions
  split
  · rw [h, List.filter_nil, List.flatMap_nil]
  · split
    · rw [hparams, List.filter_nil, List.map_nil]
    · split
      · rw [hchild]
        rfl
      · split
        · simp [loopIntroduces, hchild]
        · rfl

end Node

-- ================================================================ places

/-- A scope around a node. -/
structure Frame where
  /-- The identity of the node that opens it. -/
  id : Option Nat
  /-- It is a function or the program. -/
  isWide : Bool

/-- What a node is to its surroundings, parentheses apart. -/
inductive Standing where
  | plain
  /-- A part of a function. -/
  | part
  /-- What a call calls. -/
  | callee
  /-- The object of the member access that a call calls. -/
  | receiver
  /-- The property of the member access that a call calls. -/
  | method
  /-- The list of arguments of a call. -/
  | list
  | argument
  /-- In parentheses that a call calls. -/
  | calleeWithin
  /-- In parentheses that are such an object. -/
  | receiverWithin
deriving DecidableEq

namespace Standing

/-- The same without parentheses around it. -/
def outside : Standing → Standing
  | .calleeWithin => .callee
  | .receiverWithin => .receiver
  | s => s

/-- The same in parentheses. -/
def within : Standing → Standing
  | .callee => .calleeWithin
  | .calleeWithin => .calleeWithin
  | .receiver => .receiverWithin
  | .receiverWithin => .receiverWithin
  | _ => .plain

end Standing

/-- Where a node stands. -/
structure Place where
  /-- What the node is there. -/
  standing : Standing
  /-- The number of receivers and arguments that the node is a part of. -/
  depth : Nat
  /-- The scopes around the node, the nearest first. -/
  frames : List Frame

/-- What a node is used for, or introduces. -/
inductive Use where
  /-- The name of a method that is called. -/
  | method (name : Text)
  /-- The value of a call or of a comparison that is called. -/
  | recalled
  /-- An identifier that is called. -/
  | called (name : Text) (depth : Nat)
  /-- A template in the place of arguments. -/
  | tagged
  | argument
  /-- A name of which a method is called. -/
  | receiver (frames : List Frame) (name : Text)
  /-- A plain name declared in a scope. -/
  | declares (name : Text) (scope : Option Nat) (wraps : Bool)

namespace Head

/-- The node is a function. -/
def isFunction (h : Head) : Bool := h.isAny functionSymbols

/-- The node is a function or the program. -/
def isWide (h : Head) : Bool := h.is .program || h.isFunction

end Head

namespace Place

/-- What a node is used for itself, parentheses around it apart. -/
def useOutside (p : Place) (h : Head) : List Use :=
  match p.standing.outside with
  | .method => if h.is .propertyIdentifier then [.method h.word] else []
  | .callee =>
    if h.is .callExpression || h.is .binaryExpression then [.recalled]
    else if h.is .identifier then [.called h.word p.depth]
    else []
  | .receiver => if h.is .identifier then [.receiver p.frames h.word] else []
  | .list => if h.isOperand && !h.is .arguments then [.tagged] else []
  | .argument => if h.isOperand then [.argument] else []
  | _ => []

/-- What a node is used for itself. In parentheses that is the operand. -/
def use (p : Place) (h : Head) : List Use :=
  if p.standing.outside != p.standing && !h.isOperand then [] else p.useOutside h

/-- The scope that holds what a node introduces. -/
def scopes (p : Place) (i : Option Nat) : Holder → List (Option Nat)
  | .wide => (p.frames.find? (·.isWide)).toList.map (·.id)
  | .near => p.frames.head?.toList.map (·.id)
  | .self => [i]

/-- What a node declares itself. -/
def declared (p : Place) (n : Node) : List Use :=
  n.introductions.flatMap fun e =>
    (p.scopes n.id e.holder).map fun s => .declares e.name s e.wraps

/-- A node opens a scope; a function and its body share one. -/
def opens (p : Place) (h : Head) : Bool :=
  h.isWide || (h.is .statementBlock && p.standing != .part)
    || h.isAny blockScopeSymbols

/-- The scopes around what is below a node. -/
def framesBelow (p : Place) (h : Head) : List Frame :=
  if p.opens h then ⟨h.id, h.isWide⟩ :: p.frames else p.frames

/-- Where the children of a node stand. -/
def below (p : Place) (h : Head) (r : Option Role) : Place :=
  if h.is .callExpression then
    match r with
    | some .function => ⟨.callee, p.depth, p.frames⟩
    | some .arguments => ⟨.list, p.depth, p.frames⟩
    | _ => ⟨.plain, p.depth, p.frames⟩
  else if h.is .memberExpression then
    match p.standing.outside, r with
    | .callee, some .object => ⟨.receiver, p.depth + 1, p.frames⟩
    | .callee, some .property => ⟨.method, p.depth, p.frames⟩
    | _, _ => ⟨.plain, p.depth, p.frames⟩
  else if h.is .parenthesizedExpression then
    ⟨p.standing.within, p.depth, p.frames⟩
  else if h.is .arguments && p.standing == .list then
    ⟨.argument, p.depth + 1, p.frames⟩
  else ⟨if h.isFunction then .part else .plain, p.depth, p.framesBelow h⟩

end Place

/-- The report on what is used and declared. -/
def usage : Report Place Use := ⟨fun p n => p.use n.head ++ p.declared n, Place.below⟩

/-- What a tree uses and declares, standing in a place. -/
def Node.uses (p : Place) (n : Node) : List Use := usage.of p n

namespace Node

variable {p : Place} {n : Node} {d : Nat} {fs : List Frame} {s : Symbol}

theorem uses_eq (p : Place) (n : Node) :
    n.uses p = (n.children.flatMap fun c => c.uses (p.below n.head c.role))
      ++ (p.use n.head ++ p.declared n) :=
  usage.of_eq p n

theorem declared_of_kind (hk : n.is s = true) (hs : s ∉ introducingSymbols) :
    p.declared n = [] := by
  rw [Place.declared, introductions_of_kind hk hs, List.flatMap_nil]

theorem declared_children_nil (h : n.children = []) : p.declared n = [] := by
  rw [Place.declared, introductions_children_nil h, List.flatMap_nil]

theorem uses_children_nil (h : n.children = []) : n.uses p = p.use n.head := by
  rw [uses_eq, h, declared_children_nil h, List.flatMap_nil, List.append_nil,
    List.nil_append]

@[simp] theorem uses_placed (n : Node) (r : Option Role) (l : Text) :
    (n.placed r l).uses p = n.uses p := by
  rw [uses_eq, uses_eq p n]
  rfl


/-- A plain node is used for nothing itself. -/
@[simp] theorem use_plain (d : Nat) (fs : List Frame) (h : Head) :
    (Place.mk .plain d fs).use h = [] := rfl

@[simp] theorem use_part (d : Nat) (fs : List Frame) (h : Head) :
    (Place.mk .part d fs).use h = [] := rfl

theorem use_callee (d : Nat) (fs : List Frame) (h : Head) :
    (Place.mk .callee d fs).use h
      = if h.is .callExpression || h.is .binaryExpression then [.recalled]
        else if h.is .identifier then [.called h.word d] else [] := rfl

theorem use_receiver (d : Nat) (fs : List Frame) (h : Head) :
    (Place.mk .receiver d fs).use h
      = if h.is .identifier then [.receiver fs h.word] else [] := rfl

theorem use_method (d : Nat) (fs : List Frame) (h : Head) :
    (Place.mk .method d fs).use h
      = if h.is .propertyIdentifier then [.method h.word] else [] := rfl

theorem use_list (d : Nat) (fs : List Frame) (h : Head) :
    (Place.mk .list d fs).use h
      = if h.isOperand && !h.is .arguments then [.tagged] else [] := rfl

theorem use_argument (d : Nat) (fs : List Frame) (h : Head) :
    (Place.mk .argument d fs).use h = if h.isOperand then [.argument] else [] := rfl

/-- Bare tokens and comments hold nothing. -/
theorem uses_of_not_isOperand (hf : n.Formed) (h : n.isOperand = false) :
    n.uses p = p.use n.head := by
  have hatom : n.isAtom = true := by
    rw [isAtom, h]
    rfl
  exact uses_children_nil (hf.plain hatom)

/-- A plain leaf is used for nothing. -/
theorem uses_of_isMute (h : n.isMute = true) : n.uses ⟨.plain, d, fs⟩ = [] := by
  rw [isMute, Bool.and_eq_true, List.isEmpty_iff] at h
  rw [uses_children_nil h.1, use_plain]

/-- An expression that has parts is no bare token. -/
theorem isOperand_of_mem (hf : n.Formed) {c : Node} (hc : c ∈ n.children) :
    n.isOperand = true := by
  by_contra h
  have hatom : n.isAtom = true := by
    rw [isAtom, Bool.eq_false_iff.2 h]
    rfl
  rw [hf.plain hatom] at hc
  cases hc

end Node

-- ================================================== what is below a place

/-- The kinds of node whose children stand somewhere else than the node
itself. -/
def markedSymbols : List Symbol :=
  .callExpression :: .memberExpression :: .parenthesizedExpression :: .arguments
    :: .program :: .statementBlock :: functionSymbols ++ blockScopeSymbols

namespace Place

variable {p : Place} {h : Head} {r : Option Role} {d : Nat} {fs : List Frame}
  {s : Symbol}

theorem opens_of_kind (hk : h.is s = true)
    (hs : s ∉ .program :: .statementBlock :: functionSymbols ++ blockScopeSymbols) :
    p.opens h = false := by
  simp only [List.cons_append, List.mem_cons, List.mem_append, not_or] at hs
  rw [opens, Head.isWide, Head.isFunction, Head.is_false hk hs.1,
    Head.is_false hk hs.2.1, Head.isAny_false hk hs.2.2.1,
    Head.isAny_false hk hs.2.2.2]
  rfl

/-- Below most nodes nothing stands anywhere in particular. -/
theorem below_of_kind (hk : h.is s = true) (hs : s ∉ markedSymbols) :
    p.below h r = ⟨.plain, p.depth, p.frames⟩ := by
  simp only [markedSymbols, List.cons_append, List.mem_cons, List.mem_append,
    not_or] at hs
  have hopens : p.opens h = false := opens_of_kind hk (by
    simp only [List.cons_append, List.mem_cons, List.mem_append, not_or]
    exact hs.2.2.2.2)
  have hfun : h.isFunction = false := Head.isAny_false hk hs.2.2.2.2.2.2.1
  simp [below, framesBelow, Head.is_false hk hs.1, Head.is_false hk hs.2.1,
    Head.is_false hk hs.2.2.1, Head.is_false hk hs.2.2.2.1, hopens, hfun]

/-- Below an argument things stand as they do elsewhere. -/
theorem below_argument :
    (Place.mk .argument d fs).below h r = (Place.mk .plain d fs).below h r := rfl

theorem below_method :
    (Place.mk .method d fs).below h r = (Place.mk .plain d fs).below h r := rfl

theorem below_list (hk : h.is .arguments = false) :
    (Place.mk .list d fs).below h r = (Place.mk .plain d fs).below h r := by
  unfold below
  rw [hk]
  rfl

theorem below_part (hk : h.is .statementBlock = false) :
    (Place.mk .part d fs).below h r = (Place.mk .plain d fs).below h r := by
  unfold below framesBelow opens
  rw [hk]
  rfl

/-- Apart from a call of it, a node does not depend on where it stands. -/
theorem below_receiver (hk : h.is .parenthesizedExpression = false) :
    (Place.mk .receiver d fs).below h r = (Place.mk .plain d fs).below h r := by
  unfold below
  rw [hk]
  rfl

theorem below_callee (hk : h.is .parenthesizedExpression = false)
    (hm : h.is .memberExpression = false) :
    (Place.mk .callee d fs).below h r = (Place.mk .plain d fs).below h r := by
  unfold below
  rw [hk, hm]
  rfl

/-- Below a member access that is called there are a receiver and a
method. -/
theorem below_called (hk : h.is .memberExpression = true) :
    (Place.mk .callee d fs).below h r = match r with
      | some .object => ⟨.receiver, d + 1, fs⟩
      | some .property => ⟨.method, d, fs⟩
      | _ => ⟨.plain, d, fs⟩ := by
  have hcall : h.is .callExpression = false := Head.is_false hk (by decide)
  unfold below
  rw [hcall, hk]
  cases r with
  | none => rfl
  | some r => cases r <;> rfl

theorem below_call (hk : h.is .callExpression = true) :
    p.below h r = match r with
      | some .function => ⟨.callee, p.depth, p.frames⟩
      | some .arguments => ⟨.list, p.depth, p.frames⟩
      | _ => ⟨.plain, p.depth, p.frames⟩ := by
  unfold below
  rw [if_pos hk]

theorem below_arguments (hk : h.is .arguments = true) :
    (Place.mk .list d fs).below h r = ⟨.argument, d + 1, fs⟩ := by
  have hcall : h.is .callExpression = false := Head.is_false hk (by decide)
  have hm : h.is .memberExpression = false := Head.is_false hk (by decide)
  have hp : h.is .parenthesizedExpression = false := Head.is_false hk (by decide)
  unfold below
  rw [hcall, hm, hp, hk]
  rfl

theorem below_parentheses (hk : h.is .parenthesizedExpression = true) :
    p.below h r = ⟨p.standing.within, p.depth, p.frames⟩ := by
  have hcall : h.is .callExpression = false := Head.is_false hk (by decide)
  have hm : h.is .memberExpression = false := Head.is_false hk (by decide)
  unfold below
  rw [hcall, hm, hk]
  rfl

/-- Parentheses are used for nothing where they make no difference. -/
theorem use_parentheses {s : Standing} (hs : s.outside ∈ [.plain, .callee, .receiver])
    (hk : h.is .parenthesizedExpression = true) : (Place.mk s d fs).use h = [] := by
  have hne : ∀ t ≠ Symbol.parenthesizedExpression, h.is t = false :=
    fun t ht => Head.is_false hk ht.symm
  simp only [List.mem_cons, List.not_mem_nil, or_false] at hs
  rcases hs with hs | hs | hs <;>
    simp [use, useOutside, hs, hne .callExpression (by decide),
      hne .binaryExpression (by decide), hne .identifier (by decide)]

/-- Neither are bare tokens in them. -/
theorem use_within {s : Standing} (hop : h.isOperand = false) :
    (Place.mk s.within d fs).use h = [] := by
  cases s <;> simp [use, useOutside, Standing.within, Standing.outside, hop]

end Place

-- =============================================================== places

namespace Cursor

open Node

variable {c m o : Cursor} {name : Text} {p : Place} {d : Nat} {fs : List Frame}

/-- The parts in their roles have all the uses below a node, where the
others are used for nothing. -/
theorem uses_parts {roles : List Role} (h : Fits roles c.node.children)
    (hnd : roles.Nodup) (hothers : ∀ d ∈ c.node.children,
      standsIn roles d = false → d.uses (p.below c.node.head d.role) = []) :
    c.node.uses p = ((roles.filterMap c.child?).flatMap fun d =>
        d.node.uses (p.below c.node.head d.node.role))
      ++ (p.use c.node.head ++ p.declared c.node) :=
  Report.of_parts (S := usage) h hnd hothers

theorem outside_mem {s : Standing} (hs : s ∈ [.plain, .callee, .receiver]) :
    s.outside ∈ [Standing.plain, .callee, .receiver] := by
  simp only [List.mem_cons, List.not_mem_nil, or_false] at hs
  rcases hs with rfl | rfl | rfl <;> decide

/-- An expression in parentheses is used for what they are. -/
theorem uses_within {n : Node} {s : Standing} (hs : s ∈ [.plain, .callee, .receiver])
    (hop : n.isOperand = true) :
    n.uses ⟨s.within, d, fs⟩ = n.uses ⟨s, d, fs⟩ := by
  have hhead : n.head.isOperand = true := hop
  have hbelow : ∀ h r, (Place.mk s.within d fs).below h r
      = (Place.mk s d fs).below h r := by
    intro h r
    simp only [List.mem_cons, List.not_mem_nil, or_false] at hs
    rcases hs with rfl | rfl | rfl <;> rfl
  have huse : (Place.mk s.within d fs).use n.head = (Place.mk s d fs).use n.head := by
    simp only [List.mem_cons, List.not_mem_nil, or_false] at hs
    rcases hs with rfl | rfl | rfl
    · rfl
    all_goals
      simp [Place.use, Place.useOutside, Standing.outside, Standing.within, hhead]
  rw [uses_eq, uses_eq ⟨s, d, fs⟩, huse]
  simp only [hbelow]
  rfl

theorem uses_unparenWithin {s : Standing} (hs : s ∈ [.plain, .callee, .receiver])
    (fuel : Nat) (h : c.node.Shaped) :
    (unparenWithin fuel c).node.uses ⟨s, d, fs⟩ = c.node.uses ⟨s, d, fs⟩ := by
  induction fuel generalizing c with
  | zero => rfl
  | succ fuel ih =>
      rcases unparenWithin_cases (fuel + 1) c with hu | ⟨e, fuel', hk, he, hf, hu⟩
      · rw [hu]
      · obtain rfl : fuel = fuel' := by omega
        have hops : c.node.operands = [e.node] := by
          rw [← map_node_operands, he]
          rfl
        have hmem : e.node ∈ c.node.children ∧ e.node.isOperand = true :=
          List.mem_filter.1 (show e.node ∈ c.node.operands by
            rw [hops]; exact List.mem_singleton.2 rfl)
        have hbelow : ∀ r, (Place.mk s d fs).below c.node.head r = ⟨s.within, d, fs⟩ :=
          fun r => Place.below_parentheses (h := c.node.head) hk
        -- tokens in parentheses are used for nothing
        have htokens : ∀ a ∈ c.node.children, a.isOperand = false →
            a.uses ⟨s.within, d, fs⟩ = [] := by
          intro a ha hop
          rw [uses_of_not_isOperand (h.of_mem_children ha).formed hop]
          exact Place.use_within (h := a.head) hop
        rw [hu, ih (h.of_mem_children hmem.1), uses_eq ⟨s, d, fs⟩ c.node,
          Place.use_parentheses (h := c.node.head) (outside_mem hs) hk,
          declared_of_kind hk (by decide)]
        simp only [hbelow]
        rw [← Report.flatMap_filter_of_nil htokens]
        show _ = c.node.operands.flatMap _ ++ _
        rw [hops, List.flatMap_singleton, uses_within hs hmem.2, List.append_nil,
          List.append_nil]

/-- Parentheses make no difference to what is called and to receivers. -/
theorem uses_unparen {s : Standing} (hs : s ∈ [.plain, .callee, .receiver])
    (h : c.node.Shaped) :
    c.unparen.node.uses ⟨s, d, fs⟩ = c.node.uses ⟨s, d, fs⟩ :=
  uses_unparenWithin hs _ h

/-- What is used where a template stands for the arguments. -/
def templateUses (c : Cursor) (d : Nat) (fs : List Frame) : List Use :=
  (c.taggedTemplate?).toList.flatMap (·.node.uses ⟨.list, d, fs⟩)

/-- The list of arguments uses the arguments. -/
theorem uses_arguments_child (h : c.node.Shaped) (d : Nat) (fs : List Frame) :
    (c.child? .arguments).toList.flatMap (·.node.uses ⟨.list, d, fs⟩)
      = c.arguments.flatMap (·.node.uses ⟨.argument, d + 1, fs⟩)
        ++ c.templateUses d fs := by
  unfold arguments templateUses taggedTemplate?
  cases ha : c.child? .arguments with
  | none => rfl
  | some a =>
      cases hak : a.is .arguments with
      | false => simp [hak]
      | true =>
          have hshape := shaped_of_child? h ha
          have hbelow : ∀ r, (Place.mk .list d fs).below a.node.head r
              = ⟨.argument, d + 1, fs⟩ := fun r =>
            Place.below_arguments (h := a.node.head) hak
          have huse : (Place.mk .list d fs).use a.node.head = [] := by
            have hlist : a.node.is .arguments = true := hak
            simp [use_list, hlist]
          simp only [Option.toList_some, List.flatMap_singleton, hak, if_true,
            Option.toList_none, List.flatMap_nil, List.append_nil]
          have htokens : ∀ e ∈ a.node.children, e.isOperand = false →
              e.uses ⟨.argument, d + 1, fs⟩ = [] := fun e he hop => by
            rw [uses_of_not_isOperand (hshape.of_mem_children he).formed hop]
            simp [use_argument, hop]
          rw [uses_eq, huse, declared_of_kind hak (by decide), List.append_nil,
            List.append_nil]
          simp only [hbelow]
          rw [← Report.flatMap_filter_of_nil htokens]
          show (a.node.operands.flatMap _) = _
          rw [← map_node_operands, List.flatMap_map]

/-- A call uses its function and its arguments. -/
theorem uses_call (h : c.node.Shaped) (hk : c.is .callExpression = true)
    (p : Place) : c.node.uses p
      = (c.child? .function).toList.flatMap
          (·.node.uses ⟨.callee, p.depth, p.frames⟩)
        ++ (c.arguments.flatMap (·.node.uses ⟨.argument, p.depth + 1, p.frames⟩)
          ++ c.templateUses p.depth p.frames)
        ++ p.use c.node.head := by
  have hbelow : ∀ r, p.below c.node.head r = _ := fun r =>
    Place.below_call (h := c.node.head) hk
  have hfits := h.formed.parts _ _ (is_iff.1 hk) rfl
  have hothers : ∀ a ∈ c.node.children,
      standsIn [.function, .arguments] a = false →
        a.uses (p.below c.node.head a.role) = [] := by
    intro a ha hrole
    have hplain : p.below c.node.head a.role = ⟨.plain, p.depth, p.frames⟩ := by
      rw [standsIn] at hrole
      rw [hbelow]
      split
      · next hr => simp [hr] at hrole
      · next hr => simp [hr] at hrole
      · rfl
    rw [hplain]
    exact uses_of_isMute (hfits.others a ha hrole)
  have hrole : ∀ r : Role, ∀ e, c.child? r = some e → e.node.role = some r := by
    intro r e he
    simpa using List.find?_some he
  rw [← uses_arguments_child h, uses_parts hfits (by decide) hothers,
    declared_of_kind hk (by decide), List.filterMap_eq_flatMap_toList]
  simp only [List.flatMap_cons, List.flatMap_nil, List.append_nil,
    List.flatMap_append]
  congr 2
  · cases hf : c.child? .function with
    | none => rfl
    | some f =>
        simp only [Option.toList_some, List.flatMap_singleton, hrole _ f hf, hbelow]
  · cases ha : c.child? .arguments with
    | none => rfl
    | some a =>
        simp only [Option.toList_some, List.flatMap_singleton, hrole _ a ha, hbelow]

/-- Apart from the method a member access that is called uses its
object. -/
theorem filter_uses_member {q : Use → Bool} (hq : ∀ t, q (.method t) = false)
    (h : m.node.Shaped) (hk : m.is .memberExpression = true)
    (ho : m.child? .object = some o) (d : Nat) (fs : List Frame) :
    (m.node.uses ⟨.callee, d, fs⟩).filter q
      = (o.node.uses ⟨.receiver, d + 1, fs⟩).filter q := by
  have hfits := h.formed.parts _ _ (is_iff.1 hk) rfl
  have hrole : o.node.role = some .object := by simpa using List.find?_some ho
  have hbelow : ∀ r, (Place.mk .callee d fs).below m.node.head r = _ :=
    fun r => Place.below_called (h := m.node.head) hk
  have hne : ∀ t ≠ Symbol.memberExpression, m.node.head.is t = false :=
    fun t ht => Head.is_false (h := m.node.head) hk ht.symm
  have huse : (Place.mk .callee d fs).use m.node.head = [] := by
    simp [use_callee, hne .callExpression (by decide), hne .binaryExpression (by decide),
      hne .identifier (by decide)]
  have hothers : ∀ a ∈ m.node.children, standsIn [.object] a = false →
      (usage.only q).of ((Place.mk .callee d fs).below m.node.head a.role) a = [] := by
    intro a ha hstands
    have hmute := hfits.others a ha hstands
    rw [isMute, Bool.and_eq_true, List.isEmpty_iff] at hmute
    have hmethod : ((Place.mk .method d fs).use a.head).filter q = [] := by
      rw [use_method]
      split
      · simp [hq]
      · rfl
    rw [Report.of_only]
    show (a.uses _).filter q = []
    rw [uses_children_nil hmute.1, hbelow]
    rw [standsIn] at hstands
    cases hr : a.role with
    | none => simp
    | some r =>
        rw [hr] at hstands
        cases r with
        | object => simp at hstands
        | property => exact hmethod
        | _ => simp
  have hparts := Report.of_parts (S := usage.only q) hfits (by decide) hothers
  rw [Report.of_only] at hparts
  refine hparts.trans ?_
  simp only [List.filterMap_cons, ho, List.filterMap_nil, List.flatMap_singleton,
    hrole, Report.of_only]
  change (usage.of ((Place.mk .callee d fs).below m.node.head (some .object))
    o.node).filter q ++ ((Place.mk .callee d fs).use m.node.head
      ++ (Place.mk .callee d fs).declared m.node).filter q = _
  rw [huse, declared_of_kind hk (by decide), List.append_nil, List.filter_nil,
    List.append_nil, hbelow]
  rfl

end Cursor

end Codemod
