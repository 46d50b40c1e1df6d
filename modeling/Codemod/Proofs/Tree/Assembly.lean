/-
Built expressions.

A builder puts its operands into fresh nodes. So a built tree lists the
identities of the operands and no others (`listed_call` and its kin), and
it is shaped when they are (`shaped_call`).
-/
import Codemod.Proofs.Tree.Shape

namespace Codemod

namespace Node

-- ======================================================== shapes of nodes

theorem formed_placed {n : Node} {r : Option Role} {l : Text} :
    (n.placed r l).Formed ↔ n.Formed := by
  constructor
  · intro h
    exact ⟨h.plain, h.worded, h.parts, h.template, h.inPlace⟩
  · intro h
    exact ⟨h.plain, h.worded, h.parts, h.template, h.inPlace⟩

@[simp] theorem shaped_placed {n : Node} {r : Option Role} {l : Text} :
    (n.placed r l).Shaped ↔ n.Shaped := by
  rw [shaped_iff, shaped_iff, formed_placed]
  rfl

@[simp] theorem isMute_placed (n : Node) (r : Option Role) (l : Text) :
    (n.placed r l).isMute = n.isMute := rfl

theorem shaped_of_children_nil {n : Node} (h : n.children = []) : n.Shaped := by
  rw [shaped_iff, h]
  refine ⟨⟨fun _ => h, fun _ => h, ?_, ?_, ?_⟩, by simp⟩
  · intro s roles _ _
    rw [h]
    exact ⟨by simp, by simp⟩
  · intro _
    rw [h]
    simp
  · rw [h]
    simp

@[simp] theorem shaped_token (t : String) : (token t).Shaped :=
  shaped_of_children_nil rfl

@[simp] theorem shaped_leaf (s : Symbol) (t : Text) : (leaf s t).Shaped :=
  shaped_of_children_nil rfl

@[simp] theorem isMute_token (t : String) : (token t).isMute = true := rfl

/-- The node is shaped and of a kind that its role admits. -/
structure Proper (n : Node) : Prop where
  shaped : n.Shaped
  inPlace : n.InPlace

/-- In most roles anything can stand. -/
theorem proper_placed {n : Node} {r : Option Role} {l : Text} (h : n.Shaped)
    (hr : roleTest? r = none) : (n.placed r l).Proper := by
  refine ⟨shaped_placed.2 h, fun ss hss => ?_⟩
  rw [show (n.placed r l).role = r from rfl, hr] at hss
  cases hss

theorem proper_of_role {n : Node} (h : n.Shaped)
    (hr : roleTest? n.role = none) : n.Proper := by
  refine ⟨h, fun ss hss => ?_⟩
  rw [hr] at hss
  cases hss

theorem proper_token (t : String) : (token t).Proper :=
  proper_of_role (shaped_token t) rfl

/-- The kinds of node that are leaves. -/
def leafSymbols : List Symbol := .comment :: atomSymbols

/-- A built node is shaped once its children are and stand where the kind
of node has them. -/
theorem shaped_branch {s : Symbol} {cs : List Node} (hs : s ∉ leafSymbols)
    (hparts : ∀ roles, partRoles? s = some roles → Fits roles cs)
    (ht : s = .templateString →
      ∀ c ∈ cs, c.is .templateSubstitution = false → c.isMute = true)
    (hcs : ∀ c ∈ cs, c.Proper) : (branch s cs).Shaped := by
  rw [shaped_iff]
  refine ⟨⟨?_, (fun h => by cases h), ?_, ?_, fun c hc => (hcs c hc).inPlace⟩,
    fun c hc => (hcs c hc).shaped⟩
  · intro h
    have hmem : s ∈ leafSymbols := by
      simpa [isAtom, isOperand, isAny, Kind.isAny, branch, is, leafSymbols] using h
    exact absurd hmem hs
  · intro t roles hk hr
    obtain rfl : s = t := by simpa [branch] using hk
    exact hparts roles hr
  · intro h
    exact ht (by simpa [branch, is] using h)

/-- A kind of node with its parts in their roles. -/
theorem shaped_branch_of_fits {s : Symbol} {cs : List Node}
    (hs : s ∉ .templateString :: leafSymbols)
    (hparts : ∀ roles, partRoles? s = some roles → Fits roles cs)
    (hcs : ∀ c ∈ cs, c.Proper) : (branch s cs).Shaped := by
  rw [List.mem_cons, not_or] at hs
  exact shaped_branch hs.2 hparts (fun h => absurd h hs.1) hcs

/-- A kind of node without fixed parts. -/
theorem shaped_branch_of_none {s : Symbol} {cs : List Node}
    (hs : s ∉ .templateString :: leafSymbols) (hparts : partRoles? s = none)
    (hcs : ∀ c ∈ cs, c.Proper) : (branch s cs).Shaped :=
  shaped_branch_of_fits hs (fun roles hr => by rw [hparts] at hr; cases hr) hcs

/-- The parts, each in its role. -/
theorem fits_of_forall {roles : List Role} {cs : List Node}
    (hord : (cs.filter (standsIn roles)).filterMap (·.role) = roles)
    (hmute : ∀ c ∈ cs, standsIn roles c = false → c.isMute = true) :
    Fits roles cs :=
  ⟨by rw [hord], hmute⟩

end Node

namespace Build

open Node

variable (p : Kind → Bool → Bool)

-- ===================================================== what a build lists

@[simp] theorem listed_parenthesized (e : Node) :
    (parenthesized e).listed p = e.listed p := by
  simp [parenthesized]

@[simp] theorem listed_operand (e : Node) (s : Symbol) (r : Role) :
    (operand e s r).listed p = e.listed p := by
  unfold operand
  split <;> simp

@[simp] theorem listed_inRole (n : Node) (r : Role) :
    (inRole n r).listed p = n.listed p := listed_placed p n _ _

@[simp] theorem listed_spaced (n : Node) (r : Role) :
    (spaced n r).listed p = n.listed p := listed_placed p n _ _

@[simp] theorem listed_spacedToken (t : String) :
    (spacedToken t).listed p = [] := by
  rw [spacedToken, listed_placed, listed_token]

@[simp] theorem listed_commaSeparated (es : List Node) :
    (commaSeparated es).flatMap (listed p) = es.flatMap (listed p) := by
  cases es with
  | nil => rfl
  | cons e es =>
      simp only [commaSeparated, List.flatMap_cons, listed_placed,
        List.flatMap_assoc, listed_token, List.nil_append, List.flatMap_nil,
        List.append_nil]

@[simp] theorem listed_identifier (t : Text) : (identifier t).listed p = [] :=
  listed_leaf p _ _

@[simp] theorem listed_propertyIdentifier (t : Text) :
    (propertyIdentifier t).listed p = [] := listed_leaf p _ _

@[simp] theorem listed_number (t : Text) : (number t).listed p = [] :=
  listed_leaf p _ _

@[simp] theorem listed_boolean (b : Bool) : (boolean b).listed p = [] := by
  cases b <;> exact listed_leaf p _ _

@[simp] theorem listed_string (t : Text) : (string t).listed p = [] := by
  rw [string, quoted, listed_branch]
  split <;> simp

@[simp] theorem listed_memberNode (obj prop : Node) (b : Bool) :
    (memberNode obj prop b).listed p = obj.listed p ++ prop.listed p := by
  cases b <;> simp [memberNode]

@[simp] theorem listed_member (obj : Node) (name : Text) :
    (member obj name).listed p = obj.listed p := by
  simp [member]

@[simp] theorem listed_arguments (args : List Node) :
    (arguments args).listed p = args.flatMap (listed p) := by
  simp [arguments]

@[simp] theorem listed_call (callee : Node) (args : List Node) :
    (call callee args).listed p = callee.listed p ++ args.flatMap (listed p) := by
  simp [call]

@[simp] theorem listed_methodCall (obj : Node) (name : Text) (args : List Node) :
    (methodCall obj name args).listed p
      = obj.listed p ++ args.flatMap (listed p) := by
  simp [methodCall]

@[simp] theorem listed_newExpression (maker : Node) (args : List Node) :
    (newExpression maker args).listed p
      = maker.listed p ++ args.flatMap (listed p) := by
  simp [newExpression]

@[simp] theorem listed_assignment (left right : Node) :
    (assignment left right).listed p = left.listed p ++ right.listed p := by
  simp [assignment, assignmentWith]

@[simp] theorem listed_binary (left right : Node) (op : String) :
    (binary left op right).listed p = left.listed p ++ right.listed p := by
  simp only [binary, listed_branch, List.flatMap_cons, List.flatMap_nil,
    listed_inRole, listed_spaced, listed_token, List.nil_append,
    List.append_nil]
  congr 1
  · split <;> simp
  · split <;> simp

@[simp] theorem listed_unary (op : String) (e : Node) :
    (unary op e).listed p = e.listed p := by
  simp only [unary, listed_branch, List.flatMap_cons, List.flatMap_nil,
    listed_inRole, listed_token, List.nil_append, List.append_nil]
  split <;> simp

@[simp] theorem listed_negatedIf (b : Bool) (e : Node) :
    (negatedIf b e).listed p = e.listed p := by
  cases b <;> simp [negatedIf]

@[simp] theorem listed_formalParameters (ps : List Node) :
    (formalParameters ps).listed p = ps.flatMap (listed p) := by
  simp [formalParameters]

@[simp] theorem listed_spread (e : Node) : (spread e).listed p = e.listed p := by
  simp [spread]

@[simp] theorem listed_array (es : List Node) :
    (array es).listed p = es.flatMap (listed p) := by
  simp [array]

@[simp] theorem listed_object_one (key : Text) (v : Node) :
    (object [(key, v)]).listed p = v.listed p := by
  simp [object, pair]

@[simp] theorem listed_arrow (ps : List Node) (body : Node) :
    (arrow ps body).listed p = ps.flatMap (listed p) ++ body.listed p := by
  simp only [arrow, listed_branch, List.flatMap_cons, List.flatMap_nil,
    listed_inRole, listed_spacedToken, listed_spaced, List.nil_append,
    List.append_nil, listed_formalParameters]
  split <;> simp

-- ======================================================= built shapes

theorem shaped_parenthesized {e : Node} (h : e.Shaped) :
    (parenthesized e).Shaped := by
  refine shaped_branch_of_none (by decide) rfl ?_
  simp only [List.forall_mem_cons]
  exact ⟨proper_token _, proper_placed h rfl, proper_token _, List.forall_mem_nil _⟩

theorem shaped_object_one {key : Text} {v : Node} (h : v.Shaped) :
    (object [(key, v)]).Shaped := by
  refine shaped_branch_of_none (by decide) rfl ?_
  intro c hc
  simp only [List.flatMap_nil, List.isEmpty_cons, List.cons_append,
    List.nil_append, List.mem_cons, List.not_mem_nil, or_false] at hc
  rcases hc with rfl | rfl | rfl
  · exact proper_token _
  · refine proper_placed (shaped_branch_of_none (s := .pair) (by decide) rfl ?_) rfl
    simp only [List.forall_mem_cons]
    exact ⟨proper_placed (shaped_leaf _ _) rfl, proper_token _,
      proper_placed h rfl, List.forall_mem_nil _⟩
  · exact proper_placed (shaped_token _) rfl

theorem shaped_operand {e : Node} {s : Symbol} {r : Role} (h : e.Shaped) :
    (operand e s r).Shaped := by
  unfold operand
  split
  · exact shaped_parenthesized h
  · exact h

theorem shaped_commaSeparated {es : List Node} (h : ∀ e ∈ es, e.Shaped) :
    ∀ c ∈ commaSeparated es, c.Proper := by
  cases es with
  | nil => simp [commaSeparated]
  | cons e es =>
      intro c hc
      rw [commaSeparated, List.mem_cons, List.mem_flatMap] at hc
      rcases hc with rfl | ⟨d, hd, hc⟩
      · exact proper_placed (h e List.mem_cons_self) rfl
      · rcases List.mem_cons.1 hc with rfl | hc
        · exact proper_token _
        · rw [List.mem_singleton.1 hc]
          exact proper_placed (h d (List.mem_cons_of_mem _ hd)) rfl

/-- Brackets around a list separated by commas. -/
theorem shaped_bracketed {s : Symbol} {l r : String} {es : List Node}
    (hs : s ∉ .templateString :: leafSymbols) (hparts : partRoles? s = none)
    (h : ∀ e ∈ es, e.Shaped) :
    (branch s (token l :: commaSeparated es ++ [token r])).Shaped := by
  refine shaped_branch_of_none hs hparts fun c hc => ?_
  rw [List.mem_append, List.mem_cons] at hc
  rcases hc with (rfl | hc) | hc
  · exact proper_token _
  · exact shaped_commaSeparated h c hc
  · rw [List.mem_singleton.1 hc]
    exact proper_token _

theorem shaped_arguments {es : List Node} (h : ∀ e ∈ es, e.Shaped) :
    (arguments es).Shaped :=
  shaped_bracketed (by decide) rfl h

theorem shaped_array {es : List Node} (h : ∀ e ∈ es, e.Shaped) :
    (array es).Shaped :=
  shaped_bracketed (by decide) rfl h

theorem shaped_formalParameters {es : List Node} (h : ∀ e ∈ es, e.Shaped) :
    (formalParameters es).Shaped :=
  shaped_bracketed (by decide) rfl h

theorem shaped_identifier (t : Text) : (identifier t).Shaped := shaped_leaf _ _

theorem shaped_string (t : Text) : (string t).Shaped := by
  have hplain : ∀ c ∈ token "\"" :: (if t.escape.isEmpty then [] else
      [leaf .stringFragment t.escape]) ++ [token "\""],
      c.isMute = true ∧ c.role = none := by
    intro c hc
    simp only [List.cons_append, List.mem_cons, List.mem_append,
      List.not_mem_nil, or_false] at hc
    rcases hc with rfl | hc | rfl
    · exact ⟨rfl, rfl⟩
    · split at hc
      · cases hc
      · rw [List.mem_singleton.1 hc]
        exact ⟨rfl, rfl⟩
    · exact ⟨rfl, rfl⟩
  refine shaped_branch_of_fits (by decide) ?_ ?_
  · intro roles hr
    obtain rfl : [] = roles := by simpa [partRoles?] using hr
    refine ⟨?_, fun c hc _ => (hplain c hc).1⟩
    rw [List.sublist_nil, List.filterMap_eq_nil_iff]
    intro c hc
    obtain ⟨r, hr, -⟩ := standsIn_iff.1 (List.mem_filter.1 hc).2
    cases hr
  · intro c hc
    obtain ⟨hmute, hrole⟩ := hplain c hc
    rw [isMute, Bool.and_eq_true, List.isEmpty_iff] at hmute
    exact proper_of_role (shaped_of_children_nil hmute.1) (by rw [hrole]; rfl)

theorem shaped_memberNode {obj prop : Node} {b : Bool} (h : obj.Shaped)
    (hp : prop.isMute = true) : (memberNode obj prop b).Shaped := by
  have hprop : prop.Shaped := by
    rw [isMute, Bool.and_eq_true, List.isEmpty_iff] at hp
    exact shaped_of_children_nil hp.1
  refine shaped_branch_of_fits (by decide) ?_ ?_
  · intro roles hr
    obtain rfl : [Role.object] = roles := by simpa [partRoles?] using hr
    refine fits_of_forall ?_ ?_
    · cases b <;> rfl
    · intro c hc hstands
      simp only [List.mem_cons, List.not_mem_nil, or_false] at hc
      rcases hc with rfl | rfl | rfl
      · cases hstands
      · cases b <;> rfl
      · exact hp
  · intro c hc
    simp only [List.mem_cons, List.not_mem_nil, or_false] at hc
    rcases hc with rfl | rfl | rfl
    · exact proper_placed (shaped_operand h) rfl
    · cases b
      · exact proper_token _
      · exact proper_placed (shaped_token _) rfl
    · exact proper_placed hprop rfl

theorem shaped_member {obj : Node} {name : Text} (h : obj.Shaped) :
    (member obj name).Shaped :=
  shaped_memberNode h rfl

theorem shaped_call {callee : Node} {args : List Node} (h : callee.Shaped)
    (hargs : ∀ a ∈ args, a.Shaped) : (call callee args).Shaped := by
  refine shaped_branch_of_fits (by decide) ?_ ?_
  · intro roles hr
    obtain rfl : [Role.function, .arguments] = roles := by
      simpa [partRoles?] using hr
    refine fits_of_forall rfl ?_
    intro c hc hstands
    simp only [List.mem_cons, List.not_mem_nil, or_false] at hc
    rcases hc with rfl | rfl <;> cases hstands
  · intro c hc
    simp only [List.mem_cons, List.not_mem_nil, or_false] at hc
    rcases hc with rfl | rfl
    · exact proper_placed (shaped_operand h) rfl
    · exact proper_placed (shaped_arguments hargs) rfl

theorem shaped_methodCall {obj : Node} {name : Text} {args : List Node}
    (h : obj.Shaped) (hargs : ∀ a ∈ args, a.Shaped) :
    (methodCall obj name args).Shaped :=
  shaped_call (shaped_member h) hargs

theorem shaped_binary {left right : Node} {op : String} (hl : left.Shaped)
    (hr : right.Shaped) : (binary left op right).Shaped := by
  have hwrap : ∀ (b : Bool) (e : Node), e.Shaped →
      (if b = true then parenthesized e else e).Shaped := by
    intro b e he
    split
    · exact shaped_parenthesized he
    · exact he
  refine shaped_branch_of_fits (by decide) ?_ ?_
  · intro roles hroles
    obtain rfl : [Role.left, .right] = roles := by
      simpa [partRoles?] using hroles
    refine fits_of_forall rfl ?_
    intro c hc hstands
    simp only [List.mem_cons, List.not_mem_nil, or_false] at hc
    rcases hc with rfl | rfl | rfl
    · cases hstands
    · rfl
    · cases hstands
  · intro c hc
    simp only [List.mem_cons, List.not_mem_nil, or_false] at hc
    rcases hc with rfl | rfl | rfl
    · exact proper_placed (hwrap _ _ hl) rfl
    · exact proper_placed (shaped_token _) rfl
    · exact proper_placed (hwrap _ _ hr) rfl

theorem shaped_unary {op : String} {e : Node} (h : e.Shaped) :
    (unary op e).Shaped := by
  refine shaped_branch_of_fits (by decide) ?_ ?_
  · intro roles hr
    obtain rfl : [Role.argument] = roles := by simpa [partRoles?] using hr
    refine fits_of_forall ?_ ?_
    · split <;> rfl
    · intro c hc hstands
      simp only [List.mem_cons, List.not_mem_nil, or_false] at hc
      rcases hc with rfl | rfl
      · rfl
      · split at hstands <;> cases hstands
  · intro c hc
    simp only [List.mem_cons, List.not_mem_nil, or_false] at hc
    rcases hc with rfl | rfl
    · exact proper_placed (shaped_token _) rfl
    · split <;> exact proper_placed (shaped_operand h) rfl

theorem shaped_negatedIf {b : Bool} {e : Node} (h : e.Shaped) :
    (negatedIf b e).Shaped := by
  cases b
  · exact h
  · exact shaped_unary h

theorem shaped_assignment {left right : Node} (hl : left.Shaped)
    (hr : right.Shaped) : (assignment left right).Shaped := by
  refine shaped_branch_of_none (by decide) rfl ?_
  simp only [List.forall_mem_cons]
  exact ⟨proper_placed hl rfl, proper_placed (shaped_token _) rfl,
    proper_placed hr rfl, List.forall_mem_nil _⟩

theorem shaped_newExpression {maker : Node} {args : List Node}
    (h : maker.Shaped) (hargs : ∀ a ∈ args, a.Shaped) :
    (newExpression maker args).Shaped := by
  refine shaped_branch_of_none (by decide) rfl ?_
  simp only [List.forall_mem_cons]
  exact ⟨proper_token _, proper_placed (shaped_operand h) rfl,
    proper_placed (shaped_arguments hargs) rfl, List.forall_mem_nil _⟩

theorem shaped_spread {e : Node} (h : e.Shaped) : (spread e).Shaped := by
  refine shaped_branch_of_none (by decide) rfl ?_
  simp only [List.forall_mem_cons]
  exact ⟨proper_token _, proper_placed (shaped_operand h) rfl, List.forall_mem_nil _⟩

theorem shaped_arrow {ps : List Node} {body : Node}
    (hps : ∀ e ∈ ps, e.Shaped) (h : body.Shaped) : (arrow ps body).Shaped := by
  refine shaped_branch_of_none (by decide) rfl ?_
  intro c hc
  simp only [List.mem_cons, List.not_mem_nil, or_false] at hc
  rcases hc with rfl | rfl | rfl
  · refine ⟨shaped_placed.2 (shaped_formalParameters hps), fun ss hss => ?_⟩
    obtain rfl := Option.some.inj hss
    rfl
  · exact proper_placed (shaped_token _) rfl
  · refine proper_placed ?_ rfl
    split
    · exact shaped_parenthesized h
    · exact h

end Build

end Codemod
