/-
The scopes of the report.

The report on what a program uses hands the scopes around a node down to
it, and tells the declared names with the scope that they belong to. These
are the scopes of the analysis (`Cursor.frames_place`). What the report
declares is declared (`Cursor.exists_declaration`), and it declares every
plain name that has an initializer or is taken to hold an element
(`Cursor.exists_declares`).
-/
import Codemod.Proofs.Rule.Balance
import Codemod.Proofs.Scope.Constancy
import Codemod.Proofs.Wrapper.Uses

namespace Codemod

open Node

-- ================================================================ frames

namespace Place

variable {p : Place} {h : Head} {r : Option Role}

/-- What a node opens is handed down to its children, on top of what has
been handed down to the node. -/
theorem frames_below (p : Place) (h : Head) (r : Option Role) :
    (p.below h r).frames = p.framesBelow h := by
  have closed : ∀ {s}, h.is s = true →
      s ∉ .program :: .statementBlock :: functionSymbols ++ blockScopeSymbols →
      p.framesBelow h = p.frames := fun hk hs => by
    rw [framesBelow, opens_of_kind hk hs, if_neg Bool.false_ne_true]
  unfold below
  split
  · next hk =>
      rw [closed hk (by decide)]
      split <;> rfl
  · split
    · next hk =>
        rw [closed hk (by decide)]
        split <;> rfl
    · split
      · next hk => rw [closed hk (by decide)]
      · split
        · next hk => rw [closed (Bool.and_eq_true_iff.1 hk).1 (by decide)]
        · rfl

/-- Only the children of a function are parts of one. -/
theorem standing_below_eq_part_iff :
    (p.below h r).standing = .part ↔ h.isFunction = true := by
  have plain : ∀ {s}, h.is s = true → s ∉ functionSymbols → h.isFunction = false :=
    fun hk hs => Head.isAny_false hk hs
  unfold below
  split
  · next hk =>
      rw [plain hk (by decide)]
      split <;> simp
  · split
    · next hk =>
        rw [plain hk (by decide)]
        split <;> simp
    · split
      · next hk =>
          rw [plain hk (by decide)]
          cases p.standing <;> simp [Standing.within]
      · split
        · next hk =>
            rw [plain (Bool.and_eq_true_iff.1 hk).1 (by decide)]
            simp
        · cases h.isFunction <;> simp

end Place

namespace Cursor

variable {c d s : Cursor} {n : Node}

/-- What the report says of a scope. -/
def frame (s : Cursor) : Frame := ⟨s.node.id, s.node.head.isWide⟩

/-- The report opens a scope where the analysis does. -/
theorem opens_place (c : Cursor) : c.place.opens c.node.head = c.isScope := by
  obtain ⟨n, above⟩ := c
  have hwide : n.head.isWide = (n.is .program || n.isFunction) := rfl
  unfold Place.opens isScope
  cases hw : n.head.isWide with
  | true =>
      rw [hwide] at hw
      exact (if_pos hw).symm
  | false =>
      rw [hwide] at hw
      have hblocks : n.is .statementBlock = true → n.isAny blockScopeSymbols = false :=
        fun hk => isAny_false_of_kind hk (by decide)
      show (false || (n.is .statementBlock && _) || n.isAny blockScopeSymbols)
        = if n.is .program || n.isFunction then true
          else if n.is .statementBlock then _ else n.isAny blockScopeSymbols
      rw [hw, if_neg Bool.false_ne_true]
      cases hk : n.is .statementBlock with
      | false => rfl
      | true =>
          rw [hblocks hk, Bool.or_false, Bool.true_and, Bool.false_or, if_pos rfl]
          cases above with
          | nil => rfl
          | cons pi up =>
              obtain ⟨p, i⟩ := pi
              have hpart : (place ⟨n, (p, i) :: up⟩).standing = .part
                  ↔ p.head.isFunction = true := Place.standing_below_eq_part_iff
              show ((place ⟨n, (p, i) :: up⟩).standing != .part) = !p.isFunction
              cases hf : p.isFunction with
              | true => rw [hpart.2 hf]; rfl
              | false =>
                  have hne : (place ⟨n, (p, i) :: up⟩).standing ≠ .part := fun h => by
                    rw [show p.isFunction = true from hpart.1 h] at hf
                    cases hf
                  simpa using hne

/-- The scopes that are handed down to a node are those of the analysis. -/
theorem frames_place (c : Cursor) :
    c.place.frames = (c.ancestors.filter isScope).map frame := by
  obtain ⟨n, above⟩ := c
  induction above generalizing n with
  | nil => rfl
  | cons pi up ih =>
      obtain ⟨p, i⟩ := pi
      have hplace : place ⟨n, (p, i) :: up⟩ = (place ⟨p, up⟩).below p.head n.role := rfl
      have hanc : ancestors ⟨n, (p, i) :: up⟩ = ⟨p, up⟩ :: ancestors ⟨p, up⟩ := rfl
      have hopens := opens_place ⟨p, up⟩
      rw [hplace, Place.frames_below, Place.framesBelow, hopens, ih, hanc, List.filter_cons]
      split <;> rfl

-- ================================================================ scopes

theorem isScope_of_isWide (h : s.node.head.isWide = true) : s.isScope = true := by
  have hs : (s.is .program || s.isFunction) = true := h
  rw [isScope, if_pos hs]

/-- Where the report puts a name the analysis does. -/
theorem scopes_wide (c : Cursor) (i : Option Nat) :
    c.place.scopes i .wide = c.functionScope?.toList.map (·.node.id) := by
  rw [Place.scopes, frames_place, List.find?_map, List.find?_filter, functionScope?]
  have hsame : (fun a : Cursor => decide (a.isScope = true ∧ (Frame.isWide ∘ frame) a = true))
      = fun a => a.is .program || a.isFunction := by
    funext a
    have hw : (Frame.isWide ∘ frame) a = (a.is .program || a.isFunction) := rfl
    rw [hw]
    cases hp : (a.is .program || a.isFunction) with
    | false => simp
    | true =>
        rw [isScope_of_isWide (show a.node.head.isWide = true from hp)]
        rfl
  rw [hsame, Option.toList_map, List.map_map]
  rfl

theorem scopes_near (c : Cursor) (i : Option Nat) :
    c.place.scopes i .near = c.enclosingScope?.toList.map (·.node.id) := by
  rw [Place.scopes, frames_place, List.head?_map, List.head?_filter, enclosingScope?,
    Option.toList_map, List.map_map]
  rfl

end Cursor

-- =============================================================== holders

/-- How a declaration of variables holds its names. -/
def Node.variableHolder (n : Node) : Holder :=
  if n.is .variableDeclaration then .wide else .near

namespace Node

variable {n : Node}

theorem introductions_of_isFunction (hk : n.isFunction = true) : n.introductions
    = (n.parameters.filter (·.is .identifier)).map (⟨·.code, .self, false⟩) := by
  obtain ⟨s, hs, hkind⟩ := isAny_iff.1 (show n.isAny functionSymbols = true from hk)
  have hvars : n.isAny [.variableDeclaration, .lexicalDeclaration] = false := by
    refine isAny_false_of_kind (is_iff.2 hkind) fun h => ?_
    simp only [List.mem_cons, List.not_mem_nil, or_false] at h
    rcases h with rfl | rfl <;> exact absurd hs (by decide)
  rw [introductions, hvars, if_neg Bool.false_ne_true, if_pos hk]

theorem introductions_of_catch (hk : n.is .catchClause = true) : n.introductions
    = ((n.child? .parameter).toList.filter (·.is .identifier)).map
      (⟨·.code, .self, false⟩) := by
  have hne : ∀ {ts : List Symbol}, .catchClause ∉ ts → n.isAny ts = false :=
    fun h => isAny_false_of_kind hk h
  have hfun : n.isFunction = false := hne (by decide)
  rw [introductions, hne (by decide), if_neg Bool.false_ne_true, hfun,
    if_neg Bool.false_ne_true, if_pos hk]

theorem introductions_of_loop (hk : n.is .forInStatement = true) :
    n.introductions = n.loopIntroduces := by
  have hne : ∀ {ts : List Symbol}, .forInStatement ∉ ts → n.isAny ts = false :=
    fun h => isAny_false_of_kind hk h
  have hfun : n.isFunction = false := hne (by decide)
  have hcatch : n.is .catchClause = false := is_false_of_kind (is_iff.1 hk) (by decide)
  rw [introductions, hne (by decide), if_neg Bool.false_ne_true, hfun,
    if_neg Bool.false_ne_true, hcatch, if_neg Bool.false_ne_true, if_pos hk]

end Node

/-- The declaration is of a plain name, with an initializer or as one that
holds an element. -/
def Declaration.IsPlain (x : Declaration) : Prop :=
  (∃ init target, x.init = some init
    ∧ x.declarator.bind (·.child? .name) = some target
    ∧ target.same x.identifier = true) ∨ Cursor.holdsElement x = true

namespace Cursor

variable {n : Node} {v d s p l init target : Cursor} {t : Text} {i : Option Nat} {b : Bool}
  {x : Declaration} {e : Introduction}

/-- The scope that a node gives a name to. -/
def holderScope? (v : Cursor) : Holder → Option Cursor
  | .wide => v.functionScope?
  | .near => v.enclosingScope?
  | .self => some v

theorem map_node_child?_eq (v : Cursor) (r : Role) :
    v.node.child? r = (v.child? r).map (·.node) :=
  (map_node_child? v r).symm

theorem map_node_parameters (v : Cursor) :
    v.parameters.map (·.node) = v.node.parameters := by
  unfold Cursor.parameters Node.parameters
  rw [map_node_child?_eq, map_node_child?_eq]
  cases v.child? .parameter with
  | some p => rfl
  | none =>
      cases v.child? .parameters with
      | some ps => exact map_node_operands ps
      | none => rfl

theorem boundIdentifiers_of_isPlainName (h : v.node.isPlainName = true) :
    v.boundIdentifiers = [v] := by
  rw [boundIdentifiers_eq]
  exact if_pos h

/-- Only plain names are bound. -/
theorem isPlainName_of_mem_boundIdentifiers (h : d ∈ v.boundIdentifiers) :
    d.node.isPlainName = true := by
  induction v using Cursor.ind with
  | h v ih =>
      rw [boundIdentifiers_eq] at h
      split at h
      · next hk =>
          rw [List.mem_singleton.1 h]
          exact hk
      · split at h
        · obtain ⟨c, hc, h⟩ := List.mem_flatMap.1 h
          split at h
          · exact ih c hc h
          · cases h
        · cases h

-- ============================================================== variables

theorem ofWord_ne {w : Text} : BindingKind.ofWord w ≠ .param
    ∧ BindingKind.ofWord w ≠ .catch := by
  unfold BindingKind.ofWord
  grind

/-- The declaration is one of a declarator. -/
structure DeclaredBy (d : Cursor) (s : Cursor) (x : Declaration) : Prop where
  isDeclarator : d.is .variableDeclarator = true
  target : ∃ target, d.child? .name = some target
    ∧ x.identifier ∈ target.boundIdentifiers
  name : x.name = x.identifier.code
  scope : x.scope = some s
  declarator : x.declarator = some d
  init : x.init = d.child? .value
  kind : x.kind ≠ .param ∧ x.kind ≠ .catch

/-- What a declarator declares holds no element. -/
theorem DeclaredBy.not_holdsElement (h : DeclaredBy d s x) : holdsElement x = false := by
  have hloop : d.is .forInStatement = false :=
    is_false_of_kind (is_iff.1 h.isDeclarator) (by decide)
  simp [holdsElement, h.kind, h.declarator, hloop]

theorem variablesScope_eq (v : Cursor) :
    (if v.is .variableDeclaration = true then v.functionScope? else v.enclosingScope?)
      = v.holderScope? v.node.variableHolder := by
  show _ = v.holderScope? (if v.is .variableDeclaration = true then _ else _)
  split <;> rfl

theorem variablesKind_ne (k : Option Cursor) {kind : BindingKind}
    (h : kind = if v.is .variableDeclaration = true then .var
      else match k with
        | some k => BindingKind.ofWord k.code
        | none => .other []) : kind ≠ .param ∧ kind ≠ .catch := by
  have hne := @ofWord_ne
  grind

/-- Variables are declared by declarators. -/
theorem declaredBy_of_mem_variablesDeclared (hx : x ∈ v.variablesDeclared) :
    ∃ s d, v.holderScope? v.node.variableHolder = some s ∧ d ∈ v.children
      ∧ DeclaredBy d s x := by
  simp only [variablesDeclared, variablesScope_eq] at hx
  cases hs : v.holderScope? v.node.variableHolder with
  | none => simp [hs] at hx
  | some s =>
      simp only [hs, Option.isNone_some, Bool.false_eq_true, if_false] at hx
      obtain ⟨d, hd, hx⟩ := List.mem_flatMap.1 hx
      obtain ⟨hd, hk⟩ := List.mem_filter.1 hd
      cases htarget : d.child? .name with
      | none => simp [htarget] at hx
      | some target =>
          rw [htarget] at hx
          obtain ⟨y, hy, rfl⟩ := List.mem_map.1 hx
          exact ⟨s, d, rfl, hd, hk, ⟨target, htarget, hy⟩, rfl, rfl, rfl, rfl,
            variablesKind_ne _ rfl⟩

theorem exists_mem_variablesDeclared_of (hs : v.holderScope? v.node.variableHolder = some s)
    (hd : d ∈ v.children) (hk : d.is .variableDeclarator = true)
    (htarget : d.child? .name = some target) (hy : p ∈ target.boundIdentifiers) :
    ∃ x ∈ v.variablesDeclared, x.identifier = p ∧ DeclaredBy d s x := by
  simp only [variablesDeclared, variablesScope_eq, hs, Option.isNone_some,
    Bool.false_eq_true, if_false]
  refine ⟨?x, List.mem_flatMap.2 ⟨d, List.mem_filter.2 ⟨hd, hk⟩, ?mem⟩, ?ident, ?declared⟩
  case mem =>
    rw [htarget]
    exact List.mem_map_of_mem hy
  case ident => rfl
  case declared =>
    exact ⟨hk, ⟨target, htarget, hy⟩, rfl, rfl, rfl, rfl, variablesKind_ne _ rfl⟩

-- ========================================== introductions are declarations

/-- A node declares the name in a scope; if the initializer wraps a name,
so does that of the declaration. -/
def Declares (v : Cursor) (e : Introduction) (s : Cursor) : Prop :=
  ∃ x ∈ v.declaredBy ++ v.declaredInHead, x.name = e.name ∧ x.scope = some s
    ∧ (e.wraps = true → holdsElement x = false
      ∧ ∃ init, x.init = some init ∧ init.node.wraps = true)

theorem declares_of_variable (hk : v.isAny [.variableDeclaration, .lexicalDeclaration] = true)
    (hd : d ∈ v.children) (hdk : d.is .variableDeclarator = true)
    (he : e ∈ declaratorIntroduces v.node.variableHolder d.node)
    (hs : v.holderScope? e.holder = some s) : v.Declares e s := by
  obtain ⟨m, hm, rfl⟩ := List.mem_map.1 he
  obtain ⟨hm, hplain⟩ := List.mem_filter.1 hm
  rw [map_node_child?_eq, Option.mem_toList] at hm
  obtain ⟨target, htarget, rfl⟩ := Option.map_eq_some_iff.1 hm
  obtain ⟨x, hx, hident, hdeclared⟩ := exists_mem_variablesDeclared_of hs hd hdk htarget
    (p := target) (by
      rw [boundIdentifiers_of_isPlainName hplain]
      exact List.mem_singleton.2 rfl)
  refine ⟨x, List.mem_append_left _ ?_, ?_, hdeclared.scope, fun hwraps => ?_⟩
  · rw [declaredBy, if_pos hk]
    exact hx
  · rw [hdeclared.name, hident]
    rfl
  · simp only [map_node_child?_eq, Option.any_map, Option.any_eq_true] at hwraps
    obtain ⟨init, hinit, hw⟩ := hwraps
    exact ⟨hdeclared.not_holdsElement, init, hdeclared.init.trans hinit, hw⟩

theorem mem_parameterDeclared_self {k : BindingKind} (h : p.is .identifier = true) :
    (⟨p.code, k, p, some v, some p, none, false⟩ : Declaration)
      ∈ parameterDeclared p v k := by
  have hplain : p.node.isPlainName = true :=
    isAny_iff.2 ⟨.identifier, by decide, is_iff.1 h⟩
  rw [parameterDeclared, boundIdentifiers_of_isPlainName hplain, h]
  exact List.mem_singleton.2 rfl

theorem declares_of_loop (hx : ∀ x ∈ v.loopDeclared, x ∈ v.declaredInHead)
    (he : e ∈ v.node.loopIntroduces) (hs : v.holderScope? e.holder = some s) :
    v.Declares e s := by
  unfold loopIntroduces at he
  simp only [map_node_child?_eq] at he
  cases hword : v.child? .kind with
  | none => simp [hword] at he
  | some k =>
      cases hleft : v.child? .left with
      | none => simp [hword, hleft] at he
      | some l =>
          simp only [hword, hleft, Option.map_some] at he
          split at he
          · next hplain =>
              obtain rfl := List.mem_singleton.1 he
              have hscope : (if BindingKind.ofWord k.code == .var then
                  v.functionScope? else some v) = some s := by
                rw [ofWord_eq_var, ← hs]
                show _ = v.holderScope?
                  (if (k.code == Text.ofString "var") = true then _ else _)
                split <;> rfl
              refine ⟨⟨l.code, BindingKind.ofWord k.code, l, some s, some v, none, true⟩,
                List.mem_append_right _ (hx _ ?_), rfl, rfl, fun hw => by cases hw⟩
              simp only [loopDeclared, hword, hleft, hscope]
              rw [boundIdentifiers_of_isPlainName hplain]
              exact List.mem_singleton.2 rfl
          · cases he

/-- What a node introduces it declares. -/
theorem declares_of_mem_introductions (he : e ∈ v.node.introductions)
    (hs : v.holderScope? e.holder = some s) : v.Declares e s := by
  unfold introductions at he
  split at he
  · next hk =>
      obtain ⟨m, hm, he⟩ := List.mem_flatMap.1 he
      obtain ⟨hm, hdk⟩ := List.mem_filter.1 hm
      rw [← map_node_children] at hm
      obtain ⟨d, hd, rfl⟩ := List.mem_map.1 hm
      exact declares_of_variable hk hd hdk he hs
  split at he
  · next hk =>
      obtain ⟨m, hm, rfl⟩ := List.mem_map.1 he
      obtain ⟨hm, hident⟩ := List.mem_filter.1 hm
      rw [← map_node_parameters] at hm
      obtain ⟨p, hp, rfl⟩ := List.mem_map.1 hm
      obtain rfl := Option.some.inj hs
      refine ⟨⟨p.code, .param, p, some v, some p, none, false⟩,
        List.mem_append_right _ ?_, rfl, rfl, fun hw => by cases hw⟩
      rw [declaredInHead, if_pos (show v.isFunction = true from hk)]
      exact List.mem_flatMap.2 ⟨p, hp, mem_parameterDeclared_self hident⟩
  next hfun =>
  have hfun : ¬ v.isFunction = true := hfun
  split at he
  · next hk =>
      obtain ⟨m, hm, rfl⟩ := List.mem_map.1 he
      obtain ⟨hm, hident⟩ := List.mem_filter.1 hm
      rw [map_node_child?_eq, Option.mem_toList] at hm
      obtain ⟨p, hp, rfl⟩ := Option.map_eq_some_iff.1 hm
      obtain rfl := Option.some.inj hs
      refine ⟨⟨p.code, .catch, p, some v, some p, none, false⟩,
        List.mem_append_right _ ?_, rfl, rfl, fun hw => by cases hw⟩
      rw [declaredInHead, if_neg hfun, if_pos (show v.is _ = true from hk), hp]
      exact mem_parameterDeclared_self hident
  next hcatch =>
  split at he
  · next hk =>
      refine declares_of_loop (fun x hx => ?_) he hs
      rw [declaredInHead, if_neg hfun, if_neg (show ¬ v.is _ = true from hcatch),
        if_pos (show v.is _ = true from hk)]
      exact hx
  · cases he

-- ========================================== declarations are introductions

/-- A node introduces the name of a declaration, and its initializer wraps a
name just when that of the declaration does. -/
def Introduces (v : Cursor) (x : Declaration) (s : Cursor) : Prop :=
  ∃ e ∈ v.node.introductions, e.name = x.name ∧ v.holderScope? e.holder = some s
    ∧ ∀ init, x.init = some init → e.wraps = init.node.wraps

theorem eq_of_same_bound (hn : n.Identified) (hl : l ∈ (top n).walk)
    (hp : p ∈ l.boundIdentifiers) (h : l.same p = true) : p = l :=
  (eq_of_same hn hl (mem_walk_trans hl (mem_walk_of_mem_boundIdentifiers hp)) h).symm

theorem introduces_of_variable (hn : n.Identified) (hv : v ∈ (top n).walk)
    (hk : v.isAny [.variableDeclaration, .lexicalDeclaration] = true)
    (hx : x ∈ v.variablesDeclared) (hs : x.scope = some s) (hplain : x.IsPlain) :
    v.Introduces x s := by
  obtain ⟨s', d, hholder, hd, hdeclared⟩ := declaredBy_of_mem_variablesDeclared hx
  obtain rfl := Option.some.inj (hs.symm.trans hdeclared.scope)
  rcases hplain with ⟨init, target, hinit, htarget, hsame⟩ | helement
  · rw [hdeclared.declarator] at htarget
    have htarget : d.child? .name = some target := htarget
    obtain ⟨target', htarget', hbound⟩ := hdeclared.target
    obtain rfl := Option.some.inj (htarget.symm.trans htarget')
    have hmem : target ∈ (top n).walk :=
      mem_walk_trans (mem_walk_of_mem_children hv hd) (mem_walk_of_child? htarget)
    have heq := eq_of_same_bound hn hmem hbound hsame
    rw [heq] at hbound
    refine ⟨⟨target.code, v.node.variableHolder, init.node.wraps⟩, ?_, ?_, hholder,
      fun init' hinit' => ?_⟩
    · have hk : v.node.isAny [.variableDeclaration, .lexicalDeclaration] = true := hk
      rw [introductions, if_pos hk, List.mem_flatMap]
      refine ⟨d.node, List.mem_filter.2 ⟨node_mem_of_mem_children hd,
        hdeclared.isDeclarator⟩, ?_⟩
      rw [declaratorIntroduces, map_node_child?_eq, map_node_child?_eq, htarget,
        ← hdeclared.init, hinit]
      simp only [Option.map_some, Option.toList_some, List.filter_singleton,
        isPlainName_of_mem_boundIdentifiers hbound]
      exact List.mem_singleton.2 rfl
    · rw [hdeclared.name, heq]
    · rw [Option.some.inj (hinit.symm.trans hinit')]
  · rw [hdeclared.not_holdsElement] at helement
    cases helement

theorem introduces_of_parameter {k : BindingKind} (hk : k = .param ∨ k = .catch)
    (hx : x ∈ parameterDeclared p v k)
    (hs : x.scope = some s) (hplain : x.IsPlain)
    (he : p.is .identifier = true → ⟨p.code, .self, false⟩ ∈ v.node.introductions) :
    v.Introduces x s := by
  obtain ⟨y, hy, rfl⟩ := List.mem_map.1 hx
  obtain rfl := Option.some.inj hs
  rcases hplain with ⟨init, target, hinit, -⟩ | helement
  · cases hinit
  · have hident : p.is .identifier = true := by
      rcases hk with rfl | rfl <;> simpa [holdsElement] using helement
    have hpn : p.node.isPlainName = true :=
      isAny_iff.2 ⟨.identifier, by decide, is_iff.1 hident⟩
    rw [boundIdentifiers_of_isPlainName hpn, List.mem_singleton] at hy
    subst hy
    exact ⟨_, he hident, rfl, rfl, fun init hinit => by cases hinit⟩

theorem introduces_of_loop (hn : n.Identified) (hv : v ∈ (top n).walk)
    (he : v.node.introductions = v.node.loopIntroduces)
    (hx : x ∈ v.loopDeclared) (hs : x.scope = some s) (hplain : x.IsPlain) :
    v.Introduces x s := by
  unfold loopDeclared at hx
  split at hx
  · next k l hword hleft =>
      obtain ⟨y, hy, rfl⟩ := List.mem_map.1 hx
      rcases hplain with ⟨init, target, hinit, -⟩ | helement
      · cases hinit
      · have hne := @ofWord_ne k.code
        have hsame : l.same y = true := by
          simp only [holdsElement, beq_eq_false_iff_ne.2 hne.1, beq_eq_false_iff_ne.2 hne.2,
            Bool.or_self, Bool.false_eq_true, if_false, hleft, Bool.and_eq_true] at helement
          exact helement.2
        have hmem := mem_walk_trans hv (mem_walk_of_child? hleft)
        obtain rfl := eq_of_same_bound hn hmem hy hsame
        have hpn := isPlainName_of_mem_boundIdentifiers hy
        refine ⟨⟨y.code, if k.code == Text.ofString "var" then .wide else .self, false⟩,
          ?_, rfl, ?_, fun init hinit => by cases hinit⟩
        · rw [he, loopIntroduces, map_node_child?_eq, map_node_child?_eq, hword, hleft]
          simp only [Option.map_some, hpn, if_true]
          exact List.mem_singleton.2 rfl
        · rw [← hs]
          simp only [ofWord_eq_var]
          show v.holderScope? (if (k.code == Text.ofString "var") = true then _ else _) = _
          split <;> rfl
  · cases hx

/-- A declaration without an initializer by a node that is no loop is plain
only if it is of a parameter. -/
theorem not_isPlain_of_kind {k : Symbol} (hd : x.declarator = some v) (hi : x.init = none)
    (hkind : x.kind ≠ .param ∧ x.kind ≠ .catch) (hv : v.is k = true)
    (hk : k ≠ .forInStatement) : ¬ x.IsPlain := by
  rintro (⟨init, target, hinit, -⟩ | helement)
  · rw [hi] at hinit
    cases hinit
  · have hloop : v.is .forInStatement = false := is_false_of_kind (is_iff.1 hv) hk
    simp [holdsElement, hkind, hd, hloop] at helement

theorem not_isPlain_of_nameDeclared {k : BindingKind} {o : Option Cursor} {ks : List Symbol}
    (hx : x ∈ v.nameDeclared k o) (hkind : k ≠ .param ∧ k ≠ .catch)
    (hv : v.isAny ks = true) (hk : .forInStatement ∉ ks) : ¬ x.IsPlain := by
  obtain ⟨s, hs, hv⟩ := isAny_iff.1 hv
  unfold nameDeclared at hx
  split at hx
  · obtain rfl := List.mem_singleton.1 hx
    exact not_isPlain_of_kind rfl rfl hkind (is_iff.2 hv) fun h => hk (h ▸ hs)
  · cases hx

/-- A node introduces the plain names that it declares. -/
theorem introduces_of_isPlain (hn : n.Identified) (hv : v ∈ (top n).walk)
    (hx : x ∈ v.declaredBy ++ v.declaredInHead) (hs : x.scope = some s)
    (hplain : x.IsPlain) : v.Introduces x s := by
  rcases List.mem_append.1 hx with hx | hx
  · unfold declaredBy at hx
    split at hx
    · next hk => exact introduces_of_variable hn hv hk hx hs hplain
    split at hx
    · next hk =>
        exact absurd hplain (not_isPlain_of_nameDeclared hx (by decide) hk (by decide))
    split at hx
    · next hk =>
        have hk : v.isAny [.classDeclaration] = true :=
          isAny_iff.2 ⟨_, List.mem_singleton.2 rfl, is_iff.1 hk⟩
        exact absurd hplain (not_isPlain_of_nameDeclared hx (by decide) hk (by decide))
    split at hx
    · next hk =>
        exact absurd hplain (not_isPlain_of_nameDeclared hx (by decide) hk (by decide))
    · cases hx
  · unfold declaredInHead at hx
    split at hx
    · next hk =>
        obtain ⟨p, hp, hx⟩ := List.mem_flatMap.1 hx
        refine introduces_of_parameter (Or.inl rfl) hx hs hplain fun hident => ?_
        rw [introductions_of_isFunction hk]
        refine List.mem_map.2 ⟨p.node, List.mem_filter.2 ⟨?_, hident⟩, rfl⟩
        rw [← map_node_parameters]
        exact List.mem_map_of_mem hp
    split at hx
    · next hk =>
        split at hx
        · next p hp =>
            refine introduces_of_parameter (Or.inr rfl) hx hs hplain fun hident => ?_
            rw [introductions_of_catch hk, map_node_child?_eq, hp]
            exact List.mem_map.2 ⟨p.node, List.mem_filter.2 ⟨by simp, hident⟩, rfl⟩
        · cases hx
    split at hx
    · next hk => exact introduces_of_loop hn hv (introductions_of_loop hk) hx hs hplain
    split at hx
    · next hk =>
        obtain ⟨y, -, rfl⟩ := List.mem_map.1 hx
        exact absurd hplain (not_isPlain_of_kind rfl rfl ⟨nofun, nofun⟩ hk (by decide))
    · cases hx

-- ============================================================== the report

/-- What a tree uses is used by one of its nodes where it stands. -/
theorem mem_uses_iff {u : Use} : u ∈ n.uses ⟨.plain, 0, []⟩
    ↔ ∃ v ∈ (top n).walk, u ∈ v.place.use v.node.head ++ v.place.declared v.node :=
  usage.mem_of_iff (a := ⟨.plain, 0, []⟩) (top n)

theorem not_mem_use_declares {p : Place} {h : Head} : Use.declares t i b ∉ p.use h := by
  unfold Place.use Place.useOutside
  grind

theorem mem_scopes_iff {k : Holder} : i ∈ v.place.scopes v.node.id k
    ↔ ∃ s, s.node.id = i ∧ v.holderScope? k = some s := by
  cases k with
  | wide => rw [scopes_wide, holderScope?]; simp [and_comm]
  | near => rw [scopes_near, holderScope?]; simp [and_comm]
  | self => simp [Place.scopes, holderScope?, eq_comm]

/-- A name is declared where a node introduces it. -/
theorem declares_mem_uses_iff : Use.declares t i b ∈ n.uses ⟨.plain, 0, []⟩
    ↔ ∃ v ∈ (top n).walk, ∃ e ∈ v.node.introductions, e.name = t ∧ e.wraps = b
      ∧ ∃ s, s.node.id = i ∧ v.holderScope? e.holder = some s := by
  rw [mem_uses_iff]
  refine exists_congr fun v => and_congr_right fun _ => ?_
  rw [List.mem_append, or_iff_right not_mem_use_declares, Place.declared,
    List.mem_flatMap]
  refine exists_congr fun e => and_congr_right fun _ => ?_
  rw [← mem_scopes_iff, List.mem_map]
  simp only [Use.declares.injEq]
  grind

/-- What the report declares is declared. -/
theorem exists_declaration (h : Use.declares t i b ∈ n.uses ⟨.plain, 0, []⟩) :
    ∃ x ∈ (top n).declarations, x.name = t ∧ (∃ s, x.scope = some s ∧ s.node.id = i)
      ∧ (b = true → holdsElement x = false
        ∧ ∃ init, x.init = some init ∧ init.node.wraps = true) := by
  obtain ⟨v, hv, e, he, rfl, rfl, s, hi, hs⟩ := declares_mem_uses_iff.1 h
  obtain ⟨x, hx, hname, hscope, hwraps⟩ := declares_of_mem_introductions he hs
  exact ⟨x, List.mem_flatMap.2 ⟨v, hv, hx⟩, hname, ⟨s, hscope, hi⟩, hwraps⟩

/-- The report declares the plain names that are declared. -/
theorem exists_declares (hn : n.Identified) (hx : x ∈ (top n).declarations)
    (hs : x.scope = some s) (hplain : x.IsPlain) :
    ∃ b, Use.declares x.name s.node.id b ∈ n.uses ⟨.plain, 0, []⟩
      ∧ ∀ init, x.init = some init → b = init.node.wraps := by
  obtain ⟨v, hv, hx⟩ := List.mem_flatMap.1 hx
  obtain ⟨e, he, hname, hholder, hwraps⟩ := introduces_of_isPlain hn hv hx hs hplain
  exact ⟨e.wraps, declares_mem_uses_iff.2 ⟨v, hv, e, he, hname, rfl, s, rfl, hholder⟩,
    hwraps⟩

end Cursor

end Codemod
