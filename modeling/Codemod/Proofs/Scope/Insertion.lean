/-
Names in a tree into which a statement has been put.

The statement stands in a list of statements, and a list declares
nothing and is part of no pattern. So what a node of the old tree
declares it declares in the new one, in the scope that it had
(`attributes_place`), and a declaration that is new has a part in the
statement (`cases_of_attributes`). Where the statement has no part in a
declaration of a name, the name is bound by the scope that bound it
(`bindingScope?_place`).
-/
import Codemod.Proofs.Scope.Resolution
import Codemod.Proofs.Tree.Insertion

namespace Codemod.Insertion

open Cursor

variable {e : Insertion} {c d v x s : Cursor} {n : Node} {name : Text}

-- =============================================================== scopes

@[simp] theorem isFunction_place : (e.place c).isFunction = c.isFunction :=
  isAny_tree e

@[simp] theorem isScope_place : (e.place c).isScope = c.isScope := by
  unfold isScope
  rw [parent?_place]
  cases c.parent? <;> simp only [isFunction_place, is_place, isAny_place,
    Option.map_none, Option.map_some]

theorem find?_ancestors_place {p : Cursor → Bool}
    (hp : ∀ a, p (e.place a) = p a) :
    (e.place c).ancestors.find? p = (c.ancestors.find? p).map e.place := by
  rw [ancestors_place, List.find?_map]
  exact congrArg (fun q => (c.ancestors.find? q).map e.place) (funext hp)

theorem functionScope?_place :
    (e.place c).functionScope? = c.functionScope?.map e.place :=
  find?_ancestors_place fun a => by simp

theorem enclosingScope?_place :
    (e.place c).enclosingScope? = c.enclosingScope?.map e.place :=
  find?_ancestors_place fun _ => isScope_place

theorem scopeChain_place : (e.place c).scopeChain = c.scopeChain.map e.place := by
  rw [scopeChain, ancestors_place, ← List.map_cons, List.filter_map]
  exact congrArg (fun p => ((c :: c.ancestors).filter p).map e.place)
    (funext fun _ => isScope_place)

-- ================================================================ names

theorem child?_place {r : Role} (h : c.node.id ≠ some e.list) :
    (e.place c).child? r = (c.child? r).map e.place := by
  rw [child?, children_place e h, List.find?_map]
  exact congrArg (fun p => (c.children.find? p).map e.place)
    (funext fun d => by simp)

theorem operands_place (h : c.node.id ≠ some e.list) :
    (e.place c).operands = c.operands.map e.place := by
  rw [operands, children_place e h, List.filter_map]
  exact congrArg (fun p => (c.children.filter p).map e.place)
    (funext fun d => by simp)

theorem bindsIn_tree {p m : Node} : bindsIn (e.tree p) (e.tree m) = bindsIn p m := by
  simp [bindsIn]

theorem opensPattern_tree (h : e.Fits n) :
    opensPattern (e.tree n) = opensPattern n := by
  by_cases hk : n.is .parenthesizedExpression = true
  · have hid := h.id_ne (Node.is_iff.1 hk) (by decide)
    have hlen : (e.tree n).operands.length = n.operands.length := by
      rw [Node.operands, children_tree, beq_eq_false_iff_ne.2 hid,
        if_neg Bool.false_ne_true, List.filter_map, List.length_map]
      exact congrArg (fun p => (n.children.filter p).length)
        (funext fun m => by simp)
    simp [opensPattern, Node.isPattern, hlen]
  · simp [opensPattern, Node.isPattern, hk]

/-- What opens a pattern is no list of statements. -/
theorem id_ne_of_opensPattern (h : e.Fits n) (ho : opensPattern n = true) :
    n.id ≠ some e.list := by
  rw [opensPattern, Bool.or_eq_true, Bool.and_eq_true] at ho
  rcases ho with hp | ⟨hk, -⟩
  · obtain ⟨s, hs, hk⟩ := Node.isAny_iff.1 hp
    have hno : ∀ s ∈ patternSymbols, s ∉ listSymbols := by decide
    exact h.id_ne hk (hno s hs)
  · exact h.id_ne (Node.is_iff.1 hk) (by decide)

theorem boundIdentifiers_place (h : e.Fits c.node) :
    (e.place c).boundIdentifiers = c.boundIdentifiers.map e.place := by
  induction c using Cursor.ind with
  | h c ih =>
      rw [boundIdentifiers_eq, boundIdentifiers_eq, isAny_place, node_place,
        opensPattern_tree h]
      split
      · rfl
      · split
        · next ho =>
            rw [children_place e (id_ne_of_opensPattern h ho), List.flatMap_map,
              List.map_flatMap]
            refine List.flatMap_congr fun d hd => ?_
            rw [node_place, bindsIn_tree]
            split
            · exact ih d hd (h.of_mem_children hd)
            · rfl
        · rfl

theorem boundIdentifiers_child_place {r : Role} (h : e.Fits c.node)
    (hid : c.node.id ≠ some e.list) :
    (match (e.place c).child? r with
      | none => []
      | some t => t.boundIdentifiers)
      = (match c.child? r with
        | none => []
        | some t => t.boundIdentifiers).map e.place := by
  rw [child?_place hid]
  cases ht : c.child? r with
  | none => rfl
  | some t => exact boundIdentifiers_place (h.of_mem_children (mem_children_of_child? ht))

theorem declaratorNames_place (h : e.Fits c.node) (hid : c.node.id ≠ some e.list) :
    (e.place c).declaratorNames = c.declaratorNames.map e.place := by
  rw [declaratorNames, declaratorNames, children_place e hid, List.filter_map,
    List.flatMap_map, List.map_flatMap]
  have hp : ((·.is .variableDeclarator) ∘ e.place)
      = fun d : Cursor => d.is .variableDeclarator := funext fun d => by simp
  rw [hp]
  refine List.flatMap_congr fun d hd => ?_
  obtain ⟨hmem, hk⟩ := List.mem_filter.1 hd
  have hd := h.of_mem_children hmem
  exact boundIdentifiers_child_place hd (hd.id_ne (Node.is_iff.1 hk) (by decide))

/-- The word of a declaration stays as it is. -/
theorem loopWord?_place (h : e.Fits c.node) (hk : c.is .forInStatement = true) :
    (e.place c).loopWord? = c.loopWord? := by
  rw [loopWord?, loopWord?, child?_place (h.id_ne (Node.is_iff.1 hk) (by decide))]
  cases hw : c.child? .kind with
  | none => rfl
  | some w =>
      have hmem := node_mem_of_mem_children (mem_children_of_child? hw)
      have hrole : w.node.role = some .kind := by
        simpa using List.find?_some hw
      have hmute : w.node.isMute = true :=
        h.shaped.formed.inPlace w.node hmem Node.isMute (by rw [hrole]; rfl)
      have hleaf : w.node.children = [] := by
        simp only [Node.isMute, Bool.and_eq_true, List.isEmpty_iff] at hmute
        exact hmute.1
      show some (e.tree w.node).code = some w.node.code
      rw [tree_of_leaf hleaf (h.id_ne_of_leaf hmem hleaf)]

theorem loopNames_place (h : e.Fits c.node) (hk : c.is .forInStatement = true) :
    (e.place c).loopNames = c.loopNames.map e.place :=
  boundIdentifiers_child_place h (h.id_ne (Node.is_iff.1 hk) (by decide))

theorem varNames_place (h : e.Fits c.node) :
    (e.place c).varNames = c.varNames.map e.place := by
  unfold varNames
  rw [is_place, is_place]
  split
  · next hk => exact declaratorNames_place h (h.id_ne (Node.is_iff.1 hk) (by decide))
  · by_cases hk : c.is .forInStatement = true
    · rw [loopWord?_place h hk]
      split
      · exact loopNames_place h hk
      · rfl
    · simp [hk]

theorem name_place (h : c.node.id ≠ some e.list) :
    ((e.place c).child? .name).toList = ((c.child? .name).toList).map e.place := by
  rw [child?_place h]
  cases c.child? .name <;> rfl

theorem letNames_place (h : e.Fits c.node) :
    (e.place c).letNames = c.letNames.map e.place := by
  unfold letNames
  rw [is_place, isAny_place]
  split
  · next hk => exact declaratorNames_place h (h.id_ne (Node.is_iff.1 hk) (by decide))
  · split
    · next hk =>
        obtain ⟨s, hs, hk⟩ := Node.isAny_iff.1 hk
        refine name_place (h.id_ne hk ?_)
        have hno : ∀ s ∈ [Symbol.functionDeclaration, .generatorFunctionDeclaration,
          .classDeclaration], s ∉ listSymbols := by decide
        exact hno s hs
    · rfl

theorem ownNames_place (h : e.Fits c.node) :
    (e.place c).ownNames = c.ownNames.map e.place := by
  unfold ownNames
  rw [isAny_place]
  split
  · next hk =>
      obtain ⟨s, hs, hk⟩ := Node.isAny_iff.1 hk
      refine name_place (h.id_ne hk ?_)
      have hno : ∀ s ∈ [Symbol.functionExpression, .functionWord, .generatorFunction],
        s ∉ listSymbols := by decide
      exact hno s hs
  · rfl

theorem parameters_place (h : e.Fits c.node) (hk : c.isFunction = true) :
    (e.place c).parameters = c.parameters.map e.place := by
  obtain ⟨s, hs, hk⟩ := Node.isAny_iff.1 hk
  have hno : ∀ s ∈ functionSymbols, s ∉ listSymbols := by decide
  have hid := h.id_ne hk (hno s hs)
  unfold parameters
  rw [child?_place hid, child?_place hid]
  cases c.child? .parameter with
  | some p => rfl
  | none =>
      cases hps : c.child? .parameters with
      | none => rfl
      | some ps =>
          have hmem := mem_children_of_child? hps
          have hrole : ps.node.role = some .parameters := by
            simpa using List.find?_some hps
          have hpk : ps.node.is .formalParameters = true :=
            h.shaped.formed.inPlace ps.node (node_mem_of_mem_children hmem)
              (·.is .formalParameters) (by rw [hrole]; rfl)
          exact operands_place
            ((h.of_mem_children hmem).id_ne (Node.is_iff.1 hpk) (by decide))

theorem parameterNames_place (h : e.Fits c.node) (hk : c.isFunction = true) :
    (e.place c).parameterNames = c.parameterNames.map e.place := by
  rw [parameterNames, parameterNames, parameters_place h hk, List.flatMap_map,
    List.map_flatMap]
  refine List.flatMap_congr fun p hp => ?_
  exact boundIdentifiers_place (h.of_mem_walk (node_mem_walk (mem_walk_of_mem_parameters hp)))

theorem handlerNames_place (h : e.Fits c.node) (hk : c.is .catchClause = true) :
    (e.place c).handlerNames = c.handlerNames.map e.place :=
  boundIdentifiers_child_place h (h.id_ne (Node.is_iff.1 hk) (by decide))

theorem loopLetNames_place (h : e.Fits c.node) (hk : c.is .forInStatement = true) :
    (e.place c).loopLetNames = c.loopLetNames.map e.place := by
  unfold loopLetNames
  rw [loopWord?_place h hk]
  split
  · rfl
  · split
    · rfl
    · exact loopNames_place h hk

/-- The names that one node of an import makes local. -/
def importedBy (c : Cursor) : List Cursor :=
  if c.isAny [.importClause, .namespaceImport] then
    c.children.filter (·.is .identifier)
  else if c.is .importSpecifier then
    match (c.child? .alias).orElse fun _ => c.child? .name with
    | some name => if name.is .identifier then [name] else []
    | none => []
  else []

theorem importedBy_place (h : e.Fits c.node) :
    importedBy (e.place c) = (importedBy c).map e.place := by
  unfold importedBy
  rw [isAny_place, is_place]
  split
  · next hk =>
      obtain ⟨s, hs, hk⟩ := Node.isAny_iff.1 hk
      have hno : ∀ s ∈ [Symbol.importClause, .namespaceImport], s ∉ listSymbols := by
        decide
      rw [children_place e (h.id_ne hk (hno s hs)), List.filter_map]
      exact congrArg (fun p => (c.children.filter p).map e.place)
        (funext fun d => by simp)
  · split
    · next hk =>
        have hid := h.id_ne (Node.is_iff.1 hk) (by decide)
        rw [child?_place hid, child?_place hid]
        have horElse : ((c.child? .alias).map e.place).orElse
            (fun _ => (c.child? .name).map e.place)
            = ((c.child? .alias).orElse fun _ => c.child? .name).map e.place := by
          cases c.child? .alias <;> rfl
        rw [horElse]
        cases (c.child? .alias).orElse fun _ => c.child? .name with
        | none => rfl
        | some m =>
            show (if (e.place m).is .identifier then _ else _)
              = (if m.is .identifier then [m] else []).map e.place
            rw [is_place]
            split <;> rfl
    · rfl

/-- The names of an import are those it had, and those that the statement
makes local if it stands inside. -/
theorem mem_importedIdentifiers_place (h : e.Fits c.node) :
    x ∈ (e.place c).importedIdentifiers ↔
      (∃ y ∈ c.importedIdentifiers, x = e.place y)
        ∨ ∃ t ∈ c.walk, t.node.id = some e.list
          ∧ x ∈ (e.slot t).importedIdentifiers := by
  have hplace {d : Cursor} (hd : d ∈ c.walk) := importedBy_place
    (h.of_mem_walk (node_mem_walk hd))
  show x ∈ (e.place c).walk.flatMap importedBy ↔
    (∃ y ∈ c.walk.flatMap importedBy, _) ∨ ∃ t ∈ c.walk, _ ∧ x ∈ (e.slot t).walk.flatMap importedBy
  simp only [List.mem_flatMap]
  constructor
  · rintro ⟨d', hd', hx⟩
    rcases (mem_walk_place h).1 hd' with ⟨d, hd, rfl⟩ | ⟨t, ht, hid, hd'⟩
    · rw [hplace hd] at hx
      obtain ⟨y, hy, rfl⟩ := List.mem_map.1 hx
      exact Or.inl ⟨y, ⟨d, hd, hy⟩, rfl⟩
    · exact Or.inr ⟨t, ht, hid, d', hd', hx⟩
  · rintro (⟨y, ⟨d, hd, hy⟩, rfl⟩ | ⟨t, ht, hid, d', hd', hx⟩)
    · refine ⟨e.place d, (mem_walk_place h).2 (Or.inl ⟨d, hd, rfl⟩), ?_⟩
      rw [hplace hd]
      exact List.mem_map_of_mem hy
    · exact ⟨d', (mem_walk_place h).2 (Or.inr ⟨t, ht, hid, hd'⟩), hx⟩

-- ======================================================== attributions

/-- What a node introduces it introduces in the new tree. -/
theorem attributes_place (h : Attributes v x s) (hv : e.Fits v.node) :
    Attributes (e.place v) (e.place x) (e.place s) := by
  cases h with
  | var hx hs =>
      refine .var ?_ (by rw [functionScope?_place, hs]; rfl)
      rw [varNames_place hv]
      exact List.mem_map_of_mem hx
  | block hx hs =>
      refine .block ?_ (by rw [enclosingScope?_place, hs]; rfl)
      rw [letNames_place hv]
      exact List.mem_map_of_mem hx
  | own hx =>
      refine .own ?_
      rw [ownNames_place hv]
      exact List.mem_map_of_mem hx
  | parameter hk hx =>
      refine .parameter (by rw [isFunction_place]; exact hk) ?_
      rw [parameterNames_place hv hk]
      exact List.mem_map_of_mem hx
  | handler hk hx =>
      refine .handler (by rw [is_place]; exact hk) ?_
      rw [handlerNames_place hv hk]
      exact List.mem_map_of_mem hx
  | loop hk hx =>
      refine .loop (by rw [is_place]; exact hk) ?_
      rw [loopLetNames_place hv hk]
      exact List.mem_map_of_mem hx
  | imported hk hx =>
      rw [← root_place]
      exact .imported (by rw [is_place]; exact hk)
        ((mem_importedIdentifiers_place hv).2 (Or.inl ⟨x, hx, rfl⟩))

/-- What an old node introduces in the new tree it had introduced before,
or it belongs to the statement. -/
theorem cases_of_attributes (h : Attributes (e.place v) x s) (hv : e.Fits v.node) :
    (∃ y r, x = e.place y ∧ s = e.place r ∧ Attributes v y r)
      ∨ ∃ t ∈ v.walk, t.node.id = some e.list ∧ x ∈ (e.slot t).walk := by
  generalize hw : e.place v = w at h
  cases h with
  | var hx hs =>
      subst hw
      rw [varNames_place hv] at hx
      rw [functionScope?_place] at hs
      obtain ⟨y, hy, rfl⟩ := List.mem_map.1 hx
      obtain ⟨r, hr, rfl⟩ := Option.map_eq_some_iff.1 hs
      exact Or.inl ⟨y, r, rfl, rfl, .var hy hr⟩
  | block hx hs =>
      subst hw
      rw [letNames_place hv] at hx
      rw [enclosingScope?_place] at hs
      obtain ⟨y, hy, rfl⟩ := List.mem_map.1 hx
      obtain ⟨r, hr, rfl⟩ := Option.map_eq_some_iff.1 hs
      exact Or.inl ⟨y, r, rfl, rfl, .block hy hr⟩
  | own hx =>
      subst hw
      rw [ownNames_place hv] at hx
      obtain ⟨y, hy, rfl⟩ := List.mem_map.1 hx
      exact Or.inl ⟨y, v, rfl, rfl, .own hy⟩
  | parameter hk hx =>
      subst hw
      rw [isFunction_place] at hk
      rw [parameterNames_place hv hk] at hx
      obtain ⟨y, hy, rfl⟩ := List.mem_map.1 hx
      exact Or.inl ⟨y, v, rfl, rfl, .parameter hk hy⟩
  | handler hk hx =>
      subst hw
      rw [is_place] at hk
      rw [handlerNames_place hv hk] at hx
      obtain ⟨y, hy, rfl⟩ := List.mem_map.1 hx
      exact Or.inl ⟨y, v, rfl, rfl, .handler hk hy⟩
  | loop hk hx =>
      subst hw
      rw [is_place] at hk
      rw [loopLetNames_place hv hk] at hx
      obtain ⟨y, hy, rfl⟩ := List.mem_map.1 hx
      exact Or.inl ⟨y, v, rfl, rfl, .loop hk hy⟩
  | imported hk hx =>
      subst hw
      rw [is_place] at hk
      rcases (mem_importedIdentifiers_place hv).1 hx with ⟨y, hy, rfl⟩ | ⟨t, ht, hid, hx⟩
      · exact Or.inl ⟨y, v.root, rfl, root_place e, .imported hk hy⟩
      · exact Or.inr ⟨t, ht, hid, mem_walk_of_mem_importedIdentifiers hx⟩

end Codemod.Insertion
