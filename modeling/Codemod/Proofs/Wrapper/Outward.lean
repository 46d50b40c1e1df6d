/-
The search for the factory.

Whether a name means the factory is asked again about an argument when the
name is a parameter of a function that is called on the spot (`Asks`). The
argument stands beside the function, so that a function which binds its
name as a parameter lies around both (`Traces.outward`). Hence the search
moves outwards, the depth of the tree bounds it (`exists_end`), and the
answer is the one that is found where it ends, whatever the bound.

Main statement: `factory_search_moves_outwards`. The search breaks off
just when it ends at a name that comes from a module whose name holds an
escape far too large.
-/
import Codemod.Proofs.Wrapper.Parameter

namespace Codemod

open Cursor

/-- The declaration takes its value from the module that a string names. -/
inductive Declaration.TakesFrom (d : Declaration) (s : Cursor) : Prop
  | imported (hk : d.kind = .importName)
      (hs : d.declarator.bind (·.child? .source) = some s) : TakesFrom d s
  | required {init f : Cursor} (hk : d.kind.isVariable = true)
      (hplain : d.destructured = false) (hinit : d.init = some init)
      (hcall : init.unparen.is .callExpression = true)
      (hf : init.unparen.child? .function = some f)
      (hrequire : f.node.isIdentifier "require" = true)
      (hs : init.unparen.arguments = [s]) : TakesFrom d s

namespace Cursor

variable {names : List Text} {n : Node} {F G a c o s params : Cursor} {name : Text}
  {d : Declaration} {ds : List Declaration} {k : Nat} {e : Fault}

/-- The name is bound once, and nothing makes the binding unsure. -/
structure BoundOnce (c : Cursor) (name : Text) (F : Cursor) (d : Declaration) : Prop where
  outside : c.inWith = false
  bound : c.binding? name = some (F, [d])
  static : F.hasDynamicScope = false
  unwritten : F.isWritten name = false

/-- The name is a parameter, and its function is called on the spot with a
name of the factory in its place. -/
structure Traces (names : List Text) (c : Cursor) (name : Text) (F : Cursor)
    (d : Declaration) (a : Cursor) : Prop extends BoundOnce c name F d where
  kind : d.kind = .param
  plain : ∃ p, d.declarator = some p ∧ p.same d.identifier = true
  argument : d.identifier.invokedArgument? = some a
  identifier : a.is .identifier = true
  named : a.code ∈ names

/-- To answer what a name means somewhere the search asks about another. -/
def Asks (names : List Text) (q r : Cursor × Text) : Prop :=
  r.2 = r.1.code ∧ ∃ F d, Traces names q.1 q.2 F d r.1

/-- The name comes from a module whose name cannot be read. -/
def BreaksOff (c : Cursor) (name : Text) : Prop :=
  ∃ F d s, BoundOnce c name F d ∧ d.TakesFrom s
    ∧ s.node.stringValue = .error .oversizedEscape

-- ============================================================== outwards

/-- A parameter is found in the list that it stands in. -/
theorem findIdx?_parameters (hn : n.Identified) (hF : F ∈ (top n).walk)
    (hf : F.isFunction = true) (hp : c ∈ F.parameters) (hparams : c.parent? = some params)
    (hk : params.is .formalParameters = true) :
    ∃ k, params.operands.findIdx? (·.same c) = some k ∧ F.parameters[k]? = some c := by
  obtain ⟨hlist, -⟩ := parameters_of_mem hf hp hparams hk
  have hmem : c ∈ params.operands := hlist ▸ hp
  have hsome : (params.operands.findIdx? (·.same c)).isSome = true := by
    rw [List.findIdx?_isSome, List.any_eq_true]
    exact ⟨c, hmem, beq_self_eq_true _⟩
  obtain ⟨k, hidx⟩ := Option.isSome_iff_exists.1 hsome
  obtain ⟨hlt, hsame, -⟩ := List.findIdx?_eq_some_iff_getElem.1 hidx
  have hwalk {x : Cursor} (hx : x ∈ params.operands) : x ∈ (top n).walk :=
    mem_walk_trans hF (mem_walk_of_mem_parameters (hlist ▸ hx))
  refine ⟨k, hidx, ?_⟩
  rw [hlist, List.getElem?_eq_getElem hlt]
  exact congrArg some (eq_of_same hn (hwalk (List.getElem_mem hlt)) (hwalk hmem) hsame)

/-- What lies around an argument is the list, the call, and what lies
around the call. -/
theorem ancestors_of_mem_arguments {call : Cursor} (ha : a ∈ call.arguments) :
    ∃ as : Cursor, as.is .arguments = true ∧ a.ancestors = as :: call :: call.ancestors := by
  unfold arguments at ha
  split at ha
  · next as has =>
      split at ha
      · next hk =>
          refine ⟨as, hk, ?_⟩
          rw [ancestors_of_mem_children (mem_children_of_mem_operands ha),
            ancestors_of_mem_children (mem_children_of_child? has)]
      · cases ha
  · cases ha

/-- What lies around a call lies around its callee. -/
theorem ancestors_subset_of_callee {call : Cursor} (h : call.inner? .function = some F) :
    call.ancestors ⊆ F.ancestors := by
  obtain ⟨g, hg, rfl⟩ := inner?_eq_some.1 h
  have hmem : g.unparen ∈ call.walk :=
    mem_walk_trans (mem_walk_of_child? hg) (unparen_mem_walk g)
  exact (ancestorsIn_suffix (above_suffix hmem)).subset

/-- A function that binds the argument as its parameter lies around the
function that receives it. -/
theorem Hands.outward {call param : Cursor} (hn : n.Identified)
    (ha : a ∈ (top n).walk) (hk : a.is .identifier = true)
    (h : call.Hands F k param a) (hb : a.binding? name = some (G, ds)) (hd : d ∈ ds)
    (hparam : d.kind = .param) : G.isFunction = true ∧ G ∈ F.ancestors := by
  obtain ⟨-, hG, -⟩ := function_of_param hn ha hb hd hparam
  refine ⟨hG, ancestors_subset_of_callee h.callee ?_⟩
  have hnot : ∀ {s : Symbol} {x : Cursor}, x.is s = true → s ∉ functionSymbols → G ≠ x := by
    rintro s x hx hs rfl
    exact Node.not_isAny_of_is hx hs hG
  obtain ⟨as, has, hancestors⟩ := ancestors_of_mem_arguments (List.mem_of_getElem? h.argument)
  have hmem := List.mem_of_mem_filter (mem_of_lookUp hb)
  rw [hancestors] at hmem
  simp only [List.mem_cons] at hmem
  rcases hmem with hself | hlist | hcall | hmem
  · exact absurd hself (hnot hk (by decide))
  · exact absurd hlist (hnot has (by decide))
  · exact absurd hcall (hnot h.kind (by decide))
  · exact hmem

/-- The search goes on at an argument of the tree, and where this is a
parameter again, its function lies around the one before. -/
theorem Traces.outward (hn : n.Identified) (hc : c ∈ (top n).walk)
    (h : Traces names c name F d a) :
    a ∈ (top n).walk ∧ (∃ call ∈ (top n).walk, ∃ k, call.Hands F k d.identifier a)
      ∧ ∀ G ds d', a.binding? a.code = some (G, ds) → d' ∈ ds → d'.kind = .param →
        G.isFunction = true ∧ G ∈ F.ancestors := by
  have hd := List.mem_singleton_self d
  obtain ⟨hF, hfun, -⟩ := function_of_param hn hc h.bound hd h.kind
  obtain ⟨call, hcall, k, hhands⟩ := hands_of_invokedArgument? hn hF hfun
    (mem_parameters_of_plain hn hc h.bound hd h.kind h.plain) h.argument
  have ha : a ∈ (top n).walk :=
    mem_walk_trans hcall (mem_walk_of_mem_arguments (List.mem_of_getElem? hhands.argument))
  exact ⟨ha, ⟨call, hcall, k, hhands⟩, fun G ds d' hb hd' hk' =>
    hhands.outward hn ha h.identifier hb hd' hk'⟩

-- ============================================================ the search

/-- A search that asks about an argument answers what it is told there. -/
theorem meansFactoryWithin_of_traces (h : Traces names c name F d a) (k : Nat) :
    meansFactoryWithin names (k + 1) c name = meansFactoryWithin names k a a.code := by
  obtain ⟨p, hp, hsame⟩ := h.plain
  have hasks : (a.is .identifier && names.contains a.code) = true := by
    rw [h.identifier, Bool.true_and, List.contains_iff_mem]
    exact h.named
  rw [meansFactoryWithin, h.bound]
  simp only [h.outside, h.static, h.unwritten, h.kind, hp, hsame, h.argument, hasks,
    Bool.or_self, Bool.false_eq_true, if_false, if_true, Bool.not_true]

theorem namesFactoryModule_eq_error :
    c.namesFactoryModule = .error e ↔ c.node.stringValue = .error e := by
  rw [namesFactoryModule]
  cases c.node.stringValue with
  | error f =>
      exact ⟨fun h => congrArg Except.error (Except.error.inj h),
        fun h => congrArg Except.error (Except.error.inj h)⟩
  | ok t => cases t <;> exact iff_of_false nofun nofun

/-- Reading a string fails in one way only. -/
theorem stringValue_eq_error {m : Node} (h : m.stringValue = .error e) :
    e = .oversizedEscape := by
  unfold Node.stringValue at h
  split at h
  · cases h
  · split at h
    · cases h
    · split at h
      · cases h
      · cases h
      · exact (Except.error.inj h).symm

/-- An initializer asks for a module, or it is known what it brings. -/
theorem bringsFactory_cases (init : Cursor) (names : List Text) :
    (∃ f s, init.unparen.is .callExpression = true
      ∧ init.unparen.child? .function = some f ∧ f.node.isIdentifier "require" = true
      ∧ init.unparen.arguments = [s])
    ∨ ∃ b, init.bringsFactory names = .ok b := by
  unfold bringsFactory
  cases hf : init.unparen.child? .function with
  | none =>
      simp only [hf, Bool.and_false, Bool.false_eq_true, if_false]
      split
      · split <;> exact Or.inr ⟨_, rfl⟩
      · exact Or.inr ⟨_, rfl⟩
  | some f =>
      simp only [hf]
      split
      · next hrequires =>
          rw [Bool.and_eq_true] at hrequires
          split
          · next s hs => exact Or.inl ⟨f, s, hrequires.1, rfl, hrequires.2, hs⟩
          · exact Or.inr ⟨_, rfl⟩
      · split
        · split <;> exact Or.inr ⟨_, rfl⟩
        · exact Or.inr ⟨_, rfl⟩

/-- What a declaration brings that is neither imported nor a parameter. -/
theorem meansFactoryWithin_of_variable (h : BoundOnce c name F d) (himport : d.kind ≠ .importName)
    (hparam : d.kind ≠ .param) (k : Nat) :
    meansFactoryWithin names (k + 1) c name
      = if d.kind.isVariable && !d.destructured then
          match d.init with
          | some init => init.bringsFactory names
          | none => .ok false
        else .ok false := by
  rw [meansFactoryWithin, h.bound]
  cases hkind : d.kind with
  | importName => exact absurd hkind himport
  | param => exact absurd hkind hparam
  | _ =>
      cases hinit : d.init <;> simp only [h.outside, h.static, h.unwritten, hkind, hinit,
        Bool.or_self, Bool.false_eq_true, if_false]

/-- A declaration that takes its value from a module is judged by the
name of the module. -/
theorem meansFactoryWithin_of_takesFrom (h : BoundOnce c name F d) (hs : d.TakesFrom s) (k : Nat) :
    meansFactoryWithin names (k + 1) c name = s.namesFactoryModule := by
  cases hs with
  | imported hk hs =>
      rw [meansFactoryWithin, h.bound]
      simp only [h.outside, h.static, h.unwritten, hk, hs, Bool.or_self, Bool.false_eq_true,
        if_false]
  | @required init f hk hplain hinit hcall hf hrequire hs =>
      have hbrings : init.bringsFactory names = s.namesFactoryModule := by
        unfold bringsFactory
        simp only [hf, hcall, hrequire, Bool.and_self, if_true, hs]
      rw [meansFactoryWithin_of_variable h (fun hi => by rw [hi] at hk; cases hk)
        (fun hp => by rw [hp] at hk; cases hk), hk, hplain, hinit]
      exact hbrings

/-- A declaration that is no parameter takes its value from a module, or
it is known what it brings. -/
theorem takesFrom_or_known (h : BoundOnce c name F d) (hk : d.kind ≠ .param) :
    (∃ s, d.TakesFrom s) ∨ ∃ b, ∀ k, meansFactoryWithin names (k + 1) c name = .ok b := by
  by_cases himport : d.kind = .importName
  · cases hs : d.declarator.bind (·.child? .source) with
    | some s => exact Or.inl ⟨s, .imported himport hs⟩
    | none =>
        refine Or.inr ⟨false, fun k => ?_⟩
        rw [meansFactoryWithin, h.bound]
        simp only [h.outside, h.static, h.unwritten, himport, hs, Bool.or_self,
          Bool.false_eq_true, if_false]
  · have hstep (k : Nat) : meansFactoryWithin names (k + 1) c name = _ :=
      meansFactoryWithin_of_variable h himport hk k
    cases hv : d.kind.isVariable && !d.destructured with
    | false => exact Or.inr ⟨false, fun k => by rw [hstep, hv, if_neg Bool.false_ne_true]⟩
    | true =>
        have hplain := Bool.and_eq_true_iff.1 hv
        rw [Bool.not_eq_true'] at hplain
        cases hinit : d.init with
        | none => exact Or.inr ⟨false, fun k => by rw [hstep, if_pos hv, hinit]⟩
        | some init =>
            rcases bringsFactory_cases init names with
              ⟨f, s, hcall, hf, hrequire, hs⟩ | ⟨b, hbrings⟩
            · exact Or.inl ⟨s, .required hplain.1 hplain.2 hinit hcall hf hrequire hs⟩
            · exact Or.inr ⟨b, fun k => by rw [hstep, if_pos hv, hinit, ← hbrings]⟩

/-- A parameter is traced to an argument, or it is not the factory. -/
theorem meansFactoryWithin_of_param_cases (h : BoundOnce c name F d) (hk : d.kind = .param) :
    (∃ a, Traces names c name F d a)
    ∨ ∀ k, meansFactoryWithin names (k + 1) c name = .ok false := by
  cases hp : d.declarator with
  | none =>
      refine Or.inr fun k => ?_
      simp only [meansFactoryWithin, h.outside, h.bound, h.static, h.unwritten, hk, hp,
        Bool.or_self, Bool.false_eq_true, Bool.not_false, if_false, if_true]
  | some p =>
      cases hsame : p.same d.identifier with
      | false =>
          refine Or.inr fun k => ?_
          simp only [meansFactoryWithin, h.outside, h.bound, h.static, h.unwritten, hk, hp,
            hsame, Bool.or_self, Bool.false_eq_true, Bool.not_false, if_false, if_true]
      | true =>
          cases harg : d.identifier.invokedArgument? with
          | none =>
              refine Or.inr fun k => ?_
              simp only [meansFactoryWithin, h.outside, h.bound, h.static, h.unwritten, hk, hp,
                hsame, harg, Bool.or_self, Bool.false_eq_true, Bool.not_true, if_false]
          | some a =>
              cases hasks : a.is .identifier && names.contains a.code with
              | true =>
                  rw [Bool.and_eq_true, List.contains_iff_mem] at hasks
                  exact Or.inl ⟨a, h, hk, ⟨p, hp, hsame⟩, harg, hasks.1, hasks.2⟩
              | false =>
                  refine Or.inr fun k => ?_
                  simp only [meansFactoryWithin, h.outside, h.bound, h.static, h.unwritten, hk,
                    hp, hsame, harg, hasks, Bool.or_self, Bool.false_eq_true, Bool.not_true,
                    if_false]

/-- A search asks about an argument, or reads the name of a module, or
knows the answer. -/
theorem meansFactoryWithin_cases (names : List Text) (c : Cursor) (name : Text) :
    (∃ F d a, Traces names c name F d a)
    ∨ (∃ F d s, BoundOnce c name F d ∧ d.TakesFrom s)
    ∨ ∃ b, ∀ k, meansFactoryWithin names (k + 1) c name = .ok b := by
  cases hwith : c.inWith with
  | true => exact Or.inr (Or.inr ⟨false, fun k => by rw [meansFactoryWithin, hwith]; rfl⟩)
  | false =>
      rcases hb : c.binding? name with _ | ⟨F, _ | ⟨d, _ | ⟨d', ds⟩⟩⟩
      · exact Or.inr (Or.inr ⟨_, fun k => by rw [meansFactoryWithin, hwith, hb]; rfl⟩)
      · exact Or.inr (Or.inr ⟨_, fun k => by rw [meansFactoryWithin, hwith, hb]; rfl⟩)
      · cases hsure : F.hasDynamicScope || F.isWritten name with
        | true =>
            refine Or.inr (Or.inr ⟨false, fun k => ?_⟩)
            rw [meansFactoryWithin, hwith, hb]
            simp only [hsure, Bool.false_eq_true, if_false, if_true]
        | false =>
            rw [Bool.or_eq_false_iff] at hsure
            have honce : BoundOnce c name F d := ⟨hwith, hb, hsure.1, hsure.2⟩
            by_cases hk : d.kind = .param
            · rcases meansFactoryWithin_of_param_cases honce hk with ⟨a, h⟩ | h
              · exact Or.inl ⟨F, d, a, h⟩
              · exact Or.inr (Or.inr ⟨false, h⟩)
            · rcases takesFrom_or_known honce hk with ⟨s, hs⟩ | h
              · exact Or.inr (Or.inl ⟨F, d, s, honce, hs⟩)
              · exact Or.inr (Or.inr h)
      · exact Or.inr (Or.inr ⟨_, fun k => by rw [meansFactoryWithin, hwith, hb]; rfl⟩)

section Settled

variable (h : ∀ F d a, ¬ Traces names c name F d a)

include h

/-- A search that asks about nothing needs no more than one step. -/
theorem meansFactoryWithin_of_settled (k : Nat) :
    meansFactoryWithin names (k + 1) c name = meansFactoryWithin names 1 c name := by
  rcases meansFactoryWithin_cases names c name with ⟨F, d, a, hf⟩ | ⟨F, d, s, honce, hs⟩ | ⟨b, hb⟩
  · exact absurd hf (h F d a)
  · rw [meansFactoryWithin_of_takesFrom honce hs, meansFactoryWithin_of_takesFrom honce hs]
  · rw [hb, hb]

/-- It breaks off at a name of a module that cannot be read, and nowhere
else. -/
theorem meansFactoryWithin_eq_error_of_settled :
    meansFactoryWithin names 1 c name = .error e ↔ e = .oversizedEscape ∧ c.BreaksOff name := by
  constructor
  · intro he
    rcases meansFactoryWithin_cases names c name with
      ⟨F, d, a, hf⟩ | ⟨F, d, s, honce, hs⟩ | ⟨b, hb⟩
    · exact absurd hf (h F d a)
    · rw [meansFactoryWithin_of_takesFrom honce hs, namesFactoryModule_eq_error] at he
      obtain rfl := stringValue_eq_error he
      exact ⟨rfl, F, d, s, honce, hs, he⟩
    · rw [hb] at he
      cases he
  · rintro ⟨rfl, F, d, s, honce, hs, he⟩
    rw [meansFactoryWithin_of_takesFrom honce hs, namesFactoryModule_eq_error]
    exact he

end Settled

/-- The search ends, for each function it leads to lies around the one
before. The answer is found where it ends, and does not depend on the bound
any more once this is greater than the number of functions that are left. -/
theorem exists_end (hn : n.Identified) (hc : c ∈ (top n).walk)
    (hdepth : ∀ F d a, Traces names c name F d a → F.above.length < k) :
    ∃ o w, o ∈ (top n).walk ∧ Relation.ReflTransGen (Asks names) (c, name) (o, w)
      ∧ (∀ F d a, ¬ Traces names o w F d a)
      ∧ ∀ j, k < j → meansFactoryWithin names j c name = meansFactoryWithin names 1 o w := by
  induction k generalizing c name with
  | zero =>
      have hnone : ∀ F d a, ¬ Traces names c name F d a :=
        fun F d a h => Nat.not_lt_zero _ (hdepth F d a h)
      refine ⟨c, name, hc, .refl, hnone, fun j hj => ?_⟩
      obtain ⟨j, rfl⟩ := Nat.exists_eq_add_one_of_ne_zero hj.ne'
      exact meansFactoryWithin_of_settled hnone j
  | succ k ih =>
      by_cases hasks : ∃ F d a, Traces names c name F d a
      · obtain ⟨F, d, a, h⟩ := hasks
        obtain ⟨ha, -, hout⟩ := h.outward hn hc
        have hdeep : ∀ G d' a', Traces names a a.code G d' a' → G.above.length < k := by
          intro G d' a' h'
          have hG := (hout G _ d' h'.bound (List.mem_singleton_self d') h'.kind).2
          have hF := hdepth F d a h
          have hlt := length_above_lt_of_mem_ancestors hG
          omega
        obtain ⟨o, w, ho, hchain, hend, hanswer⟩ := ih ha hdeep
        refine ⟨o, w, ho, .head ⟨rfl, F, d, h⟩ hchain, hend, fun j hj => ?_⟩
        obtain ⟨j, rfl⟩ := Nat.exists_eq_add_one_of_ne_zero (Nat.ne_zero_of_lt hj)
        rw [meansFactoryWithin_of_traces h]
        exact hanswer j (by omega)
      · have hnone : ∀ F d a, ¬ Traces names c name F d a :=
          fun F d a h => hasks ⟨F, d, a, h⟩
        refine ⟨c, name, hc, .refl, hnone, fun j hj => ?_⟩
        obtain ⟨j, rfl⟩ := Nat.exists_eq_add_one_of_ne_zero (Nat.ne_zero_of_lt hj)
        exact meansFactoryWithin_of_settled hnone j

/-- What is left of a tree below a place is smaller by its depth. -/
theorem length_above_add_size_le (h : a ∈ c.walk) :
    a.above.length + a.node.size ≤ c.above.length + c.node.size := by
  induction c using Cursor.ind with
  | h c ih =>
      rcases mem_walk_iff.1 h with rfl | ⟨d, hd, ha⟩
      · exact Nat.le_refl _
      · have hbelow := ih d hd ha
        rw [length_above_of_mem_children hd] at hbelow
        have hsize := Node.size_lt_of_mem_children (node_mem_of_mem_children hd)
        omega

theorem length_above_lt_size (h : c ∈ (top n).walk) : c.above.length < n.size := by
  have hle : c.above.length + c.node.size ≤ 0 + n.size := length_above_add_size_le h
  have hpos : 0 < c.node.size := by
    obtain ⟨i, s, b, r, l, t, cs, z⟩ := c.node
    rw [Node.size]
    exact Nat.succ_pos _
  omega

end Cursor

/-- In a parsed program the search for the factory ends, whatever it is
asked. A plain parameter is found in the list that it stands in; a search
that goes on with an argument is led to functions that lie around the one
before, as far as it comes to parameters again; and the answer is found
where it ends. It breaks off just where this is a name from a module whose
name holds an escape far too large. -/
theorem factory_search_moves_outwards {source : Text} {n : Node}
    (hn : parse source = .ok n) (names : List Text) {c : Cursor} (hc : c ∈ (top n).walk)
    (name : Text) :
    (∀ F ds d params, c.binding? name = some (F, ds) → d ∈ ds → d.kind = .param →
      (∃ p, d.declarator = some p ∧ p.same d.identifier = true) →
      d.identifier.parent? = some params → params.is .formalParameters = true →
      ∃ k, params.operands.findIdx? (·.same d.identifier) = some k
        ∧ F.parameters[k]? = some d.identifier)
    ∧ (∀ F d a, Traces names c name F d a → a ∈ (top n).walk
      ∧ ∀ G ds d', a.binding? a.code = some (G, ds) → d' ∈ ds → d'.kind = .param →
        G.isFunction = true ∧ G ∈ F.ancestors)
    ∧ ∃ o w, o ∈ (top n).walk ∧ Relation.ReflTransGen (Asks names) (c, name) (o, w)
      ∧ (∀ q, ¬ Asks names (o, w) q)
      ∧ c.meansFactory names name = o.meansFactory names w
      ∧ ∀ e, c.meansFactory names name = .error e
        ↔ e = .oversizedEscape ∧ o.BreaksOff w := by
  have hid := parse_identified hn
  have hsize : ∀ {a : Cursor}, a ∈ (top n).walk → a.root.node.size = n.size :=
    fun ha => by rw [(mem_walk_top.1 ha).2]; rfl
  refine ⟨?found, ?outward, ?ending⟩
  case found =>
    intro F ds d params hb hd hk hplain hparams hlist
    obtain ⟨hF, hfun, -⟩ := function_of_param hid hc hb hd hk
    exact findIdx?_parameters hid hF hfun (mem_parameters_of_plain hid hc hb hd hk hplain)
      hparams hlist
  case outward =>
    intro F d a h
    obtain ⟨ha, -, hout⟩ := h.outward hid hc
    exact ⟨ha, hout⟩
  case ending =>
    have hdepth : ∀ F d a, Traces names c name F d a → F.above.length < n.size :=
      fun F d a h =>
        length_above_lt_size (mem_walk_of_mem_scopeChain hc (mem_of_lookUp h.bound)).1
    obtain ⟨o, w, ho, hchain, hend, hanswer⟩ := exists_end hid hc hdepth
    have hcend : c.meansFactory names name = meansFactoryWithin names 1 o w := by
      rw [meansFactory, hsize hc]
      exact hanswer _ (Nat.lt_succ_self _)
    have hoend : o.meansFactory names w = meansFactoryWithin names 1 o w :=
      meansFactoryWithin_of_settled hend _
    refine ⟨o, w, ho, hchain, fun q hq => ?_, hcend.trans hoend.symm, fun e => ?_⟩
    · obtain ⟨-, F, d, h⟩ := hq
      exact hend F d q.1 h
    · rw [hcend]
      exact meansFactoryWithin_eq_error_of_settled hend

/-- One function in another: the inner one receives the parameter of the
outer one. -/
theorem factory_search_moves_outwards_twice :
    ∃ n c F d a G d', parse (Text.ofString
        "(function ($) \x7b (function ($) \x7b $(x); \x7d)($); \x7d)(jQuery);") = .ok n
      ∧ c ∈ (top n).walk ∧ Traces defaultFactoryNames c (Text.ofString "$") F d a
      ∧ a.binding? a.code = some (G, [d']) ∧ d'.kind = .param ∧ G ∈ F.ancestors := by
  have h : holdsAt (Text.ofString
      "(function ($) \x7b (function ($) \x7b $(x); \x7d)($); \x7d)(jQuery);")
      [0, 0, 0, 1, 2, 1, 0, 0, 1, 2, 1, 0] (fun c => !c.inWith
        && (c.binding? (Text.ofString "$")).any fun (F, ds) => ds.length == 1
          && !F.hasDynamicScope && !F.isWritten (Text.ofString "$")
          && ds.all fun d => d.kind == .param && d.declarator.any (·.same d.identifier)
            && d.identifier.invokedArgument?.any fun a => a.is .identifier
              && defaultFactoryNames.contains a.code
              && (a.binding? a.code).any fun (_, ds') => ds'.length == 1
                && ds'.all (·.kind == .param)) = true := by
    decide +kernel
  obtain ⟨n, c, hn, hc, ht⟩ := exists_of_holdsAt h
  simp only [Bool.and_eq_true, Bool.not_eq_true', Option.any_eq_true, beq_iff_eq,
    List.length_eq_one_iff] at ht
  obtain ⟨hwith, ⟨F, ds⟩, hb, ⟨⟨⟨d, rfl⟩, hstatic⟩, hwritten⟩, hall⟩ := ht
  rw [List.all_cons, List.all_nil, Bool.and_true] at hall
  simp only [Bool.and_eq_true, Option.any_eq_true, beq_iff_eq, List.length_eq_one_iff,
    List.contains_iff_mem] at hall
  obtain ⟨⟨hk, p, hp, hsame⟩, a, ha, ⟨hak, hnamed⟩, ⟨G, ds'⟩, hb', ⟨d', rfl⟩, hall'⟩ := hall
  rw [List.all_cons, List.all_nil, Bool.and_true, beq_iff_eq] at hall'
  have htraces : Traces defaultFactoryNames c (Text.ofString "$") F d a :=
    ⟨⟨hwith, hb, hstatic, hwritten⟩, hk, ⟨p, hp, hsame⟩, ha, hak, hnamed⟩
  obtain ⟨-, hout, -⟩ := factory_search_moves_outwards hn defaultFactoryNames hc
    (Text.ofString "$")
  exact ⟨n, c, F, d, a, G, d', hn, hc, htraces, hb', hall',
    ((hout F d a htraces).2 G _ d' hb' (List.mem_singleton_self d') hall').2⟩

/-- The factory is imported from a module whose name holds an escape far
too large: the question whether the name means the factory is not
answered. -/
theorem factory_search_breaks_off :
    ∃ n c, parse (Text.ofString "import $ from \"\\u\x7bFFFFFFFFF\x7d\"; $(x);") = .ok n
      ∧ c ∈ (top n).walk ∧ c.isFactoryCall defaultFactoryNames = .error .oversizedEscape := by
  have h : holdsAt (Text.ofString "import $ from \"\\u\x7bFFFFFFFFF\x7d\"; $(x);") [1, 0]
      (fun c => match c.isFactoryCall defaultFactoryNames with
        | .error .oversizedEscape => true
        | _ => false) = true := by
    decide +kernel
  obtain ⟨n, c, hn, hc, ht⟩ := exists_of_holdsAt h
  refine ⟨n, c, hn, hc, ?_⟩
  split at ht
  · assumption
  · cases ht

end Codemod
