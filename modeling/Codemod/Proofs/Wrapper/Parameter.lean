/-
Parameters that hold the factory.

A parameter means the factory when the function it belongs to is called
on the spot and the argument in its place means the factory. Of such a
function the analysis has found the only call in the file that has it for
its callee (`IsLive.received`), and what is passed there is a live name of
the factory again, so that the arguments lead from function to function
out to a name that is no parameter (`IsLive.exists_origin`).

Whether the parameter always holds what stands in its place depends on two
more things, at which the analysis does not look: a spread argument in
front moves the others to places that are not known
(`alwaysPasses_iff`), and a function with a name can call itself with
other arguments. Main statement: `IsLive.alwaysReceives_iff`.
-/
import Mathlib.Logic.Relation
import Codemod.Proofs.Rule.Callers
import Codemod.Proofs.Wrapper.Chain
import Codemod.Proofs.Wrapper.Uses

namespace Codemod.Cursor

variable {names : List Text} {n : Node} {F a c call param : Cursor} {name : Text}
  {d : Declaration} {k : Nat}

-- ============================================================= positions

/-- What a call passes, position by position: a spread argument fills as
many positions as it has values, with values that are not known. -/
def passed (counts : Cursor → Nat) (args : List Cursor) : List (Option Cursor) :=
  args.flatMap fun a =>
    if a.is .spreadElement then List.replicate (counts a) none else [some a]

/-- Whatever its spread arguments hold, the call passes an argument at the
position. -/
def AlwaysPasses (call : Cursor) (k : Nat) (a : Cursor) : Prop :=
  ∀ counts, (passed counts call.arguments)[k]? = some (some a)

theorem passed_iff {args : List Cursor} (ha : a.is .spreadElement = false)
    (h : args[k]? = some a) :
    (∀ counts, (passed counts args)[k]? = some (some a))
      ↔ ∀ s ∈ args.take k, s.is .spreadElement = false := by
  induction args generalizing k with
  | nil => cases h
  | cons x xs ih =>
      cases k with
      | zero =>
          obtain rfl : x = a := by simpa using h
          simp [passed, ha]
      | succ k =>
          have h : xs[k]? = some a := by simpa using h
          rw [List.take_succ_cons, List.forall_mem_cons]
          cases hx : x.is .spreadElement with
          | false =>
              rw [← ih h]
              simp [passed, hx]
          | true =>
              refine iff_of_false (fun hall => ?_) (by simp)
              -- the spread argument fills the position itself
              have hpos := hall fun _ => k + 2
              simp only [passed, List.flatMap_cons, hx, if_true] at hpos
              rw [List.getElem?_append_left (by simp)] at hpos
              simp at hpos

/-- An argument has its position to itself just when nothing in front of
it is spread. -/
theorem alwaysPasses_iff (ha : a.is .spreadElement = false)
    (h : call.arguments[k]? = some a) :
    call.AlwaysPasses k a
      ↔ ∀ s ∈ call.arguments.take k, s.is .spreadElement = false :=
  passed_iff ha h

-- ============================================================ parameters

/-- A declaration of a parameter comes from a function. -/
theorem of_mem_declarations_param {r : Cursor} (hd : d ∈ r.declarations)
    (hk : d.kind = .param) :
    ∃ f ∈ r.walk, f.isFunction = true ∧ d.scope = some f
      ∧ ∃ p ∈ f.parameters, d.declarator = some p := by
  obtain ⟨v, hv, hd⟩ := List.mem_flatMap.1 hd
  rcases List.mem_append.1 hd with hd | hd
  · exfalso
    unfold declaredBy variablesDeclared nameDeclared BindingKind.ofWord at hd
    grind
  · unfold declaredInHead at hd
    split at hd
    · next hf =>
        obtain ⟨p, hp, hd⟩ := List.mem_flatMap.1 hd
        obtain ⟨x, -, rfl⟩ := List.mem_map.1 hd
        exact ⟨v, hv, hf, rfl, p, hp, rfl⟩
    · exfalso
      unfold parameterDeclared loopDeclared importDeclared BindingKind.ofWord at hd
      grind

/-- The call hands an argument to the function, which it has for its
callee, in the place of its parameter number `k`. -/
structure Hands (call F : Cursor) (k : Nat) (param a : Cursor) : Prop where
  kind : call.is .callExpression = true
  callee : call.inner? .function = some F
  parameter : F.parameters[k]? = some param
  argument : call.arguments[k]? = some a

/-- From a callee one gets to its call. -/
theorem parent?_climb_of_callee (hk : call.is .callExpression = true)
    (h : call.inner? .function = some F) : F.climb.parent? = some call := by
  obtain ⟨g, hg, rfl⟩ := inner?_eq_some.1 h
  exact parent?_climb_unparen (mem_children_of_child? hg)
    (Node.is_false_of_kind (Node.is_iff.1 hk) (by decide))

/-- A parameter in a list of parameters is one of those in the list. -/
theorem parameters_of_mem {params : Cursor} (hf : F.isFunction = true)
    (hp : param ∈ F.parameters) (hparams : param.parent? = some params)
    (hk : params.is .formalParameters = true) :
    F.parameters = params.operands ∧ params.parent? = some F := by
  have hne : params ≠ F := by
    rintro rfl
    have hno : params.is .formalParameters = false :=
      Node.is_false_of_isFunction hf (by decide)
    rw [hno] at hk
    cases hk
  unfold parameters at hp ⊢
  split at hp
  · next q hq =>
      obtain rfl := List.mem_singleton.1 hp
      have hparent := parent?_of_mem_children (mem_children_of_child? hq)
      rw [hparams, Option.some.injEq] at hparent
      exact absurd hparent hne
  · split at hp
    · next ps hps =>
        have hparent := parent?_of_mem_children (mem_children_of_mem_operands hp)
        rw [hparams, Option.some.injEq] at hparent
        subst hparent
        exact ⟨rfl, parent?_of_mem_children (mem_children_of_child? hps)⟩
    · cases hp

/-- The argument found for a parameter is the one in its place in the call
around the function. -/
theorem hands_of_invokedArgument? (hn : n.Identified) (hF : F ∈ (top n).walk)
    (hf : F.isFunction = true) (hp : param ∈ F.parameters)
    (h : param.invokedArgument? = some a) :
    ∃ call ∈ (top n).walk, ∃ k, call.Hands F k param a := by
  have hFp : F.Placed := (mem_walk_top.1 hF).1
  have hwalk {x : Cursor} (hx : x ∈ F.parameters) : x ∈ (top n).walk :=
    mem_walk_trans hF (mem_walk_of_mem_parameters hx)
  unfold invokedArgument? at h
  split at h
  · cases h
  · next params hparams =>
      split at h
      · cases h
      · next hk =>
          obtain ⟨hlist, hparent⟩ :=
            parameters_of_mem hf hp hparams (by simpa using hk)
          rw [hparent] at h
          split at h
          · next k func hidx hfunc =>
              obtain rfl := Option.some.inj hfunc
              split at h
              · next call hcall =>
                  split at h
                  · cases h
                  · next hck =>
                      split at h
                      · next callee hcallee =>
                          split at h
                          · next hsame =>
                              obtain ⟨hlt, hat, -⟩ :=
                                List.findIdx?_eq_some_iff_getElem.1 hidx
                              have hmem : params.operands[k] ∈ F.parameters := by
                                rw [hlist]
                                exact List.getElem_mem hlt
                              have hpk : F.parameters[k]? = some param := by
                                rw [hlist, List.getElem?_eq_getElem hlt]
                                exact congrArg some
                                  (eq_of_same hn (hwalk hmem) (hwalk hp) hat)
                              have hcw := mem_walk_top_of_parent?
                                ((enclosed_climb hFp).mem_walk hF) hcall
                              obtain ⟨g, hg, hgc⟩ := inner?_eq_some.1 hcallee
                              have hcalleew : callee ∈ (top n).walk := by
                                rw [← hgc]
                                exact mem_walk_trans hcw (mem_walk_trans
                                  (mem_walk_of_child? hg) (unparen_mem_walk g))
                              rw [eq_of_same hn hcalleew hF hsame] at hcallee
                              exact ⟨call, hcw, k, by simpa using hck, hcallee, hpk, h⟩
                          · cases h
                      · cases h
              · cases h
          · cases h

-- =============================================================== meaning

/-- A name that means the factory has one declaration, if any. -/
theorem singleton_of_meansFactoryWithin {fuel : Nat} {ds : List Declaration}
    (hb : c.binding? name = some (F, ds))
    (h : meansFactoryWithin names fuel c name = .ok true) : ∃ d, ds = [d] := by
  cases fuel with
  | zero => cases h
  | succ fuel =>
      rw [meansFactoryWithin, hb] at h
      split at h
      · cases h
      · rcases ds with _ | ⟨d, _ | ⟨e, ds⟩⟩
        · cases h
        · exact ⟨d, rfl⟩
        · cases h

theorem guard_eq_ok_true {b : Bool} {x : Check Bool} :
    (if b = true then .ok false else x) = .ok true ↔ b = false ∧ x = .ok true := by
  cases b <;> simp

/-- A parameter means the factory only if the argument found for it
does. -/
theorem meansFactoryWithin_of_param {fuel : Nat}
    (hb : c.binding? name = some (F, [d])) (hk : d.kind = .param)
    (h : meansFactoryWithin names (fuel + 1) c name = .ok true) :
    (∃ p, d.declarator = some p ∧ p.same d.identifier = true)
      ∧ ∃ a, d.identifier.invokedArgument? = some a ∧ a.is .identifier = true
        ∧ a.code ∈ names ∧ meansFactoryWithin names fuel a a.code = .ok true := by
  rw [meansFactoryWithin, hb] at h
  simp only [hk, guard_eq_ok_true] at h
  obtain ⟨-, -, hplain, h⟩ := h
  refine ⟨?_, ?_⟩
  · cases hd : d.declarator with
    | none => simp [hd] at hplain
    | some p => exact ⟨p, rfl, by simpa [hd] using hplain⟩
  · split at h
    · next a ha =>
        split at h
        · next hident =>
            simp only [Bool.and_eq_true, List.contains_iff_mem] at hident
            exact ⟨a, ha, hident.1, hident.2, h⟩
        · cases h
    · cases h

/-- What is found within some steps is found within more. -/
theorem meansFactoryWithin_succ {fuel : Nat}
    (h : meansFactoryWithin names fuel c name = .ok true) :
    meansFactoryWithin names (fuel + 1) c name = .ok true := by
  induction fuel generalizing c name with
  | zero => cases h
  | succ fuel ih =>
      cases hb : c.binding? name with
      | none =>
          rw [meansFactoryWithin, hb] at h ⊢
          exact h
      | some found =>
          obtain ⟨F, ds⟩ := found
          obtain ⟨d, rfl⟩ := singleton_of_meansFactoryWithin hb h
          by_cases hk : d.kind = .param
          · obtain ⟨-, a, ha, hak, hmem, hmeans⟩ := meansFactoryWithin_of_param hb hk h
            rw [meansFactoryWithin] at h ⊢
            simp only [hb, hk, ha, hak, List.contains_iff_mem.2 hmem, ih hmeans, hmeans]
              at h ⊢
            exact h
          · rw [meansFactoryWithin, hb] at h ⊢
            cases hkind : d.kind with
            | param => exact absurd hkind hk
            | _ => simpa only [hkind] using h

theorem meansFactoryWithin_mono {fuel fuel' : Nat} (hle : fuel ≤ fuel')
    (h : meansFactoryWithin names fuel c name = .ok true) :
    meansFactoryWithin names fuel' c name = .ok true := by
  induction hle with
  | refl => exact h
  | step _ ih => exact meansFactoryWithin_succ ih

/-- A name that is bound as a parameter is bound by a function, to which
the parameter belongs. -/
theorem function_of_param (hn : n.Identified) (hc : c ∈ (top n).walk)
    {ds : List Declaration} (hb : c.binding? name = some (F, ds)) (hd : d ∈ ds)
    (hk : d.kind = .param) :
    F ∈ (top n).walk ∧ F.isFunction = true ∧ d.identifier ∈ (top n).walk
      ∧ ∃ p ∈ F.parameters, d.declarator = some p := by
  have hF := (mem_walk_of_mem_scopeChain hc (mem_of_lookUp hb)).1
  have hfound : d ∈ inScope ((top n).declarationsOf name) F := by
    rw [← declarationsOf_eq hc, ← found_of_lookUp hb]
    exact hd
  obtain ⟨hd, hscope⟩ := List.mem_filter.1 hfound
  obtain ⟨f, hf, hfun, hdf, hparam⟩ :=
    of_mem_declarations_param (List.mem_of_mem_filter hd) hk
  obtain rfl : f = F := eq_of_same hn hf hF (by simpa [hdf] using hscope)
  obtain ⟨v, hv, hattr⟩ := exists_mem_declarations.1
    ⟨d, List.mem_of_mem_filter hd, rfl, hdf⟩
  exact ⟨hF, hfun, mem_walk_trans hv hattr.mem_walk, hparam⟩

/-- A parameter that is a plain name is one of those of its function. -/
theorem mem_parameters_of_plain (hn : n.Identified) (hc : c ∈ (top n).walk)
    {ds : List Declaration} (hb : c.binding? name = some (F, ds)) (hd : d ∈ ds)
    (hk : d.kind = .param)
    (hplain : ∃ p, d.declarator = some p ∧ p.same d.identifier = true) :
    d.identifier ∈ F.parameters := by
  obtain ⟨hF, -, hident, q, hq, hdq⟩ := function_of_param hn hc hb hd hk
  obtain ⟨p, hp, hsame⟩ := hplain
  obtain rfl : p = q := Option.some.inj (hp.symm.trans hdq)
  rw [← eq_of_same hn (mem_walk_trans hF (mem_walk_of_mem_parameters hq)) hident hsame]
  exact hq

/-- One step of the search: the parameter is handed an identifier with a
name of the factory, and the search has gone on from there. -/
theorem hands_of_meansFactoryWithin {fuel : Nat} (hn : n.Identified)
    (hc : c ∈ (top n).walk) (hb : c.binding? name = some (F, [d]))
    (hk : d.kind = .param)
    (h : meansFactoryWithin names (fuel + 1) c name = .ok true) :
    ∃ call ∈ (top n).walk, ∃ k, ∃ a ∈ (top n).walk, call.Hands F k d.identifier a
      ∧ a.is .identifier = true ∧ a.code ∈ names
      ∧ meansFactoryWithin names fuel a a.code = .ok true := by
  obtain ⟨hplain, a, ha, hak, hmem, hmeans⟩ := meansFactoryWithin_of_param hb hk h
  have hd := List.mem_singleton_self d
  obtain ⟨hF, hfun, -⟩ := function_of_param hn hc hb hd hk
  obtain ⟨call, hcall, k, hhands⟩ := hands_of_invokedArgument? hn hF hfun
    (mem_parameters_of_plain hn hc hb hd hk hplain) ha
  exact ⟨call, hcall, k, a,
    mem_walk_trans hcall (mem_walk_of_mem_arguments
      (List.mem_of_getElem? hhands.argument)), hhands, hak, hmem, hmeans⟩

/-- A parameter that means the factory is handed a live name of the
factory by the only call of its function. -/
theorem IsLive.received (hn : n.Identified) (hc : c ∈ (top n).walk)
    (h : c.IsLive names) {ds : List Declaration}
    (hb : c.binding? c.code = some (F, ds)) (hd : d ∈ ds) (hk : d.kind = .param) :
    ds = [d] ∧ ∃ call ∈ (top n).walk, ∃ k, ∃ a ∈ (top n).walk,
      call.Hands F k d.identifier a ∧ a.IsLive names := by
  obtain ⟨d', rfl⟩ := singleton_of_meansFactoryWithin hb h.means
  obtain rfl := List.mem_singleton.1 hd
  obtain ⟨call, hcall, k, a, ha, hhands, hak, hmem, hmeans⟩ :=
    hands_of_meansFactoryWithin hn hc hb hk h.means
  have hroot : c.root = a.root := by
    rw [(mem_walk_top.1 hc).2, (mem_walk_top.1 ha).2]
  rw [hroot] at hmeans
  exact ⟨rfl, call, hcall, k, a, ha, hhands, hak, hmem, meansFactoryWithin_succ hmeans⟩

/-- The name means a parameter, which is handed the argument. -/
def TakenFrom (c a : Cursor) : Prop :=
  ∃ (F : Cursor) (d : Declaration) (call : Cursor) (k : Nat),
    c.binding? c.code = some (F, [d]) ∧ d.kind = .param
      ∧ call.Hands F k d.identifier a

/-- The name is bound as a parameter. -/
def IsParameter (c : Cursor) : Prop :=
  ∃ F ds, c.binding? c.code = some (F, ds) ∧ ∃ d ∈ ds, d.kind = .param

/-- As long as the search goes on the names are taken from one another;
where it ends the name is no parameter. -/
theorem exists_origin_within {fuel : Nat} (hn : n.Identified)
    (hfuel : fuel ≤ n.size + 1) (hc : c ∈ (top n).walk) (hk : c.is .identifier = true)
    (hmem : c.code ∈ names)
    (h : meansFactoryWithin names fuel c c.code = .ok true) :
    ∃ o ∈ (top n).walk, Relation.ReflTransGen TakenFrom c o ∧ o.IsLive names
      ∧ ¬ o.IsParameter := by
  induction fuel generalizing c with
  | zero => cases h
  | succ fuel ih =>
      by_cases hparam : c.IsParameter
      · obtain ⟨F, ds, hb, d, hd, hkind⟩ := hparam
        obtain ⟨d', rfl⟩ := singleton_of_meansFactoryWithin hb h
        obtain rfl := List.mem_singleton.1 hd
        obtain ⟨call, -, k, a, ha, hhands, hak, hamem, hrest⟩ :=
          hands_of_meansFactoryWithin hn hc hb hkind h
        obtain ⟨o, ho, htaken, hlive, hno⟩ := ih (by omega) ha hak hamem hrest
        exact ⟨o, ho, .head ⟨F, d, call, k, hb, hkind, hhands⟩ htaken, hlive, hno⟩
      · refine ⟨c, hc, .refl, ⟨hk, hmem, ?_⟩, hparam⟩
        rw [meansFactory, (mem_walk_top.1 hc).2]
        exact meansFactoryWithin_mono hfuel h

/-- From a live name the arguments lead out to a live name that is no
parameter. -/
theorem IsLive.exists_origin (hn : n.Identified) (hc : c ∈ (top n).walk)
    (h : c.IsLive names) :
    ∃ o ∈ (top n).walk, Relation.ReflTransGen TakenFrom c o ∧ o.IsLive names
      ∧ ¬ o.IsParameter := by
  refine exists_origin_within hn (Nat.le_refl _) hc h.kind h.named ?_
  have hmeans := h.means
  rw [meansFactory, (mem_walk_top.1 hc).2] at hmeans
  exact hmeans

-- ================================================== what is asked for

/-- A test for the factory accepts the identifier. -/
inductive Accepts (names : List Text) : Cursor → Cursor → Prop where
  | call {e c : Cursor} : e.isFactoryCall names = .ok true →
    e.unparen.child? .function = some c → Accepts names e c
  | identifier {e : Cursor} : e.isFactoryIdentifier names = .ok true →
    Accepts names e e.unparen

theorem Accepts.mem_walk {e : Cursor} (h : Accepts names e c) : c ∈ e.walk := by
  cases h with
  | call _ hc => exact mem_walk_trans (unparen_mem_walk e) (mem_walk_of_child? hc)
  | identifier _ => exact unparen_mem_walk e

theorem Accepts.isLive {e : Cursor} (h : Accepts names e c) : c.IsLive names := by
  cases h with
  | call hf hc =>
      obtain ⟨f, hf, hlive⟩ := isLive_of_isFactoryCall hf
      rw [hc, Option.some.injEq] at hf
      rw [hf]
      exact hlive
  | identifier hf => exact isLive_of_isFactoryIdentifier hf

/-- However often the function is called, its parameter number `k` gets
the argument: the call in place always passes it there, and nothing in
the file can call the function by a name. -/
structure AlwaysReceives (F call : Cursor) (k : Nat) (a : Cursor) : Prop where
  passes : call.AlwaysPasses k a
  unnamed : ∀ u ∈ F.root.walk, ¬ F.IsOwnName u

theorem alwaysReceives_iff (hF : F.Placed) (ha : a.is .spreadElement = false)
    (h : call.arguments[k]? = some a) :
    F.AlwaysReceives call k a
      ↔ (∀ s ∈ call.arguments.take k, s.is .spreadElement = false)
        ∧ ∀ u ∈ F.walk, ¬ F.IsOwnName u := by
  rw [← alwaysPasses_iff ha h]
  constructor
  · intro hr
    exact ⟨hr.passes, fun u hu => hr.unnamed u (mem_walk_trans hF.mem_walk_root hu)⟩
  · rintro ⟨hpasses, hno⟩
    exact ⟨hpasses, fun u hu hown => hno u (hown.mem_walk hu) hown⟩

end Codemod.Cursor

namespace Codemod

open Cursor

/-- When a test for the factory accepts a name of a parsed program that is
bound as a parameter of a function, the function is the callee of exactly
one call in the file, and this call hands the parameter a live name of the
factory. The parameter always receives it just when no argument in front
is spread, and the function says its own name nowhere inside. -/
theorem factory_parameter_receives_iff {source : Text} {n : Node}
    (hn : parse source = .ok n) {names : List Text} {e c F : Cursor}
    {ds : List Declaration} {d : Declaration} (he : e ∈ (top n).walk)
    (h : Accepts names e c) (hb : c.binding? c.code = some (F, ds)) (hd : d ∈ ds)
    (hk : d.kind = .param) :
    ds = [d] ∧ ∃ call ∈ (top n).walk, ∃ k, ∃ a ∈ (top n).walk,
      call.Hands F k d.identifier a ∧ a.IsLive names
        ∧ (∀ call' ∈ (top n).walk, call'.is .callExpression = true →
          call'.inner? .function = some F → call' = call)
        ∧ (F.AlwaysReceives call k a
          ↔ (∀ s ∈ call.arguments.take k, s.is .spreadElement = false)
            ∧ ∀ u ∈ F.walk, ¬ F.IsOwnName u) := by
  have hid := parse_identified hn
  have hc := mem_walk_trans he h.mem_walk
  have hF := (mem_walk_of_mem_scopeChain hc (mem_of_lookUp hb)).1
  obtain ⟨hds, call, hcall, k, a, ha, hhands, hlive⟩ :=
    h.isLive.received hid hc hb hd hk
  refine ⟨hds, call, hcall, k, a, ha, hhands, hlive, ?unique,
    alwaysReceives_iff (mem_walk_top.1 hF).1 ?plain hhands.argument⟩
  case unique =>
    intro call' _ hk' hcallee
    have heq := parent?_climb_of_callee hhands.kind hhands.callee
    rw [parent?_climb_of_callee hk' hcallee] at heq
    exact Option.some.inj heq
  case plain => exact Node.is_false_of_kind (Node.is_iff.1 hlive.kind) (by decide)

/-- A function that is called on the spot with the factory, and has no
name. -/
theorem factory_parameter_receives_jquery :
    ∃ n e c F d call k a, parse (Text.ofString
        "(function (w, $) \x7b $(w).hide(); \x7d)(this, jQuery);") = .ok n
      ∧ e ∈ (top n).walk ∧ Accepts defaultFactoryNames e c
      ∧ c.binding? c.code = some (F, [d]) ∧ d.kind = .param
      ∧ call.Hands F k d.identifier a ∧ a.IsLive defaultFactoryNames
      ∧ F.AlwaysReceives call k a := by
  have h : holdsAt (Text.ofString
      "(function (w, $) \x7b $(w).hide(); \x7d)(this, jQuery);")
      [0, 0, 0, 1, 2, 1, 0, 0, 0] (fun e =>
        (e.isFactoryCall defaultFactoryNames).toOption == some true
        && (e.unparen.child? .function).any fun c => (c.binding? c.code).any
          fun (F, ds) => ds.any (·.kind == .param) && F.ownNames.isEmpty
            && F.climb.parent?.any fun call =>
              call.arguments.all fun s => !s.is .spreadElement) = true := by
    decide +kernel
  obtain ⟨n, e, hn, he, ht⟩ := exists_of_holdsAt h
  simp only [Bool.and_eq_true, Option.any_eq_true, List.any_eq_true, beq_iff_eq,
    List.isEmpty_iff, List.all_eq_true, Bool.not_eq_true'] at ht
  obtain ⟨hcall, c, hc, ⟨F, ds⟩, hb, ⟨⟨d, hd, hk⟩, hown⟩, call, hparent, hplain⟩ := ht
  have haccepts := Accepts.call (eq_ok_of_toOption hcall) hc
  obtain ⟨rfl, call', -, k, a, -, hhands, hlive, -, hiff⟩ :=
    factory_parameter_receives_iff hn he haccepts hb hd hk
  obtain rfl : call = call' := by
    rw [parent?_climb_of_callee hhands.kind hhands.callee] at hparent
    exact (Option.some.inj hparent).symm
  refine ⟨n, e, c, F, d, call, k, a, hn, he, haccepts, hb, hk, hhands, hlive,
    hiff.2 ⟨fun s hs => hplain s (List.mem_of_mem_take hs), fun u _ hu => ?_⟩⟩
  obtain ⟨t, ht, -⟩ := hu.means
  rw [hown] at ht
  cases ht

/-- A spread argument in front of the factory is not noticed. The
parameter may receive something else, and what it is called on is taken
for a wrapper and rewritten. -/
theorem factory_parameter_behind_spread :
    ∃ n e c F d call k a, parse (Text.ofString
        "(function (w, $) \x7b $(w).hide(); \x7d)(...args, jQuery);") = .ok n
      ∧ e ∈ (top n).walk ∧ Accepts defaultFactoryNames e c
      ∧ c.binding? c.code = some (F, [d]) ∧ d.kind = .param
      ∧ call.Hands F k d.identifier a
      ∧ (∃ s ∈ call.arguments.take k, s.is .spreadElement = true)
      ∧ ¬ F.AlwaysReceives call k a
      ∧ (Rules.showHide.apply .default (.ofProgram n)).1.render = Text.ofString
        "(function (w, $) \x7b w.style.display = \"none\"; \x7d)(...args, jQuery);" := by
  have h : holdsAt (Text.ofString
      "(function (w, $) \x7b $(w).hide(); \x7d)(...args, jQuery);")
      [0, 0, 0, 1, 2, 1, 0, 0, 0] (fun e =>
        (e.isFactoryCall defaultFactoryNames).toOption == some true
        && ((e.unparen.child? .function).any fun c => (c.binding? c.code).any
          fun (F, ds) => ds.any (fun d => d.kind == .param
              && !F.parameters.head?.any (·.same d.identifier))
            && F.climb.parent?.any fun call =>
              call.arguments.head?.any (·.is .spreadElement))
        && (Rules.showHide.apply .default (.ofProgram e.root.node)).1.render
          == Text.ofString
            "(function (w, $) \x7b w.style.display = \"none\"; \x7d)(...args, jQuery);")
      = true := by decide +kernel
  obtain ⟨n, e, hn, he, ht⟩ := exists_of_holdsAt h
  rw [(mem_walk_top.1 he).2] at ht
  simp only [Bool.and_eq_true, Option.any_eq_true, List.any_eq_true, beq_iff_eq,
    Bool.not_eq_true'] at ht
  obtain ⟨⟨hcall, c, hc, ⟨F, ds⟩, hb, ⟨d, hd, hk, hfirst⟩, call, hparent, s, hs, hsk⟩,
    hrender⟩ := ht
  have haccepts := Accepts.call (eq_ok_of_toOption hcall) hc
  have hcw := mem_walk_trans he haccepts.mem_walk
  obtain ⟨rfl, call', -, k, a, -, hhands, hlive⟩ :=
    haccepts.isLive.received (parse_identified hn) hcw hb hd hk
  obtain rfl : call = call' := by
    rw [parent?_climb_of_callee hhands.kind hhands.callee] at hparent
    exact (Option.some.inj hparent).symm
  have hpos : ∃ s ∈ call.arguments.take k, s.is .spreadElement = true := by
    cases k with
    | zero =>
        have hhead := hhands.parameter
        rw [← List.head?_eq_getElem?] at hhead
        simp [hhead, same] at hfirst
    | succ k =>
        cases hargs : call.arguments with
        | nil => rw [hargs] at hs; cases hs
        | cons x xs =>
            rw [hargs] at hs
            obtain rfl := Option.some.inj hs
            exact ⟨x, List.mem_cons_self, hsk⟩
  have hak : a.is .spreadElement = false :=
    Node.is_false_of_kind (Node.is_iff.1 hlive.kind) (by decide)
  refine ⟨n, e, c, F, d, call, k, a, hn, he, haccepts, hb, hk, hhands, hpos,
    fun hr => ?_, hrender⟩
  obtain ⟨s, hs, hspread⟩ := hpos
  rw [(alwaysPasses_iff hak hhands.argument).1 hr.passes s hs] at hspread
  cases hspread

end Codemod
