/-
What a rewrite does to the weight of a program.

A program weighs what the expression to be replaced weighs where it
stands, and the rest; the rest is the same afterwards
(`Step.exists_rest`). So whether a rewrite makes a program lighter is
seen at the expression and at what takes its place.
-/
import Codemod.Proofs.Rule.Spending

namespace Codemod

open Cursor Node

-- ================================================== what stands in a place

section Whole

variable {context : RuleContext} {c m : Cursor} {name : Text} {methods : List String}
  {new : Node}

/-- What a rule writes in the place of a method call is an expression of
its own. -/
theorem MethodForm.isWhole (h : MethodForm context c m name methods new) :
    new.IsWhole := by
  have call : ∀ {e args}, (Build.call e args).IsWhole :=
    isWhole_of_kind (s := .callExpression) rfl rfl (by decide)
  have member : ∀ {e t}, (Build.member e t).IsWhole :=
    isWhole_of_kind (s := .memberExpression) rfl rfl (by decide)
  have assignment : ∀ {e v}, (Build.assignment e v).IsWhole :=
    isWhole_of_kind (s := .assignmentExpression) rfl rfl (by decide)
  cases h with
  | read _ _ _ _ => exact member
  | prop _ _ => exact member
  | write _ _ _ _ _ => exact assignment
  | display _ _ _ _ => exact assignment
  | size _ _ => exact member
  | _ => exact call

theorem Build.isWhole_negatedIf {e : Node} (negated : Bool) (h : e.IsWhole) :
    (Build.negatedIf negated e).IsWhole := by
  cases negated with
  | false => exact h
  | true => exact isWhole_of_kind (s := .unaryExpression) rfl rfl (by decide)

theorem IdiomForm.isWhole (h : IdiomForm c new) : new.IsWhole := by
  have call : ∀ {e args}, (Build.call e args).IsWhole :=
    isWhole_of_kind (s := .callExpression) rfl rfl (by decide)
  cases h with
  | power _ _ => exact isWhole_of_kind (s := .binaryExpression) rfl rfl (by decide)
  | slice _ _ _ _ _ _ _ => exact call
  | spread _ _ _ => exact isWhole_of_kind (s := .array) rfl rfl (by decide)
  | test _ _ _ _ _ _ _ _ _ => exact Build.isWhole_negatedIf _ call
  | start _ _ _ _ _ => exact Build.isWhole_negatedIf _ call

/-- An element is an expression of its own. -/
theorem Cursor.isWhole_of_isElement {a : Cursor} (hop : a.node.isOperand = true)
    (h : a.isElement = true) : a.node.IsWhole := by
  have hkind : ∃ s ∉ partialSymbols, a.node.is s = true := by
    rcases unparenWithin_cases a.node.size a with hu | ⟨d, fuel, hk, -⟩
    · obtain ⟨s, hs, hk⟩ := List.any_eq_true.1 (isAny_of_isElementWithin h)
      have hplain : ∀ s ∈ elementSymbols, s ∉ partialSymbols := by decide
      rw [show a.unparen = a from hu] at hk
      exact ⟨s, hplain s hs, hk⟩
    · exact ⟨_, by decide, hk⟩
  obtain ⟨s, hs, hk⟩ := hkind
  have hnamed : a.node.named = true := (Bool.and_eq_true_iff.1 hop).1
  exact isWhole_of_kind hnamed hk hs

theorem FactoryForm.isWhole {arg : Cursor} (ha : c.arguments = [arg])
    (h : FactoryForm context c arg new) : new.IsWhole := by
  have call : ∀ {e args}, (Build.call e args).IsWhole :=
    isWhole_of_kind (s := .callExpression) rfl rfl (by decide)
  cases h with
  | unwrap helement _ =>
      exact isWhole_of_isElement (isOperand_of_mem_arguments (c := c)
        (by rw [ha]; exact List.mem_singleton.2 rfl)) helement
  | _ => exact call

end Whole

-- ============================================================== the rest

section Rest

variable {f : Use → Nat} {names : List Text} {k : Symbol} {w : Workspace} {r : Rewrite}
  {p : Cursor}

/-- Where a node of the program stands. -/
def Cursor.place (c : Cursor) : Place := usage.handed ⟨.plain, 0, []⟩ c

/-- What stands around a place weighs the same whatever is put there, if
declarations weigh nothing. -/
theorem Cursor.exists_rest (hf : ∀ t s b, f (.declares t s b) = 0) {c : Cursor}
    (hc : c.Placed) : ∃ rest, ∀ n : Node, n.role = c.node.role →
      (plug c.above n).weight f 0 [] = rest + n.tally f c.place := by
  have hzero : ∀ u, (f u != 0) = false → f u = 0 := fun u hu => by simpa using hu
  have hdeclared : ∀ (q : Place) (n : Node),
      (q.declared n).filter (fun u => f u != 0) = [] := by
    intro q n
    rw [List.filter_eq_nil_iff]
    intro u hu
    obtain ⟨x, -, hu⟩ := List.mem_flatMap.1 hu
    obtain ⟨s, -, rfl⟩ := List.mem_map.1 hu
    simp [hf]
  obtain ⟨before, after, hall⟩ := (usage.only fun u => f u != 0).of_plug_same
    (a := ⟨.plain, 0, []⟩) (n := c.node) (fun a q cs => by
      show (a.use q.head ++ a.declared _).filter _ = (a.use q.head ++ a.declared q).filter _
      rw [List.filter_append, List.filter_append, hdeclared, hdeclared]) hc
  refine ⟨weigh f before + weigh f after, fun n hn => ?_⟩
  have hof : ∀ (q : Place) (m : Node),
      weigh f ((usage.only fun u => f u != 0).of q m) = m.tally f q := by
    intro q m
    rw [Report.of_only, weigh_filter hzero]
    rfl
  rw [weight, ← hof, hall n hn, weigh_append, weigh_append, hof]
  show _ = _ + n.tally f (usage.handedIn ⟨.plain, 0, []⟩ c.node.role c.above)
  have hplace : (usage.only fun u => f u != 0).handedIn ⟨.plain, 0, []⟩ c.node.role c.above
      = usage.handedIn ⟨.plain, 0, []⟩ c.node.role c.above := by
    generalize c.node.role = role
    induction c.above generalizing role with
    | nil => rfl
    | cons pi up ih =>
        rw [Report.handedIn, Report.handedIn, ih]
        rfl
  rw [hplace]
  omega

/-- Before and after a rewrite the rest of the program weighs the same. -/
theorem Step.exists_rest (h : Step names k w r p) (hf : ∀ t s b, f (.declares t s b) = 0)
    (hwhole : r.new.IsWhole)
    (hnumber : ∀ q, (w.inserted p.node r.site.node r.new).1.tally f q
      = (Workspace.fitted p.node r.site.node r.new).tally f q) :
    ∃ rest, w.program.weight f 0 [] = rest + r.site.node.tally f r.site.place
      ∧ (w.after r p).program.weight f 0 [] = rest + r.new.tally f r.site.place := by
  obtain ⟨hplaced, -⟩ := mem_walk_top.1 h.mem
  obtain ⟨rest, hrest⟩ := Cursor.exists_rest hf hplaced
  refine ⟨rest, ?_, ?_⟩
  · rw [← hrest _ rfl, plug_eq_rootIn hplaced, Workspace.rootIn_eq h.mem]
  · have hrole : (w.inserted p.node r.site.node r.new).1.role = r.site.node.role :=
      (Workspace.role_number _ _).trans (Workspace.role_fitted _ _ _)
    rw [h.program_after, hrest _ hrole, hnumber, Workspace.tally_fitted hwhole]

/-- New identities weigh nothing where scopes do not matter. -/
theorem Workspace.tally_inserted_of_blind
    (hr : ∀ t fs gs, f (.receiver fs t) = f (.receiver gs t))
    (hd : ∀ t b i j, f (.declares t i b) = f (.declares t j b)) (w : Workspace)
    (parent old new : Node) (q : Place) : (w.inserted parent old new).1.tally f q
      = (Workspace.fitted parent old new).tally f q :=
  tally_of_copy hr hd (copy_number _ _)

/-- What spends a part of what the program is worth makes the program
cheaper. -/
theorem Step.worth_after (h : Step names k w r p) (hwhole : r.new.IsWhole) {j : Nat}
    (hspends : r.new.Spends j r.site) :
    (w.after r p).program.worth + j ≤ w.program.worth := by
  obtain ⟨rest, hold, hnew⟩ := h.exists_rest (f := price) (fun _ _ _ => rfl) hwhole
    (Workspace.tally_inserted_of_blind (fun _ _ _ => rfl) (fun _ _ _ _ => rfl) _ _ _ _)
  have hle := hspends r.site.place
  rw [worth, worth]
  omega

end Rest

end Codemod
