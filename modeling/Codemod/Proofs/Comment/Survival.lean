/-
Whether comments survive.

What a rule does to a program is a list of changes: an expression gives
way to another, a directive to nothing (`Rule.changes`). Each puts the
comments of what is new where those of what is old were, and leaves all
others alone (`Follows`). So if every change keeps the comments of what
it replaces, the sequence of comments stays as it is. As long as no
change puts comments in another order or writes one twice, that is the
only way for it to stay (`Engine.comments_kept_iff`).

Comments between the tokens of a call are not kept: a rule builds what it
writes from the receiver and the arguments.
-/
import Codemod.Engine
import Codemod.Proofs.Comment.Order
import Codemod.Proofs.Comment.Tree
import Codemod.Proofs.Rule.Attachment

namespace Codemod

-- =============================================================== changes

/-- A part of the program, and what takes its place, if anything. -/
structure Change where
  old : Node
  new : Option Node

namespace Change

/-- The comments of the part. -/
def before (c : Change) : List Text := c.old.comments

/-- The comments of what takes its place. -/
def after (c : Change) : List Text := c.new.elim [] Node.comments

/-- No comment is lost or added or put in another place. -/
def KeepsComments (c : Change) : Prop := c.after = c.before

/-- Comments may be lost; the others stay in order. -/
def InOrder (c : Change) : Prop := c.after.Sublist c.before

theorem KeepsComments.inOrder {c : Change} (h : c.KeepsComments) : c.InOrder := by
  rw [InOrder, show c.after = c.before from h]

end Change

/-- The changes, one after the other, make the one sequence of comments
of the other. -/
inductive Follows : List Text → List Change → List Text → Prop where
  | done {l : List Text} : Follows l [] l
  | step {front back l : List Text} {c : Change} {cs : List Change} :
    Follows (front ++ (c.after ++ back)) cs l →
    Follows (front ++ (c.before ++ back)) (c :: cs) l

namespace Follows

variable {k l m : List Text} {c : Change} {cs ds : List Change}

theorem append (h : Follows k cs l) (h' : Follows l ds m) :
    Follows k (cs ++ ds) m := by
  induction h with
  | done => exact h'
  | step _ ih => exact .step (ih h')

/-- Changes that keep comments leave the sequence as it is. -/
theorem eq_of_keeps (h : Follows k cs l) (hkeeps : ∀ c ∈ cs, c.KeepsComments) :
    l = k := by
  induction h with
  | done => rfl
  | step _ ih =>
      rw [List.forall_mem_cons] at hkeeps
      rw [ih hkeeps.2, show _ = _ from hkeeps.1]

theorem length_le (h : Follows k cs l) (hin : ∀ c ∈ cs, c.InOrder) :
    l.length ≤ k.length := by
  induction h with
  | done => exact Nat.le_refl _
  | step _ ih =>
      rw [List.forall_mem_cons] at hin
      have hrest := ih hin.2
      have hfirst := hin.1.length_le
      simp only [List.length_append] at hrest ⊢
      omega

/-- If none is put in another order, the sequence stays as it is only
when every change keeps the comments. -/
theorem eq_iff_keeps (h : Follows k cs l) (hin : ∀ c ∈ cs, c.InOrder) :
    l = k ↔ ∀ c ∈ cs, c.KeepsComments := by
  refine ⟨fun heq => ?_, h.eq_of_keeps⟩
  have hlen : k.length ≤ l.length := by rw [heq]
  clear heq
  induction h with
  | done => simp
  | step hrest ih =>
      rw [List.forall_mem_cons] at hin ⊢
      have hle := hrest.length_le hin.2
      have hfirst := hin.1.length_le
      simp only [List.length_append] at hlen hle ih
      refine ⟨hin.1.eq_of_length (by omega), ih hin.2 (by omega)⟩

end Follows

-- ============================================================= directives

namespace Node

variable {t : Nat} {cs : List Node}

/-- A child that is dropped takes its comments along. -/
theorem comments_dropHandingLead {n : Node}
    (hn : cs.find? (·.id == some t) = some n) :
    ∃ front back, cs.flatMap comments = front ++ (n.comments ++ back)
      ∧ (dropHandingLead t cs).flatMap comments = front ++ back := by
  induction cs with
  | nil => cases hn
  | cons c cs ih =>
      rw [List.find?_cons] at hn
      rw [dropHandingLead_cons]
      split at hn
      · next hid =>
          obtain rfl := Option.some.inj hn
          refine ⟨[], cs.flatMap comments, rfl, ?_⟩
          rw [if_pos hid]
          cases cs with
          | nil => rfl
          | cons d ds => simp
      · next hid =>
          obtain ⟨front, back, hold, hnew⟩ := ih hn
          refine ⟨c.comments ++ front, back, ?_, ?_⟩
          · rw [List.flatMap_cons, hold, List.append_assoc]
          · rw [hid, if_neg Bool.false_ne_true, List.flatMap_cons, hnew,
              List.append_assoc]

end Node

namespace Rules

/-- The directives that are dropped of the statements identified. -/
def droppedOver : List Nat → Workspace → List Node
  | [], _ => []
  | i :: rest, w =>
    match w.program.children.find? (·.id == some i) with
    | none => droppedOver rest w
    | some n =>
      if n.isAny [.comment, .hashBangLine] then droppedOver rest w
      else match isUseStrict n with
        | .error _ => []
        | .ok true => n :: droppedOver rest (dropStatement w n)
        | .ok false => if isDirective n then droppedOver rest w else []

/-- The directives that are dropped of a module. -/
def dropped (w : Workspace) : List Node :=
  if !w.program.is .program || !isModule w.program then []
  else droppedOver (w.program.children.filterMap (·.id)) w

/-- Dropping a directive. -/
def droppingOf (n : Node) : Change := ⟨n, none⟩

/-- A statement that is dropped takes its comments along. -/
theorem comments_dropStatement {w : Workspace} {n : Node} {i : Nat}
    (hn : w.program.children.find? (·.id == some i) = some n) :
    ∃ front back,
      w.program.comments = front ++ ((droppingOf n).before ++ back)
      ∧ (dropStatement w n).program.comments
        = front ++ ((droppingOf n).after ++ back) := by
  have hid : n.id = some i := by simpa using List.find?_some hn
  have hprog : (dropStatement w n).program
      = { w.program with children := Node.dropHandingLead i w.program.children } := by
    rw [dropStatement, hid]
  obtain ⟨front, back, hold, hnew⟩ := Node.comments_dropHandingLead hn
  refine ⟨w.program.ownComments ++ front, back, ?_, ?_⟩
  · rw [Node.comments_eq, hold, List.append_assoc]
    rfl
  · rw [hprog, Node.comments_eq]
    exact (congrArg (w.program.ownComments ++ ·) hnew).trans
      (List.append_assoc ..).symm

theorem follows_dropUseStrict {is : List Nat} {changed : Bool} {w : Workspace} :
    Follows w.program.comments ((droppedOver is w).map droppingOf)
      (dropUseStrict is changed w).1.program.comments := by
  induction is generalizing changed w with
  | nil => exact .done
  | cons i is ih =>
      rw [droppedOver, dropUseStrict]
      cases hn : w.program.children.find? (·.id == some i) with
      | none => exact ih
      | some n =>
          simp only
          split
          · exact ih
          · cases hu : isUseStrict n with
            | error f => exact .done
            | ok strict =>
                cases strict with
                | true =>
                    obtain ⟨front, back, hold, hnew⟩ := comments_dropStatement hn
                    simp only [List.map_cons]
                    rw [hold]
                    refine .step ?_
                    rw [← hnew]
                    exact ih
                | false =>
                    simp only
                    split
                    · exact ih
                    · exact .done

theorem follows_relaxModule (w : Workspace) :
    Follows w.program.comments ((dropped w).map droppingOf)
      (relaxModule w).1.program.comments := by
  unfold dropped relaxModule
  split
  · exact .done
  · exact follows_dropUseStrict

end Rules

-- =========================================================== a rule's changes

/-- The change that a rewrite is. -/
def Rewrite.change (r : Rewrite) : Change := ⟨r.site.node, some r.new⟩

theorem Course.follows {names : List Text} {k : Symbol} {w w' : Workspace}
    {rs : List Rewrite} (h : Course names k w rs w') :
    Follows w.program.comments (rs.map Rewrite.change) w'.program.comments := by
  induction h with
  | done _ => exact .done
  | @step w w' r p rs hs _ ih =>
      obtain ⟨front, back, hold, hnew⟩ :=
        Workspace.comments_splice hs.sound hs.mem hs.parent r.new
      have hrest : Follows (front ++ (r.change.after ++ back)) (rs.map Rewrite.change)
          w'.program.comments := by
        rw [show front ++ (r.change.after ++ back) = _ from hnew.symm]
        exact ih
      rw [hold]
      exact .step hrest

/-- What a built-in rule changes. The only one of them that is not made of
sweeps drops directives. -/
def Rule.changes (rule : Rule) (context : RuleContext) (w : Workspace) :
    List Change :=
  match rule.action with
  | .sweeps _ => (rule.rewrites context w).map Rewrite.change
  | .onProgram _ => (Rules.dropped w).map Rules.droppingOf

theorem Rule.follows_apply {rule : Rule} (h : rule ∈ Registry.builtin.rules)
    {context : RuleContext} {w : Workspace} (hw : w.Sound) :
    Follows w.program.comments (rule.changes context w)
      (rule.apply context w).1.program.comments := by
  rcases Rule.keeps_of_mem h with ⟨k, hk, sweeps, haction, hkeeps⟩ | rfl
  · have hcourse : Course context.factoryNames k w
        (rewritesOfSweeps context sweeps w) (runSweeps context sweeps false w).1 :=
      Sweep.course_runSweeps hk hkeeps hw
    rw [Rule.changes, Rule.rewrites, Rule.apply, haction]
    exact hcourse.follows
  · exact Rules.follows_relaxModule w

theorem Rule.inOrder_or_rearranges {rule : Rule} (h : rule ∈ Registry.builtin.rules)
    {context : RuleContext} {w : Workspace} (hw : w.Sound) {c : Change}
    (hc : c ∈ rule.changes context w) :
    c.InOrder ∨ ∃ r : Rewrite, c = r.change ∧ r.Rearranges := by
  unfold Rule.changes at hc
  split at hc
  · obtain ⟨r, hr, rfl⟩ := List.mem_map.1 hc
    by_cases hre : r.Rearranges
    · exact .inr ⟨r, rfl, hre⟩
    · exact .inl (Rewrite.inOrder h hw hr hre)
  · -- nothing is left of a directive
    obtain ⟨n, -, rfl⟩ := List.mem_map.1 hc
    exact .inl (List.nil_sublist _)

/-- What rules change, one after the other. -/
def changesOf (context : RuleContext) : List Rule → Workspace → List Change
  | [], _ => []
  | rule :: rest, w =>
    rule.changes context w ++ changesOf context rest (rule.apply context w).1

namespace Engine

variable {context : RuleContext} {rules : List Rule} {names : List String}

theorem follows_applyRules {w w' : Workspace}
    (hrules : ∀ rule ∈ rules, rule ∈ Registry.builtin.rules) (hw : w.Distinct)
    (hrun : applyRules context rules w = .ok (names, w')) :
    Follows w.program.comments (changesOf context rules w) w'.program.comments := by
  induction rules generalizing w names with
  | nil =>
      obtain ⟨-, rfl⟩ := Prod.mk.inj (Except.ok.inj hrun)
      exact .done
  | cons rule rest ih =>
      rw [List.forall_mem_cons] at hrules
      have hfirst : Follows w.program.comments (rule.changes context w)
          (rule.apply context w).1.program.comments :=
        Rule.follows_apply hrules.1 hw.sound
      have hnext : (rule.apply context w).1.Distinct :=
        Rule.distinct_apply hrules.1 hw
      rw [applyRules] at hrun
      rw [changesOf]
      cases hr : rule.apply context w with
      | mk v result =>
          rw [hr] at hrun hfirst hnext
          cases result with
          | error f => cases hrun
          | ok changed =>
              simp only at hrun
              split at hrun
              · cases hrun
              · next hlast =>
                  obtain ⟨-, rfl⟩ := Prod.mk.inj (Except.ok.inj hrun)
                  exact hfirst.append (ih hrules.2 hnext hlast)

theorem inOrder_or_rearranges {w : Workspace} {c : Change}
    (hrules : ∀ rule ∈ rules, rule ∈ Registry.builtin.rules) (hw : w.Distinct)
    (hc : c ∈ changesOf context rules w) :
    c.InOrder ∨ ∃ r : Rewrite, c = r.change ∧ r.Rearranges := by
  induction rules generalizing w with
  | nil => cases hc
  | cons rule rest ih =>
      rw [List.forall_mem_cons] at hrules
      rw [changesOf, List.mem_append] at hc
      rcases hc with hc | hc
      · exact Rule.inOrder_or_rearranges hrules.1 hw.sound hc
      · exact ih hrules.2 (Rule.distinct_apply hrules.1 hw) hc

/-- After any built-in rules in any order the comments are those of the
source, in the same order, if every change that the rules made keeps the
comments of what it replaced; and if none of them puts comments in
another order or writes one twice, then only if every change does. -/
theorem comments_kept_iff {source : Text} {n : Node} {w : Workspace}
    (hn : parse source = .ok n)
    (hrules : ∀ rule ∈ rules, rule ∈ Registry.builtin.rules)
    (hrun : applyRules context rules (.ofProgram n) = .ok (names, w))
    (hin : ∀ c ∈ changesOf context rules (.ofProgram n), c.InOrder) :
    w.program.comments = n.comments
      ↔ ∀ c ∈ changesOf context rules (.ofProgram n), c.KeepsComments :=
  (follows_applyRules hrules (Workspace.distinct_ofProgram hn) hrun).eq_iff_keeps hin

/-- Comments outside of the call and around the element are kept. -/
theorem comments_kept_around_element :
    ∃ n names w, parse (Text.ofString "/*a*/ $((/*b*/ el)).hide(); //c") = .ok n
      ∧ (∀ rule ∈ [Rules.showHide], rule ∈ Registry.builtin.rules)
      ∧ applyRules .default [Rules.showHide] (.ofProgram n) = .ok (names, w)
      ∧ (∀ c ∈ changesOf .default [Rules.showHide] (.ofProgram n), c.InOrder)
      ∧ names = ["show-hide-to-style-display"]
      ∧ n.comments = ["/*a*/", "/*b*/", "//c"].map Text.ofString
      ∧ w.program.comments = n.comments := by
  have hrules : ∀ rule ∈ [Rules.showHide], rule ∈ Registry.builtin.rules := by
    simp [Registry.builtin]
  obtain ⟨n, hn, h⟩ := exists_of_parse_any
    (Text.ofString "/*a*/ $((/*b*/ el)).hide(); //c")
    (fun n => n.comments == ["/*a*/", "/*b*/", "//c"].map Text.ofString
      && (changesOf .default [Rules.showHide] (.ofProgram n)).all
        (fun c => c.after == c.before)
      && (applyRules .default [Rules.showHide] (.ofProgram n)).toOption.any
        (fun result => result.1 == ["show-hide-to-style-display"]))
    (by decide +kernel)
  simp only [Bool.and_eq_true, beq_iff_eq, List.all_eq_true] at h
  obtain ⟨⟨hcomments, hkeeps⟩, hran⟩ := h
  obtain ⟨⟨names, w⟩, hrun, hnames⟩ := (Option.any_eq_true _ _).1 hran
  have hrun := eq_ok_of_toOption hrun
  have hin : ∀ c ∈ changesOf .default [Rules.showHide] (.ofProgram n), c.InOrder :=
    fun c hc => Change.KeepsComments.inOrder (hkeeps c hc)
  exact ⟨n, names, w, hn, hrules, hrun, hin, by simpa using hnames, hcomments,
    (comments_kept_iff hn hrules hrun hin).2 hkeeps⟩

/-- A comment between the receiver and the name of the method is lost. -/
theorem comment_lost_between_tokens :
    ∃ n names w, parse (Text.ofString "$(el)/*c*/.show();") = .ok n
      ∧ (∀ rule ∈ [Rules.showHide], rule ∈ Registry.builtin.rules)
      ∧ applyRules .default [Rules.showHide] (.ofProgram n) = .ok (names, w)
      ∧ n.comments = [Text.ofString "/*c*/"] ∧ w.program.comments = [] := by
  obtain ⟨n, hn, h⟩ := exists_of_parse_any (Text.ofString "$(el)/*c*/.show();")
    (fun n => n.comments == [Text.ofString "/*c*/"]
      && (applyRules .default [Rules.showHide] (.ofProgram n)).toOption.any
        (fun result => result.2.program.comments.isEmpty))
    (by decide +kernel)
  simp only [Bool.and_eq_true, beq_iff_eq] at h
  obtain ⟨hcomments, hran⟩ := h
  obtain ⟨⟨names, w⟩, hrun, hlost⟩ := (Option.any_eq_true _ _).1 hran
  exact ⟨n, names, w, hn, by simp [Registry.builtin], eq_ok_of_toOption hrun,
    hcomments, List.isEmpty_iff.1 hlost⟩

end Engine

end Codemod
