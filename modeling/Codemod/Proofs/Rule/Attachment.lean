/-
The program stays a tree.

The rules move nodes out of the expressions that they replace. A node
that has been moved is left out of what remains of its old place, and no
rule puts an expression into itself (`Step.site_not_mem`). So every
replacement leaves the trees of the workspace distinct
(`Step.distinct_after`), and with them all that is well formed: from a
parsed program on, after any rules in any order, and at every stage that
a rule passes through.
-/
import Codemod.Proofs.Rule.Parts
import Codemod.Proofs.Tree.Forest

namespace Codemod

open Relation

-- =============================================================== stages

namespace Sweep

/-- The workspaces that a sweep passes through. -/
def stagesOver (s : Sweep) (context : RuleContext) :
    List Nat → Workspace → List Workspace
  | [], w => [w]
  | i :: rest, w =>
    match w.findInProgram? i with
    | none => s.stagesOver context rest w
    | some c =>
      match s.replacement context c with
      | .error _ => [w]
      | .ok none => s.stagesOver context rest w
      | .ok (some new) =>
        match c.parent? with
        | none => [w]
        | some p => w :: s.stagesOver context rest (w.splice p.node c.node new)

/-- The workspaces that a run of the sweep passes through. -/
def stages (s : Sweep) (context : RuleContext) (w : Workspace) : List Workspace :=
  s.stagesOver context (s.candidates w) w

variable {s : Sweep} {context : RuleContext} {k : Symbol}

/-- The last stage is the outcome. -/
theorem getLast?_stagesOver (is : List Nat) (changed : Bool) (w : Workspace) :
    (s.stagesOver context is w).getLast? = some (s.visit context is changed w).1 := by
  induction is generalizing changed w with
  | nil => rfl
  | cons i is ih =>
      rw [stagesOver, visit]
      cases w.findInProgram? i with
      | none => exact ih changed w
      | some c =>
          simp only
          cases s.replacement context c with
          | error e => rfl
          | ok answer =>
              cases answer with
              | none => exact ih changed w
              | some new =>
                  cases c.parent? with
                  | none => rfl
                  | some p =>
                      have hlast := ih true (w.splice p.node c.node new)
                      simp only [List.getLast?_cons, hlast, Option.getD_some]

/-- A stage is reached by rewrites. -/
theorem reached_of_mem_stagesOver (hs : s.Keeps k) (hk : k ∈ siteSymbols)
    {is : List Nat} {w v : Workspace} (hw : w.Sound) (hall : w.AllOfKind k is)
    (hv : v ∈ s.stagesOver context is w) :
    ReflTransGen (s.Turns k context) w v := by
  induction is generalizing w with
  | nil =>
      obtain rfl := List.mem_singleton.1 hv
      exact .refl
  | cons i is ih =>
      have hrest : w.AllOfKind k is := fun j hj => hall j (List.mem_cons_of_mem _ hj)
      rw [stagesOver] at hv
      split at hv
      · exact ih hw hrest hv
      · next c hc =>
          obtain ⟨hmem, hid⟩ := Workspace.findInProgram?_eq_some hc
          have hck : c.is k = true :=
            (hall i List.mem_cons_self).2 c.node (Cursor.node_mem_walk hmem) hid
          split at hv
          · obtain rfl := List.mem_singleton.1 hv
            exact .refl
          · exact ih hw hrest hv
          · next new hnew =>
              split at hv
              · obtain rfl := List.mem_singleton.1 hv
                exact .refl
              · next p hp =>
                  have hstep : Step context.factoryNames k w ⟨c, new⟩ p :=
                    ⟨hw, hmem, hp, hck, hk,
                      hs.kept context c new (hw.stands hmem) hck hnew⟩
                  rcases List.mem_cons.1 hv with rfl | hv
                  · exact .refl
                  · exact .head (.intro hstep hnew)
                      (ih hstep.sound_after.1 (hstep.allOfKind_after hrest) hv)

end Sweep

/-- The workspaces that sweeps pass through. -/
def stagesOfSweeps (context : RuleContext) :
    List Sweep → Workspace → List Workspace
  | [], w => [w]
  | s :: rest, w =>
    s.stages context w ++
      match s.run context w with
      | (w', .ok _) => stagesOfSweeps context rest w'
      | (_, .error _) => []

/-- The workspaces that a rule passes through. -/
def Rule.stages (rule : Rule) (context : RuleContext) (w : Workspace) :
    List Workspace :=
  match rule.action with
  | .sweeps sweeps => stagesOfSweeps context sweeps w
  | .onProgram change => [w, (change w).1]

theorem getLast?_stagesOfSweeps {context : RuleContext} (sweeps : List Sweep)
    (changed : Bool) (w : Workspace) :
    (stagesOfSweeps context sweeps w).getLast?
      = some (runSweeps context sweeps changed w).1 := by
  induction sweeps generalizing changed w with
  | nil => rfl
  | cons s rest ih =>
      have hfirst : (s.stages context w).getLast? = some (s.run context w).1 :=
        Sweep.getLast?_stagesOver _ _ _
      rw [stagesOfSweeps, runSweeps]
      cases hr : s.run context w with
      | mk w' result =>
          rw [hr] at hfirst
          cases result with
          | ok b => simp only [List.getLast?_append, ih (changed || b) w', Option.some_or]
          | error f => simpa using hfirst

/-- The last workspace that a rule passes through is the one it leaves. -/
theorem Rule.getLast?_stages (rule : Rule) (context : RuleContext) (w : Workspace) :
    (rule.stages context w).getLast? = some (rule.apply context w).1 := by
  rw [stages, apply]
  cases rule.action with
  | sweeps sweeps => exact getLast?_stagesOfSweeps sweeps false w
  | onProgram change => rfl

theorem reached_of_mem_stagesOfSweeps {sweeps : List Sweep} {k : Symbol}
    {context : RuleContext} {w v : Workspace} (hk : k ∈ siteSymbols)
    (hs : ∀ s ∈ sweeps, s.Keeps k) (hw : w.Sound)
    (hv : v ∈ stagesOfSweeps context sweeps w) :
    ReflTransGen (SweepsTurn sweeps k context) w v := by
  induction sweeps generalizing w with
  | nil =>
      obtain rfl := List.mem_singleton.1 hv
      exact .refl
  | cons s rest ih =>
      rw [List.forall_mem_cons] at hs
      have hall := Sweep.allOfKind_candidates hs.1 hw
      have hturn : ∀ v v', s.Turns k context v v' →
          SweepsTurn (s :: rest) k context v v' :=
        fun _ _ h => ⟨s, List.mem_cons_self, h⟩
      have hrun : ReflTransGen (s.Turns k context) w (s.run context w).1 :=
        (Sweep.visit_spec hs.1 hk hw hall).reached
      rw [stagesOfSweeps, List.mem_append] at hv
      rcases hv with hv | hv
      · exact ReflTransGen.mono hturn _ _
          (Sweep.reached_of_mem_stagesOver hs.1 hk hw hall hv)
      · split at hv
        · next w' b hr =>
            rw [hr] at hrun
            refine (ReflTransGen.mono hturn _ _ hrun).trans ?_
            refine ReflTransGen.mono ?_ _ _
              (ih hs.2 (Sweep.sound_of_turns hw hrun) hv)
            rintro v v' ⟨t, ht, h⟩
            exact ⟨t, List.mem_cons_of_mem _ ht, h⟩
        · cases hv

-- ================================================== what rules keep apart

variable {rule : Rule} {context : RuleContext} {w w' v : Workspace}

/-- A rewrite of a built-in rule leaves the trees distinct. -/
theorem Step.distinct_after (h : rule ∈ Registry.builtin.rules)
    {sweeps : List Sweep} (haction : rule.action = .sweeps sweeps) {s : Sweep}
    (hs : s ∈ sweeps) {k : Symbol} {r : Rewrite} {p : Cursor}
    (hstep : Step context.factoryNames k w r p)
    (hr : s.replacement context r.site = .ok (some r.new)) (hw : w.Distinct) :
    (w.after r p).Distinct := by
  obtain ⟨i, hi⟩ := Option.isSome_iff_exists.1
    (hw.sound.isSome r.site.node (Cursor.node_mem_walk hstep.mem))
  exact hw.splice hstep.mem hstep.parent hi hstep.ids_taken
    (hstep.site_not_mem h haction hs hr hi) hstep.sound_after.1

theorem SweepsTurn.distinct (h : rule ∈ Registry.builtin.rules)
    {sweeps : List Sweep} (haction : rule.action = .sweeps sweeps) {k : Symbol}
    (hturn : SweepsTurn sweeps k context w w') (hw : w.Distinct) : w'.Distinct := by
  obtain ⟨s, hs, ⟨hstep, hr⟩⟩ := hturn
  exact hstep.distinct_after h haction hs hr hw

theorem Rules.distinct_dropUseStrict {is : List Nat} {changed : Bool}
    (hw : w.Distinct) (hp : w.program.is .program = true) :
    (dropUseStrict is changed w).1.Distinct := by
  induction is generalizing changed w with
  | nil => exact hw
  | cons i is ih =>
      rw [dropUseStrict]
      split
      · exact ih hw hp
      · next n hn =>
          split
          · exact ih hw hp
          · split
            · exact hw
            · refine ih (hw.dropStatement hp hn) ?_
              rw [dropStatement]
              split <;> exact hp
            · split
              · exact ih hw hp
              · exact hw

/-- Whatever stage a built-in rule passes through, the trees are
distinct. -/
theorem Rule.distinct_of_mem_stages (h : rule ∈ Registry.builtin.rules)
    (hw : w.Distinct) (hv : v ∈ rule.stages context w) : v.Distinct := by
  rcases Rule.keeps_of_mem h with ⟨k, hk, sweeps, haction, hsweeps⟩ | rfl
  · rw [Rule.stages, haction] at hv
    have hreached := reached_of_mem_stagesOfSweeps hk hsweeps hw.sound hv
    clear hv
    induction hreached with
    | refl => exact hw
    | tail _ hturn ih => exact hturn.distinct h haction ih
  · rw [Rule.stages, show Rules.useStrict.action = .onProgram Rules.relaxModule
      from rfl, List.mem_cons, List.mem_singleton] at hv
    rcases hv with rfl | rfl
    · exact hw
    · unfold Rules.relaxModule
      split
      · exact hw
      · next hp =>
          simp only [Bool.or_eq_true, Bool.not_eq_true', not_or,
            Bool.not_eq_false] at hp
          exact Rules.distinct_dropUseStrict hw hp.1

theorem Rule.distinct_apply (h : rule ∈ Registry.builtin.rules) (hw : w.Distinct) :
    (rule.apply context w).1.Distinct :=
  distinct_of_mem_stages h hw
    (List.mem_of_getLast? (rule.getLast?_stages context w))

-- ============================================================ every program

/-- What built-in rules that return make of a parsed program. -/
inductive Workspace.Reached : Workspace → Prop where
  | parsed {source : Text} {n : Node} : parse source = .ok n → Reached (.ofProgram n)
  | applied {w w' : Workspace} {rule : Rule} {context : RuleContext} {b : Bool} :
    Reached w → rule ∈ Registry.builtin.rules →
    rule.apply context w = (w', .ok b) → Reached w'

theorem Workspace.Reached.distinct (h : w.Reached) : w.Distinct := by
  induction h with
  | parsed hn => exact distinct_ofProgram hn
  | @applied w w' rule context b _ hrule happly ih =>
      have hnext : (rule.apply context w).1.Distinct := Rule.distinct_apply hrule ih
      rwa [happly] at hnext

/-- After any built-in rules the program is a tree whose nodes are those
attached to it, and it is one while the next rule goes on. -/
theorem Workspace.Reached.wellFormed_throughout (h : w.Reached) :
    w.WellFormed ∧ ∀ rule ∈ Registry.builtin.rules, ∀ context,
      ∀ v ∈ rule.stages context w, v.WellFormed :=
  ⟨h.distinct.wellFormed, fun _ hrule _ _ hv =>
    (Rule.distinct_of_mem_stages hrule h.distinct hv).wellFormed⟩

/-- The call of `closest` moves out of the factory call around it, and
the program is a tree before and after. -/
theorem Rules.showHide_leaves_tree :
    ∃ w : Workspace, w.Reached ∧ w.render = Text.ofString
        "a.closest('p').style.display = \"\"; $(b).hide;"
      ∧ w.WellFormed ∧ ∀ v ∈ showHide.stages .default w, v.WellFormed := by
  have hrule : showHide ∈ Registry.builtin.rules := List.mem_cons_self
  obtain ⟨n, hn, h⟩ := exists_of_parse_any
    (Text.ofString "$(a.closest('p')).show(); $(b).hide;")
    (fun n => (match (showHide.apply .default (.ofProgram n)).2 with
        | .ok b => b
        | .error _ => false)
      && (showHide.apply .default (.ofProgram n)).1.render == Text.ofString
        "a.closest('p').style.display = \"\"; $(b).hide;") (by decide +kernel)
  rw [Bool.and_eq_true, beq_iff_eq] at h
  cases happly : showHide.apply .default (.ofProgram n) with
  | mk w result =>
      rw [happly] at h
      cases result with
      | error f => cases h.1
      | ok b =>
          have hreached : w.Reached := .applied (.parsed hn) hrule happly
          have htree := hreached.wellFormed_throughout
          exact ⟨w, hreached, h.2, htree.1, htree.2 showHide hrule .default⟩

end Codemod
