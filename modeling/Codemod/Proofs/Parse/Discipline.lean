/-
The discipline of the parser's stack.

A production pushes trees and closes nodes around them, and it leaves
alone what was on the stack before. `Leads P p Q` says what a step makes
of the stack: from `P` it leads to `Q`, unless it fails.

Most productions only have to add proper trees to what was there (`At`),
with the literals in them spelled (`Node.Parsed`). An operand is exactly
one tree, behind the comments in front of it (`Sole`), and the parts of an
expression are put in a row (`InRow`), each operand in its role, until the
expression is closed around them.
-/
import Codemod.Parse.Source
import Codemod.Proofs.Parse.Literal

namespace Codemod.Parse

open Step

variable {src : List Char} {α β : Type}

/-- From states with `P` the step leads to states with `Q`, unless it
fails. -/
def Leads (P : Progress src → Prop) (p : Step src α)
    (Q : α → Progress src → Prop) : Prop :=
  ∀ s a s', p.run s = some (a, s') → P s → Q a s'

/-- The step reads ahead and changes nothing. -/
def Reads (p : Step src α) : Prop := ∀ s a s', p.run s = some (a, s') → s' = s

-- ============================================================== combining

section Combining

variable {P J R : Progress src → Prop} {Q : α → Progress src → Prop}
  {S : β → Progress src → Prop} {p : Step src α} {k : α → Step src β}

theorem run_bind_eq_some {s s' : Progress src} {b : β} :
    (p >>= k).run s = some (b, s')
      ↔ ∃ a t, p.run s = some (a, t) ∧ (k a).run t = some (b, s') := by
  rw [StateT.run_bind]
  constructor
  · intro h
    obtain ⟨⟨a, t⟩, hp, hk⟩ := Option.bind_eq_some_iff.1 h
    exact ⟨a, t, hp, hk⟩
  · rintro ⟨a, t, hp, hk⟩
    exact Option.bind_eq_some_iff.2 ⟨(a, t), hp, hk⟩

theorem Leads.bind (h : Leads P p Q) (hk : ∀ a, Leads (Q a) (k a) S) :
    Leads P (p >>= k) S := by
  intro s b s' hrun hs
  obtain ⟨a, t, hp, hk'⟩ := run_bind_eq_some.1 hrun
  exact hk a t b s' hk' (h s a t hp hs)

theorem Reads.bind (h : Reads p) (hk : ∀ a, Leads P (k a) S) :
    Leads P (p >>= k) S := by
  intro s b s' hrun hs
  obtain ⟨a, t, hp, hk'⟩ := run_bind_eq_some.1 hrun
  rw [h s a t hp] at hk'
  exact hk a s b s' hk' hs

/-- What is read of the state can be remembered. -/
theorem leads_get {k : Progress src → Step src β}
    (hk : ∀ s₀, Leads (fun s => P s ∧ s = s₀) (k s₀) S) :
    Leads P (get >>= k : Step src β) S := by
  intro s b s' hrun hs
  obtain ⟨a, t, hp, hk'⟩ := run_bind_eq_some.1 hrun
  rw [StateT.run_get] at hp
  obtain ⟨rfl, rfl⟩ := Prod.mk.inj (Option.some.inj hp)
  exact hk s s b s' hk' ⟨hs, rfl⟩

theorem Leads.and {Q' : α → Progress src → Prop} (h : Leads P p Q)
    (h' : Leads J p Q') : Leads (fun s => P s ∧ J s) p fun a s => Q a s ∧ Q' a s :=
  fun s a s' hrun hs => ⟨h s a s' hrun hs.1, h' s a s' hrun hs.2⟩

theorem leads_exists {γ : Type} {T : γ → Progress src → Prop} {H : γ → Prop}
    (h : ∀ x, H x → Leads (T x) p Q) : Leads (fun s => ∃ x, T x s ∧ H x) p Q := by
  rintro s a s' hrun ⟨x, hx, hH⟩
  exact h x hH s a s' hrun hx

theorem Reads.then (h : Reads p) (hk : ∀ a, Reads (k a)) : Reads (p >>= k) := by
  intro s b s' hrun
  obtain ⟨a, t, hp, hk'⟩ := run_bind_eq_some.1 hrun
  rw [h s a t hp] at hk'
  exact hk a s b s' hk'

theorem Reads.leads (h : Reads p) : Leads P p fun _ => P := by
  intro s a s' hrun hs
  rw [h s a s' hrun]
  exact hs

theorem reads_pure (a : α) : Reads (pure a : Step src α) := by
  intro s b s' h
  rw [StateT.run_pure] at h
  exact (Prod.mk.inj (Option.some.inj h)).2.symm

theorem reads_get : Reads (get : Step src (Progress src)) := by
  intro s b s' h
  rw [StateT.run_get] at h
  exact (Prod.mk.inj (Option.some.inj h)).2.symm

theorem leads_pure {a : α} (h : ∀ s, P s → Q a s) :
    Leads P (pure a : Step src α) Q := by
  intro s b s' hrun hs
  rw [StateT.run_pure] at hrun
  obtain ⟨rfl, rfl⟩ := Prod.mk.inj (Option.some.inj hrun)
  exact h s hs

theorem leads_failure : Leads P (failure : Step src α) Q := by
  intro s a s' hrun
  cases hrun

theorem leads_modify {f : Progress src → Progress src}
    (h : ∀ s, P s → R (f s)) : Leads P (modify f : Step src Unit) fun _ => R := by
  intro s a s' hrun hs
  rw [StateT.run_modify] at hrun
  rw [← (Prod.mk.inj (Option.some.inj hrun)).2]
  exact h s hs

theorem Leads.ite {c : Prop} [Decidable c] {q : Step src α} (h : Leads P p Q)
    (h' : Leads P q Q) : Leads P (if c then p else q) Q := by
  split
  · exact h
  · exact h'

theorem Leads.pre (h : Leads P p Q) (hJ : ∀ s, J s → P s) : Leads J p Q :=
  fun s a s' hrun hs => h s a s' hrun (hJ s hs)

theorem Leads.post {Q' : α → Progress src → Prop} (h : Leads P p Q)
    (hQ : ∀ a s, Q a s → Q' a s) : Leads P p Q' :=
  fun s a s' hrun hs => hQ a s' (h s a s' hrun hs)

/-- What is required holds from there on. -/
theorem leads_require {b : Bool} {k : Unit → Step src β}
    (hk : b = true → Leads P (k ()) S) : Leads P (require b >>= k) S := by
  cases b with
  | true =>
      intro s c s' hrun hs
      obtain ⟨_, t, hp, hk'⟩ := run_bind_eq_some.1 hrun
      rw [reads_pure () s _ t hp] at hk'
      exact hk rfl s c s' hk' hs
  | false =>
      intro s c s' hrun hs
      obtain ⟨_, t, hp, -⟩ := run_bind_eq_some.1 hrun
      cases hp

theorem reads_require (b : Bool) : Reads (require b : Step src Unit) := by
  cases b with
  | true => exact reads_pure ()
  | false =>
      intro s a s' h
      cases h

/-- What is tried happens, or nothing does. -/
theorem leads_attempt {q q' : Step src α} {p : Step src Bool}
    (h : Leads P p fun b s => b = true → R s) (ht : Leads R q Q)
    (hf : Leads P q' Q) :
    Leads P (attempt p >>= fun b => if b = true then q else q') Q := by
  intro s a s' hrun hs
  obtain ⟨b, t, hb, hk⟩ := run_bind_eq_some.1 hrun
  unfold attempt at hb
  rw [StateT.run] at hb
  split at hb
  · next t' ht' =>
      obtain ⟨rfl, rfl⟩ := Prod.mk.inj (Option.some.inj hb)
      exact ht t' a s' hk (h s true t' ht' hs rfl)
  · obtain ⟨rfl, rfl⟩ := Prod.mk.inj (Option.some.inj hb)
    exact hf s a s' hk hs

end Combining

-- =========================================================== reading ahead

section Reading

theorem reads_gap : Reads (gap : Step src Gap) :=
  reads_get.then fun _ => reads_pure _

theorem reads_peek : Reads (peek : Step src Lexeme) :=
  reads_gap.then fun _ => reads_pure _

theorem reads_peekSecond : Reads (peekSecond : Step src (Gap × Lexeme)) :=
  reads_gap.then fun _ => reads_pure _

theorem reads_sees (t : String) : Reads (sees t : Step src Bool) :=
  reads_peek.then fun _ => reads_pure _

theorem reads_seesAny (ts : List String) : Reads (seesAny ts : Step src Bool) :=
  reads_peek.then fun _ => reads_pure _

theorem reads_endsHere : Reads (endsHere : Step src Bool) :=
  reads_gap.then fun _ => reads_pure _

theorem reads_lastIsAny (ss : List Symbol) :
    Reads (lastIsAny ss : Step src Bool) := by
  refine reads_get.then fun s => ?_
  split
  · exact reads_pure _
  · exact reads_pure _

theorem reads_lookAhead (p : Step src Bool) : Reads (lookAhead p) := by
  intro s b s' h
  obtain ⟨s₁, t, hs, h⟩ := run_bind_eq_some.1 h
  rw [StateT.run_get] at hs
  obtain ⟨rfl, rfl⟩ := Prod.mk.inj (Option.some.inj hs)
  obtain ⟨c, u, -, h⟩ := run_bind_eq_some.1 h
  obtain ⟨_, v, hv, h⟩ := run_bind_eq_some.1 h
  rw [StateT.run_set] at hv
  obtain ⟨-, rfl⟩ := Prod.mk.inj (Option.some.inj hv)
  exact reads_pure c _ _ _ h

end Reading

-- ========================================================= closing nodes

theorem fits_unled {roles : List Role} {c : Node} {cs : List Node} {l : Text}
    (h : Node.Fits roles (c :: cs)) :
    Node.Fits roles (c.placed c.role l :: cs) := by
  have hs : Node.standsIn roles (c.placed c.role l) = Node.standsIn roles c := rfl
  refine ⟨?_, List.forall_mem_cons.2 ⟨?_, ?_⟩⟩
  · have hord := h.ordered
    rw [List.filter_cons] at hord ⊢
    rw [hs]
    split
    · next hc =>
        rw [if_pos hc] at hord
        exact hord
    · next hc =>
        rw [if_neg hc] at hord
        exact hord
  · exact h.others c List.mem_cons_self
  · exact fun d hd => h.others d (List.mem_cons_of_mem _ hd)

theorem is_gather (s : Symbol) (cs : List Node) : (Node.gather s cs).is s = true := by
  cases cs <;> simp [Node.gather, Node.branch, Node.placed, Node.is]

/-- A number is no node around others. -/
theorem token_gather {s : Symbol} {cs : List Node} (hs : s ∉ Node.leafSymbols) :
    (Node.gather s cs).IsToken := by
  intro hk
  obtain rfl : Symbol.number = s := by
    simpa [Node.is_iff.1 (is_gather s cs), eq_comm] using Node.is_iff.1 hk
  exact absurd (by decide) hs

/-- A node closed around its children is proper once they are and stand
where the kind of node has them; if it is a literal, it has to be spelled. -/
theorem parsed_gather {s : Symbol} {cs : List Node} (hs : s ∉ Node.leafSymbols)
    (hparts : ∀ roles, Node.partRoles? s = some roles → Node.Fits roles cs)
    (ht : s = .templateString →
      ∀ c ∈ cs, c.is .templateSubstitution = false → c.isMute = true)
    (hcs : ∀ c ∈ cs, c.Parsed) (hspelled : (Node.gather s cs).Spelled) :
    (Node.gather s cs).Parsed := by
  have hlexed : (Node.gather s cs).Lexed := ⟨hspelled, token_gather hs⟩
  cases cs with
  | nil =>
      refine ⟨Node.proper_of_role (Node.shaped_branch hs hparts ht fun c hc =>
        (hcs c hc).toProper) rfl, Node.every_iff.2 ⟨hlexed, ?_⟩⟩
      exact List.forall_mem_nil _
  | cons c cs =>
      rw [List.forall_mem_cons] at hcs
      refine ⟨Node.proper_placed (Node.shaped_branch hs ?_ ?_ ?_) rfl,
        Node.every_iff.2 ⟨hlexed, ?_⟩⟩
      · exact fun roles hr => fits_unled (hparts roles hr)
      · intro hst
        have := ht hst
        rw [List.forall_mem_cons] at this ⊢
        exact this
      · rw [List.forall_mem_cons]
        exact ⟨⟨Node.shaped_placed.2 hcs.1.shaped, hcs.1.inPlace.placed⟩,
          fun d hd => (hcs.2 d hd).toProper⟩
      · refine List.forall_mem_cons.2 ⟨Node.everyLexed_placed hcs.1.lexed, ?_⟩
        exact fun d hd => (hcs.2 d hd).lexed

theorem spelled_gather {s : Symbol} {cs : List Node}
    (hs : s ∉ [.string, .templateString]) : (Node.gather s cs).Spelled := by
  intro _ hk
  obtain ⟨t, ht, hkind⟩ := Node.isAny_iff.1 hk
  obtain rfl : s = t := by
    simpa [hkind, eq_comm] using Node.is_iff.1 (is_gather s cs)
  exact absurd ht hs

/-- The kinds of node that anything proper can be part of. -/
def IsPlain (s : Symbol) : Prop :=
  s ∉ .templateString :: Node.leafSymbols ∧ Node.partRoles? s = none

instance (s : Symbol) : Decidable (IsPlain s) :=
  inferInstanceAs (Decidable (_ ∧ _))

theorem IsPlain.not_literal {s : Symbol} (h : IsPlain s) :
    s ∉ [.string, .templateString, .number] := by
  simp only [List.mem_cons, List.not_mem_nil, or_false]
  rintro (rfl | rfl | rfl)
  · cases h.2
  · exact h.1 List.mem_cons_self
  · exact h.1 (by decide)

theorem IsPlain.parsed_gather {s : Symbol} (h : IsPlain s) {cs : List Node}
    (hcs : ∀ c ∈ cs, c.Parsed) : (Node.gather s cs).Parsed := by
  have hliteral := h.not_literal
  obtain ⟨hs, hparts⟩ := h
  rw [List.mem_cons, not_or] at hs
  refine Parse.parsed_gather hs.2 (fun roles hr => ?_) (fun ht => absurd ht hs.1) hcs
    (spelled_gather fun hmem => hliteral (List.mem_append_left [Symbol.number] hmem))
  rw [hparts] at hr
  cases hr

-- ============================================================== targets

theorem asTargets_eq (cs : List Node) : Node.asTargets cs = cs.map Node.asTarget := by
  induction cs with
  | nil => rfl
  | cons c cs ih => rw [Node.asTargets, List.map_cons, ih]

/-- A shorthand property read as a part of a pattern. -/
def asShorthand (n : Node) : Node :=
  { n with kind := .symbol .shorthandPropertyIdentifierPattern }

/-- Reading a node as a target leaves it alone, or changes its kind to a
plain one and reads its children as targets, if anything. -/
theorem asTarget_cases (n : Node) : n.asTarget = n
    ∨ (n.is .shorthandPropertyIdentifier = true ∧ n.asTarget = asShorthand n)
    ∨ ∃ s cs, IsPlain s ∧ s ∉ effectSymbols
      ∧ n.asTarget = { n with kind := .symbol s, children := cs }
      ∧ (cs = n.children ∨ cs = n.children.map Node.asTarget) := by
  obtain ⟨i, k, b, r, l, t, cs, z⟩ := n
  cases k with
  | word w => exact Or.inl rfl
  | symbol s =>
      rw [Node.asTarget, asTargets_eq]
      cases s
      case shorthandPropertyIdentifier =>
        exact Or.inr (Or.inl ⟨by simp [Node.is], rfl⟩)
      case object =>
        exact Or.inr (Or.inr ⟨.objectPattern, _, by decide, by decide, rfl, Or.inr rfl⟩)
      case array =>
        exact Or.inr (Or.inr ⟨.arrayPattern, _, by decide, by decide, rfl, Or.inr rfl⟩)
      case spreadElement =>
        exact Or.inr (Or.inr ⟨.restPattern, _, by decide, by decide, rfl, Or.inr rfl⟩)
      case pair =>
        exact Or.inr (Or.inr ⟨.pairPattern, _, by decide, by decide, rfl, Or.inr rfl⟩)
      case assignmentExpression =>
        exact Or.inr (Or.inr ⟨.assignmentPattern, _, by decide, by decide, rfl,
          Or.inl rfl⟩)
      all_goals exact Or.inl rfl

theorem role_asTarget (n : Node) : n.asTarget.role = n.role := by
  rcases asTarget_cases n with h | ⟨-, h⟩ | ⟨s, cs, -, -, h, -⟩ <;> rw [h]
  rfl

theorem isMute_asTarget {n : Node} (h : n.isMute = true) :
    n.asTarget.isMute = true := by
  have hnil : n.children = [] := by
    rw [Node.isMute, Bool.and_eq_true, List.isEmpty_iff] at h
    exact h.1
  have hmute : ∀ s ∉ effectSymbols,
      ({ n with kind := .symbol s, children := [] } : Node).isMute = true := by
    intro s hs
    have hany : (Kind.symbol s).isAny effectSymbols = false := by
      rw [Kind.isAny, List.any_eq_false]
      rintro t ht heq
      obtain rfl : s = t := by simpa using heq
      exact hs ht
    simp [Node.isMute, Node.isEffect, isEffectKind, hany]
  rcases asTarget_cases n with heq | ⟨-, heq⟩ | ⟨s, cs, -, hs, heq, hcs⟩
  · rw [heq]
    exact h
  · have hshort := hmute .shorthandPropertyIdentifierPattern (by decide)
    rw [heq]
    rwa [← hnil] at hshort
  · obtain rfl : cs = [] := by
      rcases hcs with rfl | rfl
      · exact hnil
      · rw [hnil, List.map_nil]
    rw [heq]
    exact hmute s hs

/-- Parameters are no target and stay what they are. -/
theorem inPlace_asTarget {n : Node} (h : n.InPlace) : n.asTarget.InPlace := by
  intro test htest
  rw [role_asTarget] at htest
  have hpass := h test htest
  unfold Node.roleTest? at htest
  split at htest
  · obtain rfl := Option.some.inj htest
    obtain ⟨i, k, b, r, l, t, cs, z⟩ := n
    obtain rfl : k = .symbol .formalParameters := Node.is_iff.1 hpass
    rfl
  · obtain rfl := Option.some.inj htest
    exact isMute_asTarget hpass
  · cases htest

/-- A plain kind can be given to any node that is formed. -/
theorem formed_with_kind {n : Node} {s : Symbol} {cs : List Node}
    (h : n.Formed) (hs : IsPlain s) (hnil : n.children = [] → cs = [])
    (hin : ∀ c ∈ cs, c.InPlace) :
    ({ n with kind := .symbol s, children := cs } : Node).Formed := by
  obtain ⟨hleaf, hparts⟩ := hs
  rw [List.mem_cons, not_or] at hleaf
  refine ⟨fun hatom => hnil (h.plain ?_), fun ht => hnil (h.worded ht),
    fun t roles hk hr => ?_, fun ht => ?_, hin⟩
  · -- the new kind is that of no leaf, so the node is a bare token
    have hnamed : n.named = false := by
      rw [Bool.eq_false_iff]
      intro hnamed
      refine hleaf.2 ?_
      simpa [Node.isAtom, Node.isOperand, Node.isAny, Kind.isAny, Node.is, hnamed,
        Node.leafSymbols] using hatom
    rw [Node.isAtom, Node.isOperand, hnamed]
    rfl
  · obtain rfl : s = t := by simpa using hk
    rw [hparts] at hr
    cases hr
  · exact absurd (by simpa [Node.is] using ht) hleaf.1

theorem shaped_asTarget {n : Node} (h : n.Shaped) : n.asTarget.Shaped := by
  induction n using Node.ind with
  | h n ih =>
      rcases asTarget_cases n with heq | ⟨hk, heq⟩ | ⟨s, cs, hs, -, heq, hcs⟩
      · rw [heq]
        exact h
      · rw [heq]
        refine Node.shaped_of_children_nil (h.formed.plain ?_)
        rw [Node.isAtom, Node.isAny, Node.atomSymbols]
        simp [hk]
      · rw [heq, Node.shaped_iff]
        have hin := h.formed.inPlace
        rcases hcs with rfl | rfl
        · exact ⟨formed_with_kind h.formed hs id hin, fun c hc => h.of_mem_children hc⟩
        · constructor
          · refine formed_with_kind h.formed hs (fun hnil => by rw [hnil]; rfl) ?_
            rw [List.forall_mem_map]
            exact fun c hc => inPlace_asTarget (hin c hc)
          · rw [List.forall_mem_map]
            exact fun c hc => ih c hc (h.of_mem_children hc)

/-- No target is a literal, and literals stay what they are. -/
theorem everyLexed_asTarget {n : Node} (h : n.Every Node.Lexed) :
    n.asTarget.Every Node.Lexed := by
  induction n using Node.ind with
  | h n ih =>
      rcases asTarget_cases n with heq | ⟨-, heq⟩ | ⟨s, cs, hs, -, heq, hcs⟩
      · rw [heq]
        exact h
      · rw [heq]
        rw [Node.every_iff] at h ⊢
        exact ⟨Node.lexed_of_kind rfl, h.2⟩
      · rw [heq]
        rw [Node.every_iff] at h ⊢
        refine ⟨Node.lexed_of_kind ?_, ?_⟩
        · rw [Bool.eq_false_iff]
          intro hk
          obtain ⟨t, ht, hkind⟩ := Node.isAny_iff.1 hk
          obtain rfl : s = t := by simpa using hkind
          exact hs.not_literal ht
        · rcases hcs with rfl | rfl
          · exact h.2
          · exact List.forall_mem_map.2 fun c hc => ih c hc (h.2 c hc)

theorem parsed_asTarget {n : Node} (h : n.Parsed) : n.asTarget.Parsed :=
  ⟨⟨shaped_asTarget h.shaped, inPlace_asTarget h.inPlace⟩, everyLexed_asTarget h.lexed⟩

-- ============================================================== the stack

/-- The stack is as given. -/
def Is (base : List Node) (s : Progress src) : Prop := s.trees = base

/-- Above `base` there are proper trees; some, if `b` says so. -/
def At (base : List Node) (b : Bool) (s : Progress src) : Prop :=
  ∃ ts, s.trees = ts ++ base ∧ (∀ t ∈ ts, t.Parsed) ∧ (b = true → ts ≠ [])

/-- The node holds nothing, does nothing and has no role. -/
structure Idle (n : Node) : Prop where
  mute : n.isMute = true
  role : n.role = none
  parsed : n.Parsed

/-- Above `base` there is one tree, behind comments. -/
def Sole (base : List Node) (s : Progress src) : Prop :=
  ∃ x cs, s.trees = x :: (cs ++ base) ∧ x.Parsed ∧ ∀ c ∈ cs, Idle c

/-- Above `base` there is one tree, of the given kind. -/
def Closed (sym : Symbol) (base : List Node) (s : Progress src) : Prop :=
  ∃ x, s.trees = x :: base ∧ x.Parsed ∧ x.is sym = true

/-- The last tree is of the given kind. -/
def TopIs (sym : Symbol) (s : Progress src) : Prop :=
  ∃ x, s.trees.head? = some x ∧ x.is sym = true

section Stack

variable {base : List Node} {b : Bool} {s : Progress src} {sym : Symbol}

theorem Is.at (h : Is base s) : At base false s :=
  ⟨[], h, by simp, fun h => by cases h⟩

theorem At.of_true (h : At base true s) : At base b s := by
  obtain ⟨ts, hts, hp, hne⟩ := h
  exact ⟨ts, hts, hp, fun _ => hne rfl⟩

theorem At.push {x : Node} (h : At base b s) {s' : Progress src}
    (hs : s'.trees = x :: s.trees) (hx : x.Parsed) : At base true s' := by
  obtain ⟨ts, hts, hp, -⟩ := h
  refine ⟨x :: ts, by rw [hs, hts, List.cons_append], ?_,
    fun _ => List.cons_ne_nil _ _⟩
  exact List.forall_mem_cons.2 ⟨hx, hp⟩

theorem Sole.at (h : Sole base s) : At base b s := by
  obtain ⟨x, cs, hts, hx, hcs⟩ := h
  refine ⟨x :: cs, hts, ?_, fun _ => List.cons_ne_nil _ _⟩
  exact List.forall_mem_cons.2 ⟨hx, fun c hc => (hcs c hc).parsed⟩

theorem Closed.sole (h : Closed sym base s) : Sole base s := by
  obtain ⟨x, hts, hx, -⟩ := h
  exact ⟨x, [], hts, hx, by simp⟩

theorem Closed.topIs (h : Closed sym base s) : TopIs sym s := by
  obtain ⟨x, hts, -, hk⟩ := h
  exact ⟨x, by rw [hts]; rfl, hk⟩

/-- Comments in front of a node belong to what is around it. -/
theorem Sole.behind {cs : List Node} (h : Sole (cs ++ base) s)
    (hcs : ∀ c ∈ cs, Idle c) : Sole base s := by
  obtain ⟨x, ds, hts, hx, hds⟩ := h
  refine ⟨x, ds ++ cs, by rw [hts, List.append_assoc], hx, fun c hc => ?_⟩
  rcases List.mem_append.1 hc with hc | hc
  · exact hds c hc
  · exact hcs c hc

/-- What is added on top of what was added. -/
theorem At.above {ts : List Node} (h : At (ts ++ base) b s)
    (hts : ∀ t ∈ ts, t.Parsed) : At base b s := by
  obtain ⟨us, hus, hp, hne⟩ := h
  refine ⟨us ++ ts, by rw [hus, List.append_assoc], fun t ht => ?_, fun hb => ?_⟩
  · rcases List.mem_append.1 ht with ht | ht
    · exact hp t ht
    · exact hts t ht
  · exact List.append_ne_nil_of_left_ne_nil (hne hb) _

end Stack

-- =================================================================== rows

/-- Each operand so far in its role, in the order given; beside them only
what may stand between operands. -/
structure Row (ok : Node → Bool) (roles placed : List Role) (ts : List Node) :
    Prop where
  parsed : ∀ t ∈ ts, t.Parsed
  order : (ts.reverse.filter (Node.standsIn roles)).filterMap (·.role) = placed
  others : ∀ t ∈ ts, Node.standsIn roles t = false → ok t = true

section Rows

variable {ok : Node → Bool} {roles placed : List Role} {ts cs : List Node}
  {x : Node}

theorem row_nil : Row ok roles [] [] := ⟨by simp, rfl, by simp⟩

theorem not_standsIn_of_role (h : ∀ r ∈ roles, x.role ≠ some r) :
    Node.standsIn roles x = false := by
  rw [Bool.eq_false_iff]
  intro hs
  obtain ⟨r, hr, hn⟩ := Node.standsIn_iff.1 hs
  exact h r hr hn

/-- One more tree that is no operand. -/
theorem Row.cons (h : Row ok roles placed ts) (hx : x.Parsed)
    (hr : ∀ r ∈ roles, x.role ≠ some r) (hok : ok x = true) :
    Row ok roles placed (x :: ts) := by
  have hs := not_standsIn_of_role hr
  refine ⟨List.forall_mem_cons.2 ⟨hx, h.parsed⟩, ?_,
    List.forall_mem_cons.2 ⟨fun _ => hok, h.others⟩⟩
  rw [List.reverse_cons, List.filter_append, List.filter_cons, hs]
  simpa using h.order

/-- One more operand, in its role. -/
theorem Row.part {r : Role} (h : Row ok roles placed ts) (hx : x.Parsed)
    (hr : r ∈ roles) (hxr : x.role = some r) :
    Row ok roles (placed ++ [r]) (x :: ts) := by
  have hs : Node.standsIn roles x = true := Node.standsIn_iff.2 ⟨r, hr, hxr⟩
  refine ⟨List.forall_mem_cons.2 ⟨hx, h.parsed⟩, ?_,
    List.forall_mem_cons.2 ⟨fun hno => ?_, h.others⟩⟩
  · rw [List.reverse_cons, List.filter_append, List.filter_cons, hs,
      List.filterMap_append, h.order]
    simp [hxr]
  · rw [hs] at hno
    cases hno

theorem Row.comments (h : Row ok roles placed ts) (hcs : ∀ c ∈ cs, Idle c)
    (hok : ∀ c, Node.isMute c = true → ok c = true) :
    Row ok roles placed (cs ++ ts) := by
  induction cs with
  | nil => exact h
  | cons c cs ih =>
      rw [List.forall_mem_cons] at hcs
      refine (ih hcs.2).cons hcs.1.parsed (fun r _ hr => ?_) (hok c hcs.1.mute)
      rw [hcs.1.role] at hr
      cases hr

end Rows

/-- Above `base` there is a row. -/
def InRow (ok : Node → Bool) (roles placed : List Role) (base : List Node)
    (s : Progress src) : Prop :=
  ∃ ts, s.trees = ts ++ base ∧ Row ok roles placed ts

/-- Above `base` there is a row, and above the row an operand that has not
got its role yet. -/
def Pending (ok : Node → Bool) (roles placed : List Role) (base : List Node)
    (s : Progress src) : Prop :=
  ∃ x ts, s.trees = x :: (ts ++ base) ∧ x.Parsed ∧ Row ok roles placed ts

section

variable {ok : Node → Bool} {roles placed : List Role} {base : List Node}
  {s : Progress src}

theorem Is.inRow (h : Is base s) : InRow ok roles [] base s := ⟨[], h, row_nil⟩

theorem InRow.at (h : InRow ok roles placed base s) : At base false s := by
  obtain ⟨ts, hts, hrow⟩ := h
  exact ⟨ts, hts, hrow.parsed, fun h => by cases h⟩

theorem leads_of_row {p : Step src α} {Q : α → Progress src → Prop}
    (h : ∀ ts, Row ok roles placed ts → Leads (Is (ts ++ base)) p Q) :
    Leads (InRow ok roles placed base) p Q := by
  rintro s a s' hrun ⟨ts, hts, hrow⟩
  exact h ts hrow s a s' hrun hts

theorem Sole.pending (h : Sole base s) : Pending Node.isMute roles [] base s := by
  obtain ⟨x, cs, hts, hx, hcs⟩ := h
  have hrow : Row Node.isMute roles [] (cs ++ []) :=
    row_nil.comments hcs fun _ h => h
  rw [List.append_nil] at hrow
  exact ⟨x, cs, hts, hx, hrow⟩

end

-- ========================================================= kinds of steps

/-- The step adds proper trees, if anything. -/
def Grows (p : Step src α) : Prop :=
  ∀ base b, Leads (At base b) p fun _ => At base b

/-- The step adds at least one proper tree. -/
def Puts (p : Step src α) : Prop :=
  ∀ base b, Leads (At base b) p fun _ => At base true

/-- The step adds one proper tree, behind comments. -/
def Yields (p : Step src α) : Prop :=
  ∀ base, Leads (Is base) p fun _ => Sole base

/-- The step adds one proper tree of the given kind, behind comments. -/
def YieldsA (sym : Symbol) (p : Step src α) : Prop :=
  ∀ base, Leads (Is base) p fun _ s => Sole base s ∧ TopIs sym s

section Kinds

variable {base : List Node} {b : Bool} {p : Step src α} {k : α → Step src β}
  {Q : β → Progress src → Prop} {sym : Symbol}

theorem Puts.grows (h : Puts p) : Grows p :=
  fun base b => (h base b).post fun _ _ => At.of_true

theorem Yields.puts (h : Yields p) : Puts p := by
  intro base b s a s' hrun hs
  obtain ⟨ts, hts, hp, -⟩ := hs
  exact (h (ts ++ base) s a s' hrun hts).at.above hp

theorem YieldsA.puts (h : YieldsA sym p) (base : List Node) (b : Bool) :
    Leads (At base b) p fun _ s => At base true s ∧ TopIs sym s := by
  intro s a s' hrun hs
  obtain ⟨ts, hts, hp, -⟩ := hs
  obtain ⟨hsole, htop⟩ := h (ts ++ base) s a s' hrun hts
  exact ⟨hsole.at.above hp, htop⟩

theorem Grows.bind (h : Grows p) (hk : ∀ a, Leads (At base b) (k a) Q) :
    Leads (At base b) (p >>= k) Q :=
  Leads.bind (h base b) hk

theorem Puts.bind (h : Puts p) (hk : ∀ a, Leads (At base true) (k a) Q) :
    Leads (At base b) (p >>= k) Q :=
  Leads.bind (h base b) hk

theorem Yields.bind (h : Yields p) (hk : ∀ a, Leads (Sole base) (k a) Q) :
    Leads (Is base) (p >>= k) Q :=
  Leads.bind (h base) hk

end Kinds

-- ================================================================= steps

section Steps

variable {base : List Node} {b : Bool} {p : Step src α} {k : Nat → Step src α}
  {Q : α → Progress src → Prop} {sym : Symbol} {r : Role}
  {ok : Node → Bool} {roles placed : List Role}

/-- A leaf as it is pushed. -/
structure IsLeaf (named : Bool) (role : Option Role) (n : Node) : Prop where
  children : n.children = []
  named : n.named = named
  role : n.role = role

theorem IsLeaf.parsed_of_lexed {named : Bool} {role : Option Role} {n : Node}
    (h : IsLeaf named role n) (hr : Node.roleTest? role = none) (hl : n.Lexed) :
    n.Parsed :=
  Node.parsed_of_lexed (Node.proper_of_role (Node.shaped_of_children_nil h.children)
    (by rw [h.role]; exact hr)) h.children hl

theorem IsLeaf.parsed {named : Bool} {role : Option Role} {n : Node}
    (h : IsLeaf named role n) (hr : Node.roleTest? role = none)
    (hk : Node.isLiteralKind n.kind named = false) : n.Parsed :=
  h.parsed_of_lexed hr (Node.lexed_of_isLiteralKind (by rw [h.named]; exact hk))

theorem trees_push (kind : Kind) (named : Bool) (role : Option Role)
    (blank len : Nat) (s : Progress src) :
    ∃ x, (s.push kind named role blank len).trees = x :: s.trees
      ∧ IsLeaf named role x ∧ x.kind = kind :=
  ⟨_, rfl, ⟨rfl, rfl, rfl⟩, rfl⟩

theorem trees_push_code (kind : Kind) (named : Bool) (role : Option Role)
    (blank len : Nat) (s : Progress src) :
    ∃ x, (s.push kind named role blank len).trees = x :: s.trees
      ∧ IsLeaf named role x ∧ x.kind = kind
      ∧ x.code = Text.ofChars ((s.rest.drop blank).take len)
      ∧ x.lead = Text.ofChars (s.rest.take blank) :=
  ⟨_, rfl, ⟨rfl, rfl, rfl⟩, rfl, by rw [Node.code], rfl⟩

theorem comments_spec (fuel : Nat) (s : Progress src) :
    ∃ cs, (s.comments fuel).trees = cs ++ s.trees ∧ ∀ c ∈ cs, Idle c := by
  induction fuel generalizing s with
  | zero => exact ⟨[], rfl, by simp⟩
  | succ fuel ih =>
      unfold Progress.comments
      simp only
      split
      · exact ⟨[], rfl, by simp⟩
      · obtain ⟨cs, hcs, hidle⟩ := ih (s.push Symbol.comment true none
          (runLength isGap s.rest)
          (commentLength (s.rest.drop (runLength isGap s.rest))))
        refine ⟨cs ++ [_], by rw [hcs, List.append_assoc]; rfl, fun c hc => ?_⟩
        rcases List.mem_append.1 hc with hc | hc
        · exact hidle c hc
        · obtain rfl := List.mem_singleton.1 hc
          exact ⟨rfl, rfl, Node.parsed_of_leaf
            (Node.proper_of_role (Node.shaped_of_children_nil rfl) rfl) rfl rfl⟩

/-- The comments in front of the next token have been read. -/
def Settled (s : Progress src) : Prop :=
  commentLength (s.rest.drop (runLength isGap s.rest)) = 0

theorem settled_comments {fuel : Nat} {s : Progress src} (h : s.rest.length ≤ fuel) :
    Settled (s.comments fuel) := by
  induction fuel generalizing s with
  | zero =>
      have hnil : s.rest = [] := List.eq_nil_of_length_eq_zero (Nat.le_zero.1 h)
      rw [Progress.comments, Settled, hnil]
      rfl
  | succ fuel ih =>
      unfold Progress.comments
      simp only
      split
      · next hn => exact hn
      · next hn =>
          refine ih ?_
          simp only [Progress.push, List.length_drop]
          omega

theorem flush_of_settled {s : Progress src} (h : Settled s) : s.flush = s := by
  unfold Progress.flush
  cases s.rest.length with
  | zero => rfl
  | succ fuel =>
      unfold Progress.comments
      exact if_pos h

theorem settled_flush (s : Progress src) : Settled s.flush :=
  settled_comments (Nat.le_refl _)

/-- The next token. -/
def Progress.next (s : Progress src) : Lexeme :=
  Lexeme.read (Gap.read s.rest).rest

theorem drop_runLength (p : Char → Bool) (cs : List Char) :
    cs.drop (runLength p cs) = cs.dropWhile p := by
  have h : (cs.takeWhile p ++ cs.dropWhile p).drop (cs.takeWhile p).length
      = cs.dropWhile p := List.drop_left
  rwa [List.takeWhile_append_dropWhile] at h

/-- Looking past the comments finds what is found when they are read. -/
theorem rest_skip {fuel : Nat} {newline : Bool} {s : Progress src}
    (h : s.rest.length ≤ fuel) : (Gap.skip (fuel + 1) newline s.rest).rest
      = (s.comments fuel).rest.drop (runLength isGap (s.comments fuel).rest) := by
  induction fuel generalizing s newline with
  | zero =>
      have hnil : s.rest = [] := List.eq_nil_of_length_eq_zero (Nat.le_zero.1 h)
      rw [Progress.comments, hnil]
      rfl
  | succ fuel ih =>
      rw [Gap.skip, Progress.comments]
      simp only [← drop_runLength]
      split
      · rfl
      · next hn =>
          refine @ih _ (s.push _ _ _ _ _) ?_
          simp only [Progress.push, List.length_drop]
          omega

theorem next_eq (s : Progress src) : s.next
    = Lexeme.read (s.flush.rest.drop (runLength isGap s.flush.rest)) :=
  congrArg Lexeme.read (rest_skip (Nat.le_refl _))

theorem next_flush (s : Progress src) : s.flush.next = s.next := by
  rw [next_eq, next_eq, flush_of_settled (settled_flush s)]

theorem flush_spec (s : Progress src) :
    ∃ cs, s.flush.trees = cs ++ s.trees ∧ ∀ c ∈ cs, Idle c :=
  comments_spec _ s

/-- The next token is known from there on. -/
theorem leads_peek {P : Progress src → Prop} {k : Lexeme → Step src α}
    (h : ∀ l, Leads (fun s => P s ∧ s.next = l) (k l) Q) : Leads P (peek >>= k) Q := by
  intro s a s' hrun hs
  obtain ⟨l, t, hl, hk⟩ := run_bind_eq_some.1 hrun
  obtain rfl := reads_peek s l t hl
  obtain rfl : t.next = l := (Prod.mk.inj (Option.some.inj hl)).1
  exact h _ t a s' hk ⟨hs, rfl⟩

-- ---------------------------------------------------------------- tokens

/-- A token is read as one leaf, behind the comments in front of it, and
its characters are the code of the leaf. -/
theorem leads_take_code (kind : String → Kind) (named : Bool) (role : Option Role)
    {l : Lexeme} :
    Leads (fun s => Is base s ∧ s.next = l) (take kind named role : Step src Unit)
      fun _ s => ∃ x cs rest, s.trees = x :: (cs ++ base) ∧ IsLeaf named role x
        ∧ x.kind = kind l.text ∧ (∀ c ∈ cs, Idle c) ∧ Lexeme.read rest = l
        ∧ x.code = Text.ofChars (rest.take l.length) := by
  unfold take
  refine Leads.bind (Q := fun _ s => (∃ cs, s.trees = cs ++ base ∧ ∀ c ∈ cs, Idle c)
      ∧ Lexeme.read (s.rest.drop (runLength isGap s.rest)) = l)
    (fun s a s' hrun hs => ?_) fun _ => ?_
  · rw [StateT.run_modify] at hrun
    rw [← (Prod.mk.inj (Option.some.inj hrun)).2, ← hs.1, ← hs.2]
    exact ⟨flush_spec s, (next_eq s).symm⟩
  · refine leads_get fun s₁ => leads_get fun s₂ => (reads_require _).bind fun _ =>
      leads_modify ?_
    rintro s ⟨⟨⟨⟨cs, hts, hcs⟩, hl⟩, rfl⟩, rfl⟩
    subst hl
    refine ⟨_, cs, _, by rw [← hts]; rfl, ⟨rfl, rfl, rfl⟩, rfl, hcs, rfl, ?_⟩
    rw [Node.code]

/-- A token is read as one leaf, behind the comments in front of it. -/
theorem leads_take (kind : String → Kind) (named : Bool) (role : Option Role) :
    Leads (Is base) (take kind named role : Step src Unit) fun _ s =>
      ∃ x cs, s.trees = x :: (cs ++ base) ∧ IsLeaf named role x
        ∧ (∃ t, x.kind = kind t) ∧ ∀ c ∈ cs, Idle c := by
  intro s a s' hrun hs
  obtain ⟨x, cs, -, hts, hleaf, hk, hcs, -⟩ :=
    leads_take_code kind named role s a s' hrun ⟨hs, rfl⟩
  exact ⟨x, cs, hts, hleaf, ⟨_, hk⟩, hcs⟩

theorem yields_take (kind : String → Kind) (named : Bool) {role : Option Role}
    (hr : Node.roleTest? role = none)
    (hk : ∀ t, Node.isLiteralKind (kind t) named = false) :
    Yields (take kind named role : Step src Unit) := by
  intro base
  refine (leads_take kind named role).post fun _ s hs => ?_
  obtain ⟨x, cs, hts, hleaf, ⟨t, ht⟩, hcs⟩ := hs
  exact ⟨x, cs, hts, hleaf.parsed hr (ht ▸ hk t), hcs⟩

/-- A token of this kind is neither an effect nor a literal. -/
def isBareKind (k : Kind) (named : Bool) : Bool :=
  !(isEffectKind k named || Node.isLiteralKind k named)

theorem isBareKind_iff {k : Kind} {named : Bool} : isBareKind k named = true
    ↔ isEffectKind k named = false ∧ Node.isLiteralKind k named = false := by
  rw [isBareKind, Bool.not_eq_true', Bool.or_eq_false_iff]

/-- A token that is no operand can stand in a row. -/
theorem leads_take_row {kind : String → Kind} {named : Bool} {role : Option Role}
    (hkind : ∀ t, isBareKind (kind t) named = true)
    (hr : Node.roleTest? role = none) (hno : ∀ r ∈ roles, role ≠ some r)
    (hok : ∀ c, Node.isMute c = true → ok c = true) :
    Leads (InRow ok roles placed base) (take kind named role : Step src Unit)
      fun _ => InRow ok roles placed base := by
  intro s a s' hrun hs
  obtain ⟨ts, hts, hrow⟩ := hs
  obtain ⟨x, cs, hts', hleaf, ⟨t, ht⟩, hcs⟩ :=
    leads_take kind named role s a s' hrun hts
  refine ⟨x :: (cs ++ ts), by rw [hts', List.cons_append, List.append_assoc], ?_⟩
  have hbare := isBareKind_iff.1 (ht ▸ hkind t)
  refine (hrow.comments hcs hok).cons (hleaf.parsed hr hbare.2) ?_ (hok x ?_)
  · rw [hleaf.role]
    exact hno
  · rw [Node.isMute, hleaf.children, Node.isEffect, hleaf.named, hbare.1]
    rfl

theorem yields_leaf (sym : Symbol) {role : Option Role}
    (hr : Node.roleTest? role = none)
    (hk : Node.isLiteralKind sym true = false) :
    Yields (leaf sym role : Step src Unit) :=
  yields_take _ _ hr fun _ => hk

theorem puts_leaf (sym : Symbol) {role : Option Role}
    (hr : Node.roleTest? role = none)
    (hk : Node.isLiteralKind sym true = false) :
    Puts (leaf sym role : Step src Unit) :=
  (yields_leaf sym hr hk).puts

theorem read_number {cs : List Char} (h : (Lexeme.read cs).shape = .number) :
    0 < numberLength cs ∧ (Lexeme.read cs).length = numberLength cs := by
  cases cs with
  | nil => cases h
  | cons c cs =>
      generalize hl : Lexeme.read (c :: cs) = l at h ⊢
      have hother (m : Lexeme) (hm : m.shape ≠ .number) : m ≠ l := by
        rintro rfl
        exact hm h
      unfold Lexeme.read at hl
      dsimp only at hl
      split at hl
      · exact absurd hl (hother _ nofun)
      split at hl
      · next hpos =>
          subst hl
          exact ⟨hpos, rfl⟩
      split at hl
      · exact absurd hl (hother _ nofun)
      split at hl
      · exact absurd hl (hother _ nofun)
      split at hl
      · exact absurd hl (hother _ nofun)
      split at hl
      · exact absurd hl (hother _ nofun)
      · exact absurd hl (hother _ nofun)

/-- A number is read as it is. -/
theorem leads_number {l : Lexeme} (hl : l.shape = .number) :
    Leads (fun s => Is base s ∧ s.next = l) (leaf .number none : Step src Unit)
      fun _ => Sole base := by
  refine (leads_take_code _ _ _).post fun _ s hs => ?_
  obtain ⟨x, cs, rest, hts, hleaf, hk, hcs, rfl, hcode⟩ := hs
  obtain ⟨hpos, hlen⟩ := read_number hl
  rw [hlen] at hcode
  have hlexed : x.Lexed := by
    refine ⟨fun _ hliteral => ?_, fun _ => Or.inl ⟨rest, hpos, hcode⟩⟩
    obtain ⟨t, ht, hkind⟩ := Node.isAny_iff.1 hliteral
    obtain rfl : Symbol.number = t := Kind.symbol.inj (hk.symm.trans hkind)
    exact absurd ht (by decide)
  exact ⟨x, cs, hts, hleaf.parsed_of_lexed rfl hlexed, hcs⟩

theorem puts_number {l : Lexeme} (hl : l.shape = .number) :
    Leads (fun s => At base b s ∧ s.next = l) (leaf .number none : Step src Unit)
      fun _ => At base true := by
  rintro s a s' hrun ⟨⟨ts, hts, hp, -⟩, hnext⟩
  exact (leads_number hl s a s' hrun ⟨hts, hnext⟩).at.above hp

/-- The text of a token is what it takes. -/
theorem text_read (cs : List Char) :
    Text.ofString (Lexeme.read cs).text = Text.ofChars (cs.take (Lexeme.read cs).length) := by
  have hat (s : Shape) (n : Nat) (ds : List Char) :
      Text.ofString (Lexeme.at s n ds).text = Text.ofChars (ds.take (Lexeme.at s n ds).length) := by
    rw [Text.ofString, Lexeme.at, String.toList_ofList]
  cases cs with
  | nil => rfl
  | cons c cs =>
      unfold Lexeme.read
      dsimp only
      split
      · exact hat _ _ _
      split
      · exact hat _ _ _
      split
      · exact hat _ _ _
      split
      · exact hat _ _ _
      split
      · exact hat _ _ _
      split
      · next p hp =>
          have hprefix := List.find?_some hp
          rw [Bool.and_eq_true] at hprefix
          obtain ⟨rest, hrest⟩ := List.isPrefixOf_iff_prefix.1 hprefix.1
          rw [← hrest, ← String.length_toList, List.take_left]
          rfl
      · exact hat _ _ _

/-- A bare token is a leaf of the kind that its text spells. -/
theorem leads_bare (role : Option Role) :
    Leads (Is base) (bare role : Step src Unit) fun _ s =>
      ∃ x cs, s.trees = x :: (cs ++ base) ∧ IsLeaf false role x ∧ x.Lexed
        ∧ ∀ c ∈ cs, Idle c := by
  intro s a s' hrun hs
  obtain ⟨x, cs, rest, hts, hleaf, hk, hcs, hread, hcode⟩ :=
    leads_take_code Kind.ofName false role s a s' hrun ⟨hs, rfl⟩
  refine ⟨x, cs, hts, hleaf, Node.lexed_of_word hleaf.named hk ?_, hcs⟩
  rw [hcode, ← hread, text_read]

theorem puts_bare {role : Option Role} (hr : Node.roleTest? role = none) :
    Puts (bare role : Step src Unit) := by
  refine Yields.puts fun base => (leads_bare role).post fun _ s hs => ?_
  obtain ⟨x, cs, hts, hleaf, hlexed, hcs⟩ := hs
  exact ⟨x, cs, hts, hleaf.parsed_of_lexed hr hlexed, hcs⟩

/-- The word that says what is declared is a bare token. -/
theorem puts_bare_kind : Puts (bare (some .kind) : Step src Unit) := by
  refine Yields.puts fun base => (leads_bare _).post fun _ s hs => ?_
  obtain ⟨x, cs, hts, hleaf, hlexed, hcs⟩ := hs
  have hin : x.InPlace := by
    intro test htest
    rw [hleaf.role] at htest
    obtain rfl := Option.some.inj htest
    rw [Node.isMute, Node.isEffect, isEffectKind, hleaf.children, hleaf.named]
    rfl
  exact ⟨x, cs, hts, Node.parsed_of_lexed
    ⟨Node.shaped_of_children_nil hleaf.children, hin⟩ hleaf.children hlexed, hcs⟩

/-- A bare token can stand in a row. -/
theorem leads_bare_row {role : Option Role} (hr : Node.roleTest? role = none)
    (hno : ∀ r ∈ roles, role ≠ some r) (hok : ∀ c, Node.isMute c = true → ok c = true) :
    Leads (InRow ok roles placed base) (bare role : Step src Unit)
      fun _ => InRow ok roles placed base := by
  intro s a s' hrun hs
  obtain ⟨ts, hts, hrow⟩ := hs
  obtain ⟨x, cs, hts', hleaf, hlexed, hcs⟩ := leads_bare role s a s' hrun hts
  refine ⟨x :: (cs ++ ts), by rw [hts', List.cons_append, List.append_assoc], ?_⟩
  refine (hrow.comments hcs hok).cons (hleaf.parsed_of_lexed hr hlexed) ?_ (hok x ?_)
  · rw [hleaf.role]
    exact hno
  · rw [Node.isMute, hleaf.children, Node.isEffect, hleaf.named]
    rfl

theorem puts_token (t : String) : Puts (token t : Step src Unit) := fun _ _ =>
  (reads_sees t).bind fun _ => (reads_require _).bind fun _ => puts_bare rfl _ _

theorem leads_token_row (t : String) :
    Leads (InRow Node.isMute roles placed base) (token t : Step src Unit)
      fun _ => InRow Node.isMute roles placed base :=
  (reads_sees t).bind fun _ => (reads_require _).bind fun _ =>
    leads_bare_row rfl (fun _ _ h => by cases h) fun _ h => h

theorem grows_tokenIf (t : String) : Grows (tokenIf t : Step src Bool) := by
  intro base b
  refine (reads_sees t).bind fun c => Leads.ite ?_ (reads_pure c).leads
  exact (puts_bare rfl).grows.bind fun _ => (reads_pure c).leads

/-- Either a token is read, or nothing has happened. -/
theorem leads_tokenIf {P : Progress src → Prop} {t : String} {q q' : Step src α}
    (hP : ∀ s, P s → At base false s) (ht : Leads (At base true) q Q)
    (hf : Leads P q' Q) :
    Leads P (tokenIf t >>= fun c => if c = true then q else q') Q := by
  have hread : Leads P (tokenIf t : Step src Bool) fun c s =>
      (c = true → At base true s) ∧ (c = false → P s) := by
    refine (reads_sees t).bind fun c => ?_
    cases c with
    | true =>
        refine Leads.pre (P := At base false) ?_ hP
        refine (puts_bare rfl).bind fun _ => leads_pure fun s hs => ?_
        exact ⟨fun _ => hs, fun h => by cases h⟩
    | false =>
        exact leads_pure fun s hs => ⟨(fun h => by cases h), fun _ => hs⟩
  refine hread.bind fun c => ?_
  cases c with
  | true => exact ht.pre fun s hs => hs.1 rfl
  | false => exact hf.pre fun s hs => hs.2 rfl

/-- A list goes on behind a token, or ends. -/
theorem leads_more {t : String} {p : Step src Unit} (h : Grows p) :
    Leads (At base b) (tokenIf t >>= fun c => if c = true then p else pure ())
      fun _ => At base b :=
  (grows_tokenIf t).bind fun _ => Leads.ite (h base b) (reads_pure _).leads

theorem grows_semicolon : Grows (semicolon : Step src Unit) := by
  intro base b
  refine (grows_tokenIf _).bind fun c => Leads.ite ?_ (reads_pure ()).leads
  exact reads_endsHere.bind fun _ => (reads_require _).leads

/-- Characters that follow without a gap are one leaf. -/
theorem leads_adjoining (kind : Kind) (named : Bool) (role : Option Role)
    (len : Nat) :
    Leads (Is base) (adjoining kind named role len : Step src Unit) fun _ s =>
      ∃ x, s.trees = x :: base ∧ IsLeaf named role x ∧ x.kind = kind := by
  refine (reads_require _).bind fun _ => leads_modify fun s hs => ?_
  obtain ⟨x, hx, hleaf, hk⟩ := trees_push kind named role 0 len s
  exact ⟨x, by rw [hx, hs], hleaf, hk⟩

/-- Characters that follow without a gap are the code of a leaf. -/
theorem leads_adjoining_code (kind : Kind) (named : Bool) (role : Option Role)
    (len : Nat) (rest : List Char) :
    Leads (fun s => Is base s ∧ s.rest = rest)
      (adjoining kind named role len : Step src Unit) fun _ s =>
      ∃ x, Is (x :: base) s ∧ 0 < len ∧ x.render = Text.ofChars (rest.take len) := by
  refine leads_require fun hlen => leads_modify fun s hs => ?_
  obtain ⟨x, hx, -, -, hcode, hlead⟩ := trees_push_code kind named role 0 len s
  refine ⟨x, hx.trans (by rw [hs.1]), of_decide_eq_true hlen, ?_⟩
  rw [Node.render, hlead, hcode, hs.2]
  rfl

theorem puts_adjoining (kind : Kind) (named : Bool) {role : Option Role}
    (len : Nat) (hr : Node.roleTest? role = none)
    (hk : Node.isLiteralKind kind named = false) :
    Puts (adjoining kind named role len : Step src Unit) := by
  refine Yields.puts fun base => (leads_adjoining kind named role len).post ?_
  rintro _ s ⟨x, hts, hleaf, hkind⟩
  exact ⟨x, [], hts, hleaf.parsed hr (hkind ▸ hk), by simp⟩

theorem leads_adjoining_row {kind : Kind} {named : Bool} {len : Nat}
    (hkind : isBareKind kind named = true)
    (hok : ∀ c, Node.isMute c = true → ok c = true) :
    Leads (InRow ok roles placed base)
      (adjoining kind named none len : Step src Unit)
      fun _ => InRow ok roles placed base := by
  intro s a s' hrun hs
  obtain ⟨ts, hts, hrow⟩ := hs
  obtain ⟨x, hts', hleaf, hk⟩ := leads_adjoining kind named none len s a s' hrun hts
  refine ⟨x :: ts, by rw [hts', List.cons_append], ?_⟩
  have hbare := isBareKind_iff.1 (hk ▸ hkind)
  refine hrow.cons (hleaf.parsed rfl hbare.2) (fun r _ h => ?_) (hok x ?_)
  · rw [hleaf.role] at h
    cases h
  · rw [Node.isMute, hleaf.children, Node.isEffect, hleaf.named, hbare.1]
    rfl

/-- The quote or backtick that opens a literal. -/
structure Opens (l : Lexeme) (q : Char) (x : Node) : Prop where
  leaf : IsLeaf false none x
  lexed : x.Lexed
  code : x.code = [.scalar q]
  delimiter : isDelimiter q = true
  text : l.text = String.ofList [q]
  backtick : l.shape = .backtick → q = '\x60'

theorem read_delimiter {cs : List Char}
    (h : (Lexeme.read cs).shape = .quote ∨ (Lexeme.read cs).shape = .backtick) :
    ∃ q rest, cs = q :: rest ∧ isDelimiter q = true ∧ (Lexeme.read cs).length = 1
      ∧ (Lexeme.read cs).text = String.ofList [q]
      ∧ ((Lexeme.read cs).shape = .backtick → q = '\x60') := by
  cases cs with
  | nil => rcases h with h | h <;> cases h
  | cons c cs =>
      generalize hl : Lexeme.read (c :: cs) = l at h ⊢
      have hother (m : Lexeme) (hm : m.shape ≠ .quote ∧ m.shape ≠ .backtick) : m ≠ l := by
        rintro rfl
        exact h.elim hm.1 hm.2
      unfold Lexeme.read at hl
      dsimp only at hl
      split at hl
      · exact absurd hl (hother _ ⟨nofun, nofun⟩)
      split at hl
      · exact absurd hl (hother _ ⟨nofun, nofun⟩)
      split at hl
      · next hc =>
          subst hl
          refine ⟨c, cs, rfl, ?_, rfl, rfl, nofun⟩
          have hc : c = '\'' ∨ c = '"' := by simpa using hc
          rcases hc with rfl | rfl <;> rfl
      split at hl
      · next hc =>
          subst hl
          obtain rfl : c = '\x60' := by simpa using hc
          exact ⟨_, cs, rfl, rfl, rfl, rfl, fun _ => rfl⟩
      split at hl
      · exact absurd hl (hother _ ⟨nofun, nofun⟩)
      split at hl
      · exact absurd hl (hother _ ⟨nofun, nofun⟩)
      · exact absurd hl (hother _ ⟨nofun, nofun⟩)

/-- The token that opens a literal is read as it is. -/
theorem leads_opening {l : Lexeme} (hl : l.shape = .quote ∨ l.shape = .backtick) :
    Leads (fun s => Is base s ∧ Settled s ∧ s.next = l) (bare none : Step src Unit)
      fun _ s => ∃ x, Is (x :: base) s ∧ ∃ q, Opens l q x := by
  unfold bare take
  refine Leads.bind (Q := fun _ s => Is base s ∧ Settled s ∧ s.next = l)
    (leads_modify fun s hs => ?_) fun _ => ?_
  · rwa [flush_of_settled hs.2.1]
  refine leads_get fun s₁ => leads_get fun s₂ => (reads_require _).bind fun _ =>
    leads_modify ?_
  rintro s ⟨⟨⟨hs, hsettled, rfl⟩, rfl⟩, rfl⟩
  rw [next_eq, flush_of_settled hsettled] at hl
  obtain ⟨q, rest, hrest, hq, hlen, htext, hback⟩ := read_delimiter hl
  have hnext : s.next = Lexeme.read (s.rest.drop (runLength isGap s.rest)) := by
    rw [next_eq, flush_of_settled hsettled]
  obtain ⟨x, hx, hleaf, hk, hcode, -⟩ := trees_push_code
    (Kind.ofName (Lexeme.read (s.rest.drop (runLength isGap s.rest))).text) false none
    (runLength isGap s.rest) (Lexeme.read (s.rest.drop (runLength isGap s.rest))).length s
  have hlexed : x.Lexed := Node.lexed_of_word hleaf.named hk (by rw [hcode, text_read])
  refine ⟨x, hx.trans (by rw [hs]), q, hleaf, hlexed, ?_, hq, hnext ▸ htext,
    hnext ▸ hback⟩
  rw [hcode, hlen, hrest]
  rfl

-- ----------------------------------------------------------------- roles

theorem trees_revise {f : Node → Node} {h : ∀ n, (f n).render = n.render}
    {s : Progress src} {x : Node} {ts : List Node} (hs : s.trees = x :: ts) :
    (s.revise f h).trees = f x :: ts := by
  simp [Progress.revise, hs]

/-- In most roles anything can stand. -/
theorem leads_role (hr : Node.roleTest? (some r) = none) :
    Leads (At base true) (role r : Step src Unit) fun _ => At base true := by
  refine leads_modify fun s hs => ?_
  obtain ⟨ts, hts, hp, hne⟩ := hs
  cases ts with
  | nil => exact absurd rfl (hne rfl)
  | cons t ts =>
      rw [List.forall_mem_cons] at hp
      refine ⟨t.placed (some r) t.lead :: ts, trees_revise hts, ?_,
        fun _ => List.cons_ne_nil _ _⟩
      exact List.forall_mem_cons.2 ⟨hp.1.placed hr, hp.2⟩

/-- Parameters can stand in the role of parameters. -/
theorem leads_role_parameters :
    Leads (fun s => At base true s ∧ TopIs .formalParameters s)
      (role .parameters : Step src Unit) fun _ => At base true := by
  refine leads_modify fun s hs => ?_
  obtain ⟨⟨ts, hts, hp, hne⟩, x, hx, hk⟩ := hs
  cases ts with
  | nil => exact absurd rfl (hne rfl)
  | cons t ts =>
      obtain rfl : t = x := by
        rw [hts] at hx
        exact Option.some.inj hx
      rw [List.forall_mem_cons] at hp
      refine ⟨t.placed (some .parameters) t.lead :: ts, trees_revise hts, ?_,
        fun _ => List.cons_ne_nil _ _⟩
      refine List.forall_mem_cons.2 ⟨⟨⟨Node.shaped_placed.2 hp.1.shaped, ?_⟩,
        Node.everyLexed_placed hp.1.lexed⟩, hp.2⟩
      intro test htest
      obtain rfl := Option.some.inj htest
      exact hk

/-- An operand gets its role and is part of the row. -/
theorem leads_role_row (hmem : r ∈ roles)
    (hr : Node.roleTest? (some r) = none) :
    Leads (Pending ok roles placed base) (role r : Step src Unit)
      fun _ => InRow ok roles (placed ++ [r]) base := by
  refine leads_modify fun s hs => ?_
  obtain ⟨x, ts, hts, hx, hrow⟩ := hs
  refine ⟨x.placed (some r) x.lead :: ts, trees_revise hts, ?_⟩
  exact hrow.part (hx.placed hr) hmem rfl

/-- An operand is read behind a row, where it may be read at all. -/
theorem leads_row_if {C : Progress src → Prop}
    (h : ∀ base, Leads (fun s => Is base s ∧ C s) p fun _ => Sole base)
    (hok : ∀ c, Node.isMute c = true → ok c = true) :
    Leads (fun s => InRow ok roles placed base s ∧ C s) p
      fun _ => Pending ok roles placed base := by
  rintro s a s' hrun ⟨⟨ts, hts, hrow⟩, hc⟩
  obtain ⟨x, cs, hts', hx, hcs⟩ := h (ts ++ base) s a s' hrun ⟨hts, hc⟩
  exact ⟨x, cs ++ ts, by rw [hts', List.append_assoc], hx, hrow.comments hcs hok⟩

theorem Yields.leads_row (h : Yields p)
    (hok : ∀ c, Node.isMute c = true → ok c = true) :
    Leads (InRow ok roles placed base) p
      fun _ => Pending ok roles placed base :=
  (leads_row_if (C := fun _ => True) (fun base => (h base).pre fun _ hs => hs.1)
    hok).pre fun _ hs => ⟨hs, trivial⟩

/-- A role is no matter of what comes next. -/
theorem leads_role_next {l : Lexeme} :
    Leads (fun s => s.next = l) (Step.role r : Step src Unit) fun _ s => s.next = l :=
  leads_modify fun _ h => h

-- ----------------------------------------------------------------- nodes

theorem run_mark (s : Progress src) :
    (mark : Step src Nat).run s = some (s.flush.height, s.flush) := rfl

/-- A node may start here. -/
theorem leads_mark (h : ∀ m, base.length ≤ m → Leads (At base b) (k m) Q) :
    Leads (At base b) (mark >>= k) Q := by
  intro s a s' hrun hs
  obtain ⟨m, t, hm, hk⟩ := run_bind_eq_some.1 hrun
  rw [run_mark] at hm
  obtain ⟨rfl, rfl⟩ := Prod.mk.inj (Option.some.inj hm)
  obtain ⟨cs, hcs, hidle⟩ := flush_spec s
  obtain ⟨ts, hts, hp, hne⟩ := hs
  refine h _ ?_ _ a s' hk ⟨cs ++ ts, by rw [hcs, hts, List.append_assoc], ?_, ?_⟩
  · rw [Progress.height, hcs, hts, List.length_append, List.length_append]
    omega
  · intro t ht
    rcases List.mem_append.1 ht with ht | ht
    · exact (hidle t ht).parsed
    · exact hp t ht
  · exact fun hb => List.append_ne_nil_of_right_ne_nil _ (hne hb)

/-- A node may start where comments are left unread. -/
theorem leads_here (h : Leads (Is base) (k base.length) Q) :
    Leads (Is base) (here >>= k) Q := by
  intro s a s' hrun hs
  obtain ⟨m, t, hm, hk⟩ := run_bind_eq_some.1 hrun
  obtain ⟨rfl, rfl⟩ := Prod.mk.inj (Option.some.inj hm)
  refine h s a s' ?_ hs
  rw [← hs]
  exact hk

/-- A node may start right here, behind comments. -/
theorem leads_mark_settled {R : List Node → α → Progress src → Prop}
    {C : Progress src → Prop} (hC : ∀ s, C s → C s.flush)
    (h : ∀ base, Leads (fun s => Is base s ∧ Settled s ∧ C s) (k base.length) (R base))
    (hR : ∀ base cs a s, (∀ c ∈ cs, Idle c) → R (cs ++ base) a s → R base a s) :
    Leads (fun s => Is base s ∧ C s) (mark >>= k) (R base) := by
  rintro s a s' hrun ⟨hs, hc⟩
  obtain ⟨m, t, hm, hk⟩ := run_bind_eq_some.1 hrun
  rw [run_mark] at hm
  obtain ⟨rfl, rfl⟩ := Prod.mk.inj (Option.some.inj hm)
  obtain ⟨cs, hcs, hidle⟩ := flush_spec s
  rw [show s.trees = base from hs] at hcs
  refine hR base cs a s' hidle (h (cs ++ base) _ a s' ?_ ⟨hcs, settled_flush s, hC s hc⟩)
  rw [← hcs]
  exact hk

theorem leads_mark_behind {R : List Node → α → Progress src → Prop}
    (h : ∀ base, Leads (Is base) (k base.length) (R base))
    (hR : ∀ base cs a s, (∀ c ∈ cs, Idle c) → R (cs ++ base) a s → R base a s) :
    Leads (Is base) (mark >>= k) (R base) :=
  (leads_mark_settled (C := fun _ => True) (fun _ _ => trivial)
    (fun base => (h base).pre fun _ hs => hs.1) hR).pre fun _ hs => ⟨hs, trivial⟩

theorem yields_mark (h : ∀ base, Leads (Is base) (k base.length) fun _ => Sole base) :
    Yields (mark >>= k) := fun _ =>
  leads_mark_behind h fun _ _ _ _ hcs hs => hs.behind hcs

theorem yields_mark_at
    (h : ∀ base, Leads (At base false) (k base.length) fun _ => Sole base) :
    Yields (mark >>= k) :=
  yields_mark fun base => (h base).pre fun _ => Is.at

/-- The trees above `base`, when a node is closed around those above a
height. -/
theorem trees_gather {s : Progress src} {ts : List Node} {m : Nat}
    (hs : s.trees = ts ++ base) (hm : base.length ≤ m) :
    (s.gather m sym).trees
      = Node.gather sym (ts.take (ts.length + base.length - m)).reverse
        :: (ts.drop (ts.length + base.length - m) ++ base) := by
  have hle : ts.length + base.length - m ≤ ts.length := by omega
  simp only [Progress.gather, hs, List.length_append]
  rw [List.take_append_of_le_length hle, List.drop_append_of_le_length hle]

/-- A node of a plain kind can be closed around anything proper. -/
theorem leads_close {m : Nat} (hm : base.length ≤ m) (hs : IsPlain sym) :
    Leads (At base b) (close m sym : Step src Unit) fun _ => At base true := by
  refine leads_modify fun s h => ?_
  obtain ⟨ts, hts, hp, -⟩ := h
  refine ⟨_ :: ts.drop (ts.length + base.length - m), trees_gather hts hm, ?_,
    fun _ => List.cons_ne_nil _ _⟩
  refine List.forall_mem_cons.2 ⟨hs.parsed_gather fun c hc => ?_, fun c hc => ?_⟩
  · exact hp c (List.mem_of_mem_take (List.mem_reverse.1 hc))
  · exact hp c (List.mem_of_mem_drop hc)

theorem trees_gatherAll {s : Progress src} {ts : List Node}
    (hs : s.trees = ts ++ base) :
    (s.gather base.length sym).trees = Node.gather sym ts.reverse :: base := by
  rw [trees_gather hs (Nat.le_refl _), Nat.add_sub_cancel, List.take_length,
    List.drop_length, List.nil_append]

/-- When all above `base` is closed, the node is all there is. -/
theorem leads_closeAll (hs : IsPlain sym) :
    Leads (At base b) (close base.length sym : Step src Unit)
      fun _ => Closed sym base := by
  refine leads_modify fun s h => ?_
  obtain ⟨ts, hts, hp, -⟩ := h
  exact ⟨_, trees_gatherAll hts,
    hs.parsed_gather fun c hc => hp c (List.mem_reverse.1 hc), is_gather _ _⟩

theorem leads_closeSole (hs : IsPlain sym) :
    Leads (At base b) (close base.length sym : Step src Unit) fun _ => Sole base :=
  (leads_closeAll hs).post fun _ _ => Closed.sole

/-- A row, as the children of the node that is closed around it. -/
theorem Row.fits {ts : List Node} (h : Row Node.isMute roles placed ts)
    (hsub : placed.Sublist roles) : Node.Fits roles ts.reverse :=
  ⟨by rw [h.order]; exact hsub, fun t ht => h.others t (List.mem_reverse.1 ht)⟩

/-- An expression is closed around its operands. -/
theorem leads_closeRow (hsym : sym ∉ .string :: .templateString :: Node.leafSymbols)
    (hroles : Node.partRoles? sym = some roles) (hsub : placed.Sublist roles) :
    Leads (InRow Node.isMute roles placed base)
      (close base.length sym : Step src Unit) fun _ => Sole base := by
  simp only [List.mem_cons, not_or] at hsym
  refine leads_modify fun s h => ?_
  obtain ⟨ts, hts, hrow⟩ := h
  refine ⟨_, [], trees_gatherAll hts, ?_, by simp⟩
  refine parsed_gather hsym.2.2 (fun roles' hr => ?_) (fun ht => absurd ht hsym.2.1)
    (fun t ht => hrow.parsed t (List.mem_reverse.1 ht))
    (spelled_gather (by simp [hsym.1, hsym.2.1]))
  rw [hroles] at hr
  obtain rfl := Option.some.inj hr
  exact hrow.fits hsub

/-- Only the kind of an object or array changes when it turns out to be a
pattern. -/
theorem leads_retarget :
    Leads (At base true) (retarget : Step src Unit) fun _ => At base true := by
  refine reads_get.bind fun s₀ => ?_
  have hrevise : Leads (At base true)
      (modify (·.revise Node.asTarget Node.render_asTarget) : Step src Unit)
      fun _ => At base true := by
    refine leads_modify fun s hs => ?_
    obtain ⟨ts, hts, hp, hne⟩ := hs
    cases ts with
    | nil => exact absurd rfl (hne rfl)
    | cons t ts =>
        rw [List.forall_mem_cons] at hp
        refine ⟨t.asTarget :: ts, trees_revise hts, ?_, fun _ => List.cons_ne_nil _ _⟩
        exact List.forall_mem_cons.2 ⟨parsed_asTarget hp.1, hp.2⟩
  split
  · exact (reads_require _).bind fun _ => hrevise
  · exact leads_failure.bind fun _ => hrevise

end Steps

end Codemod.Parse
