/-
What is pushed for a goal.

Each goal of the grammar comes with a promise about the trees that are
pushed for it (`Promise`): an operand is one tree, a list of statements
adds trees, an expression is closed around its operands. The productions
of literals, patterns and expressions keep the promise of their goal if
the steps they ask for keep theirs.
-/
import Codemod.Proofs.Parse.Discipline

namespace Codemod.Parse

open Step Literal

variable {src : List Char} {α : Type}

/-- A part of a template that is not text. -/
def mayStandInTemplate (n : Node) : Bool := n.is .templateSubstitution || n.isMute

/-- Above `base` there are parts of a template. -/
def InTemplate (base : List Node) : Progress src → Prop :=
  InRow mayStandInTemplate [] [] base

/-- Unless there are substitutions among them, the trees end a literal. -/
def Ends (q : Char) (ts : List Node) : Prop :=
  ts.any (·.is .templateSubstitution) = false → ∃ body ps,
    Node.codeAll ts.reverse = body ++ [.scalar q] ∧ Reading (.scalar q) body ps

/-- Above `base` there are trees that end a literal. -/
def Ending (q : Char) (base : List Node) (s : Progress src) : Prop :=
  ∃ ts, s.trees = ts ++ base ∧ Ends q ts

/-- What is promised of the step for a goal. -/
def Promise : Goal → Step src Unit → Prop
  | .statement, p => Yields p
  | .statements, p => Grows p
  | .caseBody, p => Grows p
  | .cases, p => Grows p
  | .block, p => Yields p
  | .declarators _, p => Puts p
  | .expression _, p => Yields p
  | .sequence _ _, p => Grows p
  | .assignment _, p => Yields p
  | .binary _ _, p => Yields p
  | .operators start _ _, p => ∀ base, start = base.length →
      Leads (Sole base) p fun _ => Sole base
  | .unary, p => Yields p
  | .access _, p => Yields p
  | .accesses start _, p => ∀ base, start = base.length →
      Leads (Sole base) p fun _ => Sole base
  | .arguments, p => Yields p
  | .elements _, p => Grows p
  | .properties, p => Grows p
  | .members, p => Grows p
  | .parameters, p => YieldsA .formalParameters p
  | .parameterList, p => Grows p
  | .target _, p => Yields p
  | .targetWithDefault, p => Yields p
  | .patternProperties, p => Grows p
  | .patternElements, p => Grows p
  | .templateParts, p =>
      (∀ base, Leads (InTemplate base) p fun _ => InTemplate base)
        ∧ ∀ base, Leads (Is base) p fun _ => Ending '\x60' base
  | .function start _, p => ∀ base, start = base.length →
      Leads (Is base) p fun _ => Sole base
  | .classFrom start _, p => ∀ base, start = base.length →
      Leads (Is base) p fun _ => Sole base
  | .method start, p => ∀ base, base.length ≤ start →
      Leads (At base true) p fun _ => At base true
  | .importSpecifiers, p => Grows p
  | .exportSpecifiers, p => Grows p

/-- Nothing is promised that failing does not keep. -/
theorem promise_failure (g : Goal) : Promise g (failure : Step src Unit) := by
  cases g
  all_goals
    first
      | exact fun _ => leads_failure
      | exact fun _ _ => leads_failure
      | exact ⟨fun _ => leads_failure, fun _ => leads_failure⟩

variable {go : Goal → Step src Unit}

-- ============================================================== literals

section Literals

variable {base : List Node} {ts : List Node} {x : Node} {q : Char} {l : Lexeme}
  {rest : List Char} {p : Step src Unit}

theorem Ends.behind (h : Ends q ts) (hx : x.is .templateSubstitution = false →
    ∀ t ps, Reading (.scalar q) t ps → ∃ ps', Reading (.scalar q) (x.render ++ t) ps') :
    Ends q (ts ++ [x]) := by
  intro hsub
  rw [List.any_append, Bool.or_eq_false_iff, List.any_cons, Bool.or_eq_false_iff] at hsub
  obtain ⟨body, ps, hcode, hread⟩ := h hsub.1
  obtain ⟨ps', hread'⟩ := hx hsub.2.1 body ps hread
  refine ⟨x.render ++ body, ps', ?_, hread'⟩
  rw [List.reverse_append, List.reverse_singleton, List.singleton_append,
    Node.codeAll_cons, hcode, Node.render, List.append_assoc, List.append_assoc]

/-- What ends a literal above a part of it ends it with the part. -/
theorem leads_behind (hp : Leads (Is (x :: base)) p fun _ => Ending q (x :: base))
    (hx : x.is .templateSubstitution = false →
      ∀ t ps, Reading (.scalar q) t ps → ∃ ps', Reading (.scalar q) (x.render ++ t) ps') :
    Leads (Is (x :: base)) p fun _ => Ending q base := by
  refine hp.post ?_
  rintro _ s ⟨ts, hts, hends⟩
  exact ⟨ts ++ [x], by rw [hts, List.append_assoc]; rfl, hends.behind hx⟩

/-- A token of a literal is read, then the rest of it. -/
theorem leads_part {kind : Kind} {named : Bool} {len : Nat}
    (htoken : 0 < len → ∀ t ps, Reading (.scalar q) t ps →
      ∃ ps', Reading (.scalar q) (Text.ofChars (rest.take len) ++ t) ps')
    (hp : ∀ base, Leads (Is base) p fun _ => Ending q base) :
    Leads (fun s => Is base s ∧ s.rest = rest)
      (adjoining kind named none len >>= fun _ => p) fun _ => Ending q base := by
  refine (leads_adjoining_code kind named none len rest).bind fun _ =>
    leads_exists fun x hx => leads_behind (hp _) fun _ => ?_
  rw [hx.2]
  exact htoken hx.1

/-- The closing quote or backtick. -/
theorem leads_closing {kind : Kind} {named : Bool} {cs : List Char} :
    Leads (fun s => Is base s ∧ s.rest = q :: cs)
      (adjoining kind named none 1 : Step src Unit) fun _ => Ending q base := by
  refine (leads_adjoining_code kind named none 1 _).post ?_
  rintro _ s ⟨x, hs, -, hx⟩
  refine ⟨[x], hs, fun _ => ⟨[], [], ?_, .nil⟩⟩
  rw [List.reverse_singleton, Node.codeAll_singleton, hx]
  rfl

theorem leads_stringParts (base : List Node) (quote : Char) (fuel : Nat) :
    Leads (InRow Node.isMute [] [] base) (stringParts quote fuel : Step src Unit)
      fun _ => InRow Node.isMute [] [] base := by
  induction fuel with
  | zero => exact leads_failure
  | succ fuel ih =>
      refine reads_get.bind fun s => ?_
      dsimp only
      split
      · exact leads_failure
      · refine Leads.ite ?_ (Leads.ite ?_ ?_)
        · exact leads_adjoining_row rfl fun _ h => h
        · exact (leads_adjoining_row rfl fun _ h => h).bind fun _ => ih
        · exact (leads_adjoining_row rfl fun _ h => h).bind fun _ => ih

theorem leads_stringParts_ending (hq : isDelimiter q = true) (fuel : Nat)
    (base : List Node) : Leads (Is base) (stringParts q fuel : Step src Unit)
      fun _ => Ending q base := by
  induction fuel generalizing base with
  | zero => exact leads_failure
  | succ fuel ih =>
      refine leads_get fun s₀ => ?_
      refine Leads.pre (P := fun s => Is base s ∧ s.rest = s₀.rest) ?_
        fun s hs => ⟨hs.1, by rw [hs.2]⟩
      generalize s₀.rest = rest
      dsimp only
      split
      · exact leads_failure
      · next c cs =>
          split
          · next hc =>
              obtain rfl : c = q := by simpa using hc
              exact leads_closing
          · split
            · exact leads_part (fun hlen t ps ht => exists_reading_escape hq hlen ht) ih
            · refine leads_part (fun _ t ps ht => ⟨_, Reading.append (fun d hd => ?_) ht⟩) ih
              have hplain := of_mem_take_runLength (Nat.le_refl _) d hd
              simp only [Bool.and_eq_true, bne_iff_ne] at hplain
              exact ⟨hplain.1.1.2, hplain.1.1.1⟩

/-- A literal is closed around what opens and what ends it. -/
theorem spelled_literal {sym : Symbol} (hx : Opens l q x) (h : Ends q ts) :
    (Node.gather sym (ts ++ [x]).reverse).Spelled := by
  rw [List.reverse_append, List.reverse_singleton, List.singleton_append]
  intro _ _ hsub
  have hts : ts.any (·.is .templateSubstitution) = false := by
    have hall : (x.placed x.role [] :: ts.reverse).any (·.is .templateSubstitution)
        = false := hsub
    rw [List.any_cons, Bool.or_eq_false_iff, List.any_reverse] at hall
    exact hall.2
  obtain ⟨body, ps, hcode, hread⟩ := h hts
  refine ⟨.scalar q, body, ps, ?_, hread⟩
  rw [Node.gather, Node.code_placed, Node.code_branch, Node.codeAll_cons, Node.code_placed,
    hx.code, hcode]
  rfl

/-- What opens a literal can stand in it. -/
theorem Opens.inRow {ok : Node → Bool} {s : Progress src} (h : Opens l q x)
    (hok : ∀ c, Node.isMute c = true → ok c = true) (hs : Is (x :: base) s) :
    InRow ok [] [] base s := by
  refine ⟨[x], hs, row_nil.cons (h.leaf.parsed_of_lexed rfl h.lexed) (by simp) (hok x ?_)⟩
  rw [Node.isMute, h.leaf.children, Node.isEffect, h.leaf.named]
  rfl

theorem leads_closeLiteral {sym : Symbol} {ok : Node → Bool}
    (hsym : sym ∉ Node.leafSymbols) (hx : Opens l q x)
    (hparts : ∀ ts roles, Row ok [] [] ts → Node.partRoles? sym = some roles →
      Node.Fits roles ts.reverse)
    (ht : sym = .templateString → ∀ t, ok t = true →
      t.is .templateSubstitution = false → t.isMute = true) :
    Leads (fun s => InRow ok [] [] base s ∧ Ending q (x :: base) s)
      (close base.length sym : Step src Unit) fun _ => Sole base := by
  refine leads_modify ?_
  rintro s ⟨⟨us, hus, hrow⟩, ts, hts, hends⟩
  obtain rfl : us = ts ++ [x] := by
    refine (List.append_left_inj base).1 ?_
    rw [← hus, hts, List.append_assoc, List.singleton_append]
  refine ⟨_, [], trees_gatherAll hus, parsed_gather hsym (fun roles hr => hparts _ _ hrow hr)
    (fun hst t hmem hsub => ht hst t (hrow.others t (List.mem_reverse.1 hmem)
      (not_standsIn_of_role (by simp))) hsub)
    (fun t hmem => hrow.parsed t (List.mem_reverse.1 hmem)) (spelled_literal hx hends),
    by simp⟩

theorem yields_string : Yields (string : Step src Unit) := by
  intro base
  refine Leads.pre (P := fun s => Is base s ∧ True) ?_ fun _ hs => ⟨hs, trivial⟩
  refine leads_mark_settled (R := fun base _ => Sole base) (C := fun _ => True)
    (fun _ _ => trivial) (fun base => ?_) fun _ _ _ _ hcs hs => hs.behind hcs
  refine leads_peek fun l => leads_require fun hl => ?_
  have hl : l.shape = .quote := by simpa using hl
  refine Leads.bind (Q := fun _ s => ∃ x, Is (x :: base) s ∧ ∃ q, Opens l q x)
    ((leads_opening (Or.inl hl)).pre fun s hs => ⟨hs.1.1, hs.1.2.1, hs.2⟩) fun _ => ?_
  refine leads_exists fun x hx => ?_
  obtain ⟨q, hx⟩ := hx
  rw [hx.text, String.toList_ofList]
  refine reads_get.bind fun s => Leads.bind (Q := fun _ s => InRow Node.isMute [] [] base s
    ∧ Ending q (x :: base) s) ?_ fun _ => leads_closeLiteral (by decide) hx ?_ nofun
  · exact ((leads_stringParts base q _).and (leads_stringParts_ending hx.delimiter _
      (x :: base))).pre fun s hs => ⟨hx.inRow (fun _ h => h) hs, hs⟩
  · rintro ts roles hrow hroles
    obtain rfl : [] = roles := Option.some.inj hroles
    exact hrow.fits (List.Sublist.refl _)

end Literals

theorem yields_regex : Yields (regex : Step src Unit) := by
  refine yields_mark fun base => reads_get.bind fun s => ?_
  refine Leads.bind (Q := fun _ => At base true) ?_ fun _ => ?_
  · refine leads_modify fun s hs => ?_
    obtain ⟨x, hx, hleaf, hk⟩ := trees_push (.word "/") false none _ 1 s
    exact hs.at.push hx (hleaf.parsed rfl (by rw [hk]; rfl))
  · have hclose : Leads (At base true) (close base.length .regex : Step src Unit)
        fun _ => Sole base := leads_closeSole (by decide)
    refine reads_get.bind fun s => ?_
    refine (puts_adjoining _ _ _ rfl rfl).bind fun _ => reads_get.bind fun s => ?_
    split
    · refine (puts_adjoining _ _ _ rfl rfl).bind fun _ => Leads.ite ?_ hclose
      exact (puts_adjoining _ _ _ rfl rfl).bind fun _ => hclose
    · exact leads_failure.bind fun _ => hclose

theorem isMute_mayStandInTemplate (c : Node) (h : c.isMute = true) :
    mayStandInTemplate c = true :=
  Bool.or_eq_true_iff.2 (Or.inr h)

/-- Where a backtick comes next, a template is read. -/
theorem leads_template (hgo : ∀ g, Promise g (go g)) (base : List Node) :
    Leads (fun s => Is base s ∧ s.next.shape = .backtick) (template go)
      fun _ => Sole base := by
  refine leads_mark_settled (R := fun base _ => Sole base)
    (C := fun s => s.next.shape = .backtick) (fun s hs => by rwa [next_flush])
    (fun base => ?_) fun _ _ _ _ hcs hs => hs.behind hcs
  refine Leads.bind (Q := fun _ s => ∃ x, Is (x :: base) s ∧ ∃ l, Opens l '\x60' x)
    (fun s a s' hrun hs => ?_) fun _ => ?_
  · obtain ⟨x, hx, q, hopens⟩ :=
      leads_opening (Or.inr hs.2.2) s a s' hrun ⟨hs.1, hs.2.1, rfl⟩
    obtain rfl := hopens.backtick hs.2.2
    exact ⟨x, hx, _, hopens⟩
  · refine leads_exists fun x hx => ?_
    obtain ⟨l, hx⟩ := hx
    refine Leads.bind (Q := fun _ s => InTemplate base s ∧ Ending '\x60' (x :: base) s) ?_
      fun _ => leads_closeLiteral (by decide) hx nofun fun _ t hok hsub => ?_
    · exact (((hgo .templateParts).1 base).and ((hgo .templateParts).2 (x :: base))).pre
        fun s hs => ⟨hx.inRow isMute_mayStandInTemplate hs, hs⟩
    · rw [mayStandInTemplate, hsub] at hok
      exact hok

/-- A substitution holds an expression, whatever that is. -/
theorem leads_templateParts (hgo : ∀ g, Promise g (go g)) (base : List Node) :
    Leads (InTemplate base) (templateParts go) fun _ => InTemplate base := by
  refine reads_get.bind fun s => ?_
  dsimp only
  split
  · exact leads_adjoining_row rfl isMute_mayStandInTemplate
  · exact (leads_adjoining_row rfl isMute_mayStandInTemplate).bind fun _ =>
      (hgo .templateParts).1 base
  · refine leads_of_row fun ts hrow => leads_here ?_
    refine Leads.pre (P := At (ts ++ base) false) ?_ fun _ => Is.at
    refine (puts_adjoining _ _ _ rfl rfl).bind fun _ =>
      (hgo (.expression false)).puts.bind fun _ => (puts_token _).bind fun _ => ?_
    refine (leads_closeAll (by decide)).bind fun _ => ?_
    refine ((hgo .templateParts).1 base).pre fun s hs => ?_
    obtain ⟨x, hts, hx, hk⟩ := hs
    refine ⟨x :: ts, hts, hrow.cons hx (by simp) ?_⟩
    rw [mayStandInTemplate, hk]
    rfl
  · exact (leads_adjoining_row rfl isMute_mayStandInTemplate).bind fun _ =>
      (hgo .templateParts).1 base

theorem leads_templateParts_ending (hgo : ∀ g, Promise g (go g)) (base : List Node) :
    Leads (Is base) (templateParts go) fun _ => Ending '\x60' base := by
  have hmore := (hgo .templateParts).2
  refine leads_get fun s₀ => ?_
  refine Leads.pre (P := fun s => Is base s ∧ s.rest = s₀.rest) ?_
    fun s hs => ⟨hs.1, by rw [hs.2]⟩
  generalize s₀.rest = rest
  dsimp only
  split
  · exact leads_closing
  · exact leads_part (fun hlen t ps ht => exists_reading_escape rfl hlen ht) hmore
  · refine Leads.pre (P := Is base) (leads_here ?_) fun s hs => hs.1
    refine Leads.pre (P := At base false) ?_ fun _ => Is.at
    refine (puts_adjoining _ _ _ rfl rfl).bind fun _ =>
      (hgo (.expression false)).puts.bind fun _ => (puts_token _).bind fun _ => ?_
    refine (leads_closeAll (by decide)).bind fun _ => ?_
    rintro s a s' hrun ⟨x, hs, -, hk⟩
    refine leads_behind (hmore (x :: base)) (fun hno => ?_) s a s' hrun hs
    rw [hk] at hno
    cases hno
  · exact leads_part (fun _ t ps ht => ⟨_, Reading.append of_mem_take_templateRunLength ht⟩)
      hmore

-- ============================================================== patterns

theorem yields_name {r : Option Role} (hr : Node.roleTest? r = none) :
    Yields (name r : Step src Unit) := fun base =>
  reads_peek.bind fun _ => (reads_require _).bind fun _ =>
    yields_leaf .identifier hr rfl base

theorem puts_propertyName (hgo : ∀ g, Promise g (go g)) {r : Role}
    (hr : Node.roleTest? (some r) = none) : Puts (propertyName go r) := by
  refine fun base b => leads_peek fun l => ?_
  have hforget {p : Step src Unit} (hp : Leads (At base b) p fun _ => At base true) :
      Leads (fun s => At base b s ∧ s.next = l) p fun _ => At base true :=
    hp.pre fun _ h => h.1
  dsimp only
  split
  · exact hforget ((puts_leaf _ rfl rfl).bind fun _ => leads_role hr)
  · exact hforget ((puts_leaf _ rfl rfl).bind fun _ => leads_role hr)
  · next hl => exact Leads.bind (puts_number hl) fun _ => leads_role hr
  · exact hforget (yields_string.puts.bind fun _ => leads_role hr)
  · refine hforget (leads_mark fun m hm => (puts_token _).bind fun _ =>
      (hgo (.assignment false)).puts.bind fun _ => (puts_token _).bind fun _ => ?_)
    exact (leads_close hm (by decide)).bind fun _ => leads_role hr

theorem yields_target (hgo : ∀ g, Promise g (go g)) (declared : Bool) :
    Yields (target go declared) := by
  refine yields_mark fun base => leads_tokenIf (fun _ => Is.at) ?_
    (leads_tokenIf (fun _ => Is.at) ?_ ?_)
  · exact (hgo .patternProperties).bind fun _ => (puts_token _).bind fun _ =>
      leads_closeSole (by decide)
  · exact (hgo .patternElements).bind fun _ => (puts_token _).bind fun _ =>
      leads_closeSole (by decide)
  · exact (reads_sees _).bind fun _ =>
      Leads.ite (yields_leaf _ rfl rfl base) (yields_name rfl base)

theorem yields_restTarget (hgo : ∀ g, Promise g (go g)) : Yields (restTarget go) :=
  yields_mark_at fun _ => (puts_token _).bind fun _ =>
    (hgo (.target false)).puts.bind fun _ => leads_closeSole (by decide)

theorem yields_targetWithDefault (hgo : ∀ g, Promise g (go g)) :
    Yields (targetWithDefault go) := by
  refine yields_mark fun base => (hgo (.target false)).bind fun _ =>
    (reads_sees _).bind fun _ => Leads.ite ?_ (reads_pure _).leads
  refine Leads.pre (P := At base true) ?_ fun _ => Sole.at
  refine (leads_role rfl).bind fun _ => (puts_token _).bind fun _ => ?_
  exact (hgo (.assignment false)).puts.bind fun _ => (leads_role rfl).bind fun _ =>
    leads_closeSole (by decide)

theorem grows_patternProperties (hgo : ∀ g, Promise g (go g)) :
    Grows (patternProperties go) := by
  intro base b
  refine (reads_sees _).bind fun _ => Leads.ite (reads_pure _).leads ?_
  refine Leads.post ?_ fun _ _ => At.of_true
  refine leads_mark fun m hm => reads_peek.bind fun l => reads_peekSecond.bind fun x =>
    (reads_sees _).bind fun _ => ?_
  refine Leads.ite ?_ (Leads.ite ?_ (Leads.ite ?_ ?_))
  · exact (yields_restTarget hgo).puts.bind fun _ => leads_more (hgo .patternProperties)
  · refine (puts_leaf _ rfl rfl).bind fun _ => (puts_token _).bind fun _ => ?_
    refine (hgo (.assignment false)).puts.bind fun _ => (leads_role rfl).bind fun _ => ?_
    exact (leads_close hm (by decide)).bind fun _ => leads_more (hgo .patternProperties)
  · exact (puts_leaf _ rfl rfl).bind fun _ => leads_more (hgo .patternProperties)
  · refine (puts_propertyName hgo rfl).bind fun _ => (puts_token _).bind fun _ => ?_
    refine (hgo .targetWithDefault).puts.bind fun _ => (leads_role rfl).bind fun _ => ?_
    exact (leads_close hm (by decide)).bind fun _ => leads_more (hgo .patternProperties)

theorem grows_patternElements (hgo : ∀ g, Promise g (go g)) :
    Grows (patternElements go) := by
  intro base b
  refine (reads_sees _).bind fun _ => Leads.ite (reads_pure _).leads ?_
  refine (grows_tokenIf _).bind fun _ => Leads.ite (hgo .patternElements base b) ?_
  refine Leads.post ?_ fun _ _ => At.of_true
  refine (reads_sees _).bind fun _ => Leads.ite ?_ ?_
  · exact (yields_restTarget hgo).puts.bind fun _ => leads_more (hgo .patternElements)
  · exact (hgo .targetWithDefault).puts.bind fun _ => leads_more (hgo .patternElements)

theorem yieldsA_parameters (hgo : ∀ g, Promise g (go g)) :
    YieldsA .formalParameters (parameters go) := by
  refine fun _ => leads_mark_behind
    (R := fun base _ s => Sole base s ∧ TopIs .formalParameters s) (fun base => ?_)
    fun _ _ _ _ hcs hs => ⟨hs.1.behind hcs, hs.2⟩
  refine Leads.pre (P := At base false) ?_ fun _ => Is.at
  refine (puts_token _).bind fun _ => (hgo .parameterList).bind fun _ =>
    (puts_token _).bind fun _ => ?_
  exact (leads_closeAll (by decide)).post fun _ _ h => ⟨h.sole, h.topIs⟩

theorem grows_parameterList (hgo : ∀ g, Promise g (go g)) :
    Grows (parameterList go) := by
  intro base b
  refine (reads_sees _).bind fun _ => Leads.ite (reads_pure _).leads ?_
  refine Leads.post ?_ fun _ _ => At.of_true
  refine (reads_sees _).bind fun _ => Leads.ite ?_ ?_
  · exact (yields_restTarget hgo).puts.bind fun _ => leads_more (hgo .parameterList)
  · exact (hgo .targetWithDefault).puts.bind fun _ => leads_more (hgo .parameterList)

-- ============================================================= operators

theorem reads_nextOperator (noIn : Bool) :
    Reads (nextOperator noIn : Step src (Option (String × Nat))) := by
  refine reads_peek.then fun l => ?_
  split
  · exact reads_pure _
  · split
    · exact reads_pure _
    · exact reads_pure _

theorem yields_binary (hgo : ∀ g, Promise g (go g)) (level : Nat) (noIn : Bool) :
    Yields (binary go level noIn) :=
  yields_mark fun base => (hgo .unary).bind fun _ =>
    hgo (.operators base.length level noIn) base rfl

/-- The left side is there; the operator and the right side are put in a
row with it, and the comparison is the left side of the next one. -/
theorem leads_operators (hgo : ∀ g, Promise g (go g)) (base : List Node)
    (level : Nat) (noIn : Bool) :
    Leads (Sole base) (operators go base.length level noIn) fun _ => Sole base := by
  refine (reads_lastIsAny _).bind fun _ => Leads.ite (reads_pure _).leads ?_
  refine (reads_nextOperator _).bind fun o => ?_
  split
  · exact (reads_pure _).leads
  · next op p =>
      refine Leads.ite (reads_pure _).leads ?_
      refine Leads.pre (P := Pending Node.isMute [.left, .right] [] base) ?_
        fun _ => Sole.pending
      refine (leads_role_row (by decide) rfl).bind fun _ => ?_
      refine (leads_bare_row rfl (by decide) fun _ h => h).bind fun _ => ?_
      refine ((hgo (.binary _ noIn)).leads_row fun _ h => h).bind fun _ => ?_
      refine (leads_role_row (by decide) rfl).bind fun _ => ?_
      refine (leads_closeRow (by decide) rfl (by decide)).bind fun _ => ?_
      exact hgo (.operators base.length level noIn) base rfl

theorem yields_unary (hgo : ∀ g, Promise g (go g)) : Yields (unary go) := by
  refine yields_mark fun base => (reads_seesAny _).bind fun _ => Leads.ite ?_ ?_
  · refine Leads.pre (P := InRow Node.isMute [.argument] [] base) ?_ fun _ => Is.inRow
    refine (leads_bare_row rfl (by decide) fun _ h => h).bind fun _ => ?_
    refine ((hgo .unary).leads_row fun _ h => h).bind fun _ => ?_
    refine (leads_role_row (by decide) rfl).bind fun _ => ?_
    exact leads_closeRow (by decide) rfl (by decide)
  · refine (reads_seesAny _).bind fun _ => Leads.ite ?_ ?_
    · refine Leads.pre (P := At base false) ?_ fun _ => Is.at
      exact (puts_bare rfl).bind fun _ => (hgo .unary).puts.bind fun _ =>
        (leads_role rfl).bind fun _ => leads_closeSole (by decide)
    · refine leads_tokenIf (fun _ => Is.at) ?_ ?_
      · exact (hgo .unary).puts.bind fun _ => leads_closeSole (by decide)
      · refine (hgo (.access true)).bind fun _ => (reads_seesAny _).bind fun _ =>
          reads_gap.bind fun _ => (reads_lastIsAny _).bind fun _ => ?_
        refine Leads.ite ?_ (reads_pure _).leads
        refine Leads.pre (P := At base true) ?_ fun _ => Sole.at
        exact (leads_role rfl).bind fun _ => (puts_bare rfl).bind fun _ =>
          leads_closeSole (by decide)

theorem yields_conditional (hgo : ∀ g, Promise g (go g)) (noIn : Bool) :
    Yields (conditional go noIn) := by
  refine yields_mark fun base => (hgo (.binary 1 noIn)).bind fun _ =>
    (reads_sees _).bind fun _ => (reads_lastIsAny _).bind fun _ =>
      Leads.ite ?_ (reads_pure _).leads
  refine Leads.pre (P := At base true) ?_ fun _ => Sole.at
  refine (leads_role rfl).bind fun _ => (puts_token _).bind fun _ => ?_
  refine (hgo (.assignment false)).puts.bind fun _ => (leads_role rfl).bind fun _ => ?_
  refine (puts_token _).bind fun _ => (hgo (.assignment noIn)).puts.bind fun _ => ?_
  exact (leads_role rfl).bind fun _ => leads_closeSole (by decide)

theorem yields_yielding (hgo : ∀ g, Promise g (go g)) (noIn : Bool) :
    Yields (yielding go noIn) := by
  refine yields_mark_at fun base => (puts_token _).bind fun _ =>
    (grows_tokenIf _).bind fun _ => ?_
  have hclose : Leads (At base true) (close base.length .yieldExpression : Step src Unit)
      fun _ => Sole base := leads_closeSole (by decide)
  refine Leads.ite ?_ ?_
  · exact (hgo (.assignment noIn)).puts.bind fun _ => hclose
  · refine reads_endsHere.bind fun _ => (reads_seesAny _).bind fun _ =>
      Leads.ite ?_ hclose
    exact (hgo (.assignment noIn)).puts.bind fun _ => hclose

theorem yields_assignment (hgo : ∀ g, Promise g (go g)) (noIn : Bool) :
    Yields (assignment go noIn) := by
  refine fun base => (reads_sees _).bind fun _ =>
    Leads.ite (yields_yielding hgo noIn base) ?_
  refine yields_mark (fun base => ?_) base
  refine (yields_conditional hgo noIn).bind fun _ => (reads_sees _).bind fun _ =>
    (reads_lastIsAny _).bind fun _ => Leads.ite ?_ ?_
  · have hrest : Leads (At base true) (do
        role .left
        token "="
        go (.assignment noIn)
        role .right
        close base.length .assignmentExpression : Step src Unit) fun _ => Sole base := by
      refine (leads_role rfl).bind fun _ => (puts_token _).bind fun _ => ?_
      exact (hgo (.assignment noIn)).puts.bind fun _ => (leads_role rfl).bind fun _ =>
        leads_closeSole (by decide)
    refine Leads.pre (P := At base true) ?_ fun _ => Sole.at
    exact (reads_lastIsAny _).bind fun _ =>
      Leads.ite (leads_retarget.bind fun _ => hrest) hrest
  · refine (reads_seesAny _).bind fun _ => (reads_lastIsAny _).bind fun _ =>
      Leads.ite ?_ (reads_pure _).leads
    refine Leads.pre (P := At base true) ?_ fun _ => Sole.at
    refine (leads_role rfl).bind fun _ => (puts_bare rfl).bind fun _ => ?_
    exact (hgo (.assignment noIn)).puts.bind fun _ => (leads_role rfl).bind fun _ =>
      leads_closeSole (by decide)

theorem yields_expression (hgo : ∀ g, Promise g (go g)) (noIn : Bool) :
    Yields (expression go noIn) := by
  refine yields_mark fun base => (hgo (.assignment noIn)).bind fun _ =>
    (reads_sees _).bind fun _ => Leads.ite ?_ (reads_pure _).leads
  refine Leads.pre (P := At base true) ?_ fun _ => Sole.at
  exact (hgo (.sequence base.length noIn)).bind fun _ => leads_closeSole (by decide)

theorem grows_sequence (hgo : ∀ g, Promise g (go g)) (start : Nat) (noIn : Bool) :
    Grows (sequence go start noIn) := by
  intro base b
  refine (grows_tokenIf _).bind fun _ => Leads.ite ?_ (reads_pure _).leads
  exact (hgo (.assignment noIn)).puts.grows.bind fun _ =>
    hgo (.sequence start noIn) base b

-- ===================================================== members and calls

theorem yields_arguments (hgo : ∀ g, Promise g (go g)) : Yields (arguments go) :=
  yields_mark_at fun _ => (puts_token _).bind fun _ => (hgo (.elements false)).bind fun _ =>
    (puts_token _).bind fun _ => leads_closeSole (by decide)

theorem grows_elements (hgo : ∀ g, Promise g (go g)) (holes : Bool) :
    Grows (elements go holes) := by
  intro base b
  refine (reads_seesAny _).bind fun _ => Leads.ite (reads_pure _).leads ?_
  refine (reads_sees _).bind fun _ => Leads.ite ?_ ?_
  · exact (puts_token _).grows.bind fun _ => hgo (.elements holes) base b
  · refine Leads.post ?_ fun _ _ => At.of_true
    refine leads_mark fun m hm => (grows_tokenIf _).bind fun _ => Leads.ite ?_ ?_
    · exact (hgo (.assignment false)).puts.bind fun _ =>
        (leads_close hm (by decide)).bind fun _ => leads_more (hgo (.elements holes))
    · exact (hgo (.assignment false)).puts.bind fun _ =>
        leads_more (hgo (.elements holes))

theorem leads_memberName (base : List Node) :
    Leads (InRow Node.isMute [.object] [.object] base)
      (memberName base.length : Step src Unit) fun _ => Sole base := by
  have hclose : Leads (InRow Node.isMute [.object] [.object] base)
      (close base.length .memberExpression : Step src Unit) fun _ => Sole base :=
    leads_closeRow (by decide) rfl (by decide)
  refine reads_peek.bind fun l => ?_
  dsimp only
  split
  · exact (leads_take_row (fun _ => rfl) rfl (by decide) fun _ h => h).bind fun _ => hclose
  · exact (leads_take_row (fun _ => rfl) rfl (by decide) fun _ h => h).bind fun _ => hclose
  · exact leads_failure.bind fun _ => hclose

theorem leads_subscript (hgo : ∀ g, Promise g (go g)) (base : List Node) (b : Bool) :
    Leads (At base b) (subscript go base.length) fun _ => Sole base :=
  (puts_token _).bind fun _ => (hgo (.expression false)).puts.bind fun _ =>
    (leads_role rfl).bind fun _ => (puts_token _).bind fun _ => leads_closeSole (by decide)

theorem leads_callArguments (hgo : ∀ g, Promise g (go g)) (base : List Node) :
    Leads (InRow Node.isMute [.function, .arguments] [.function] base)
      (callArguments go base.length) fun _ => Sole base :=
  ((hgo .arguments).leads_row fun _ h => h).bind fun _ =>
    (leads_role_row (by decide) rfl).bind fun _ =>
      leads_closeRow (by decide) rfl (by decide)

/-- The expression so far is the object or the function of the next
access or call. -/
theorem leads_accesses (hgo : ∀ g, Promise g (go g)) (base : List Node)
    (calls : Bool) :
    Leads (Sole base) (accesses go base.length calls) fun _ => Sole base := by
  have hmore : Leads (Sole base) (go (.accesses base.length calls))
      fun _ => Sole base := hgo (.accesses base.length calls) base rfl
  have hobject : Leads (Sole base) (role .object : Step src Unit)
      fun _ => InRow Node.isMute [.object] [.object] base :=
    (leads_role_row (by decide) rfl).pre fun _ => Sole.pending
  have hfunction : Leads (Sole base) (role .function : Step src Unit)
      fun _ => InRow Node.isMute [.function, .arguments] [.function] base :=
    (leads_role_row (by decide) rfl).pre fun _ => Sole.pending
  refine (reads_lastIsAny _).bind fun _ => Leads.ite (reads_pure _).leads ?_
  refine leads_peek fun l => ?_
  have hforget {p : Step src Unit} (hp : Leads (Sole base) p fun _ => Sole base) :
      Leads (fun s => Sole base s ∧ s.next = l) p fun _ => Sole base :=
    hp.pre fun _ h => h.1
  refine Leads.ite (hforget ?_) (Leads.ite (hforget ?_) (Leads.ite (hforget ?_)
    (Leads.ite (hforget ?_) ?_)))
  · exact hobject.bind fun _ => (leads_token_row _).bind fun _ =>
      (leads_memberName base).bind fun _ => hmore
  · refine Leads.pre (P := At base true) ?_ fun _ => Sole.at
    exact (leads_role rfl).bind fun _ => (leads_subscript hgo base true).bind fun _ => hmore
  · refine reads_peekSecond.bind fun x => ?_
    obtain ⟨g, second⟩ := x
    dsimp only
    by_cases hcall : second.isSpelled "(" = true
    · simp only [if_pos hcall]
      refine hfunction.bind fun _ => ?_
      refine (leads_take_row (fun _ => rfl) rfl (by decide) fun _ h => h).bind fun _ => ?_
      exact (leads_callArguments hgo base).bind fun _ => hmore
    · simp only [if_neg hcall]
      refine hobject.bind fun _ => ?_
      refine (leads_take_row (fun _ => rfl) rfl (by decide) fun _ h => h).bind fun _ => ?_
      refine Leads.ite ?_ ?_
      · exact ((leads_subscript hgo base false).pre fun _ => InRow.at).bind fun _ => hmore
      · exact (leads_memberName base).bind fun _ => hmore
  · exact hfunction.bind fun _ => (leads_callArguments hgo base).bind fun _ => hmore
  · split
    · next hl =>
        have hl : l.shape = .backtick := by simpa using hl
        refine (hfunction.and leads_role_next).bind fun _ => ?_
        refine Leads.bind ((leads_row_if (leads_template hgo) fun _ h => h).pre
          fun s hs => ⟨hs.1, hs.2 ▸ hl⟩) fun _ => ?_
        refine (leads_role_row (by decide) rfl).bind fun _ => ?_
        exact (leads_closeRow (by decide) rfl (by decide)).bind fun _ => hmore
    · exact hforget (reads_pure _).leads

theorem yields_newExpression (hgo : ∀ g, Promise g (go g)) :
    Yields (newExpression go) := by
  refine yields_mark_at fun base => (puts_token _).bind fun _ =>
    (grows_tokenIf _).bind fun _ => Leads.ite ?_ ?_
  · exact (puts_token _).bind fun _ => leads_closeSole (by decide)
  · refine (hgo (.access false)).puts.bind fun _ => (leads_role rfl).bind fun _ =>
      (reads_sees _).bind fun _ => Leads.ite ?_ (leads_closeSole (by decide))
    exact (hgo .arguments).puts.bind fun _ => (leads_role rfl).bind fun _ =>
      leads_closeSole (by decide)

-- ================================================== functions and classes

theorem leads_arrowBody (hgo : ∀ g, Promise g (go g)) (base : List Node) (b : Bool) :
    Leads (At base b) (arrowBody go base.length) fun _ => Sole base := by
  have hclose : Leads (At base true) (do
      role .body
      close base.length .arrowFunction : Step src Unit) fun _ => Sole base :=
    (leads_role rfl).bind fun _ => leads_closeSole (by decide)
  refine (puts_token _).bind fun _ => (reads_sees _).bind fun _ => Leads.ite ?_ ?_
  · exact (hgo .block).puts.bind fun _ => hclose
  · exact (hgo (.assignment false)).puts.bind fun _ => hclose

theorem reads_seesArrow : Reads (seesArrow : Step src Bool) :=
  (reads_sees _).then fun _ => reads_gap.then fun _ => reads_pure _

/-- Parameters are read and put in their role. -/
theorem leads_parameters (hgo : ∀ g, Promise g (go g)) {base : List Node} {b : Bool}
    {k : Unit → Step src α} {Q : α → Progress src → Prop}
    (h : ∀ a, Leads (At base true) (k a) Q) :
    Leads (At base b) (go .parameters >>= fun _ => role .parameters >>= k) Q :=
  Leads.bind ((hgo .parameters).puts base b) fun _ => leads_role_parameters.bind h

theorem leads_function (hgo : ∀ g, Promise g (go g)) (base : List Node)
    (declared : Bool) :
    Leads (Is base) (function go base.length declared) fun _ => Sole base := by
  refine Leads.pre (P := At base false) ?_ fun _ => Is.at
  refine (grows_tokenIf _).bind fun _ => (puts_token _).bind fun _ =>
    (grows_tokenIf _).bind fun generator => ?_
  have hrest {symbol : Symbol} (hplain : IsPlain symbol) : Leads (At base true) (do
      go .parameters
      role .parameters
      go .block
      role .body
      close base.length symbol : Step src Unit) fun _ => Sole base :=
    leads_parameters hgo fun _ => (hgo .block).puts.bind fun _ =>
      (leads_role rfl).bind fun _ => leads_closeSole hplain
  refine reads_peek.bind fun _ => Leads.ite ?_ (hrest ?_)
  · exact (yields_name rfl).puts.bind fun _ =>
      hrest (by cases declared <;> cases generator <;> decide)
  · cases declared <;> cases generator <;> decide

theorem leads_method (hgo : ∀ g, Promise g (go g)) {base : List Node} {start : Nat}
    (hstart : base.length ≤ start) :
    Leads (At base true) (method go start) fun _ => At base true :=
  leads_parameters hgo fun _ => (hgo .block).puts.bind fun _ =>
    (leads_role rfl).bind fun _ => leads_close hstart (by decide)

theorem grows_methodModifiers : Grows (methodModifiers : Step src Unit) := by
  intro base b
  have hkind (third : Lexeme) : Leads (At base b) (do
      if ← sees "*" then token "*"
      else if (← seesAny ["get", "set"]) && third.startsProperty then bare none
      : Step src Unit) fun _ => At base b := by
    refine (reads_sees _).bind fun _ => Leads.ite ?_ ?_
    · exact (puts_token _).grows base b
    · exact (reads_seesAny _).bind fun _ =>
        Leads.ite ((puts_bare rfl).grows base b) (reads_pure _).leads
  refine reads_peekSecond.bind fun _ => (reads_sees _).bind fun _ => Leads.ite ?_ ?_
  · exact (puts_token _).grows.bind fun _ => reads_peekSecond.bind fun x => hkind x.2
  · exact reads_peekSecond.bind fun x => hkind x.2

theorem leads_classFrom (hgo : ∀ g, Promise g (go g)) (base : List Node)
    (declared : Bool) :
    Leads (Is base) (classFrom go base.length declared) fun _ => Sole base := by
  have hbody : Leads (At base true) (do
      let body ← mark
      token "\x7b"
      go .members
      token "\x7d"
      close body .classBody
      role .body
      close base.length (if declared then .classDeclaration else .classExpr)
      : Step src Unit) fun _ => Sole base := by
    refine leads_mark fun m hm => (puts_token _).bind fun _ => (hgo .members).bind
      fun _ => (puts_token _).bind fun _ => (leads_close hm (by decide)).bind fun _ => ?_
    refine (leads_role rfl).bind fun _ => leads_closeSole ?_
    cases declared <;> decide
  have hrest : Leads (At base true) (do
      let heritage ← mark
      if ← tokenIf "extends" then
        go (.access true)
        close heritage .classHeritage
      let body ← mark
      token "\x7b"
      go .members
      token "\x7d"
      close body .classBody
      role .body
      close base.length (if declared then .classDeclaration else .classExpr)
      : Step src Unit) fun _ => Sole base := by
    refine leads_mark fun m hm => (grows_tokenIf _).bind fun _ => Leads.ite ?_ hbody
    exact (hgo (.access true)).puts.bind fun _ =>
      (leads_close hm (by decide)).bind fun _ => hbody
  refine Leads.pre (P := At base false) ?_ fun _ => Is.at
  refine (puts_token _).bind fun _ => reads_peek.bind fun _ => Leads.ite ?_ hrest
  exact (yields_name rfl).puts.bind fun _ => hrest

theorem grows_members (hgo : ∀ g, Promise g (go g)) : Grows (members go) := by
  intro base b
  have hmore : Leads (At base true) (go .members) fun _ => At base true :=
    hgo .members base true
  refine (reads_sees _).bind fun _ => Leads.ite (reads_pure _).leads ?_
  refine (grows_tokenIf _).bind fun _ => Leads.ite (hgo .members base b) ?_
  refine Leads.post ?_ fun _ _ => At.of_true
  refine leads_mark fun m hm => reads_peekSecond.bind fun x => (reads_sees _).bind
    fun _ => Leads.ite ?_ ?_
  · refine (puts_token _).bind fun _ => (hgo .block).puts.bind fun _ =>
      (leads_role rfl).bind fun _ => ?_
    exact (leads_close hm (by decide)).bind fun _ => (leads_role rfl).bind fun _ => hmore
  · have hend : Leads (At base true) (do
        close m .fieldDefinition
        role .member
        if !(← sees ";") then require (← endsHere)
        go .members : Step src Unit) fun _ => At base true := by
      refine (leads_close hm (by decide)).bind fun _ => (leads_role rfl).bind fun _ =>
        (reads_sees _).bind fun _ => Leads.ite ?_ hmore
      exact reads_endsHere.bind fun _ => (reads_require _).bind fun _ => hmore
    have hvalue : Leads (At base true) (do
        role .property
        if ← tokenIf "=" then
          go (.assignment false)
          role .value
        close m .fieldDefinition
        role .member
        if !(← sees ";") then require (← endsHere)
        go .members : Step src Unit) fun _ => At base true := by
      refine (leads_role rfl).bind fun _ => (grows_tokenIf _).bind fun _ =>
        Leads.ite ?_ hend
      exact (hgo (.assignment false)).puts.bind fun _ => (leads_role rfl).bind
        fun _ => hend
    have hmember : Leads (At base b) (do
        methodModifiers
        propertyName go .name
        if ← sees "(" then
          go (.method m)
          role .member
        else
          role .property
          if ← tokenIf "=" then
            go (.assignment false)
            role .value
          close m .fieldDefinition
          role .member
          if !(← sees ";") then require (← endsHere)
        go .members : Step src Unit) fun _ => At base true := by
      refine grows_methodModifiers.bind fun _ => (puts_propertyName hgo rfl).bind
        fun _ => (reads_sees _).bind fun _ => Leads.ite ?_ hvalue
      exact (hgo (.method m) base hm).bind fun _ => (leads_role rfl).bind fun _ => hmore
    refine (reads_sees _).bind fun _ => Leads.ite ?_ hmember
    exact (puts_token _).bind fun _ => hmember.pre fun _ => At.of_true

-- ============================================================== objects

theorem grows_properties (hgo : ∀ g, Promise g (go g)) : Grows (properties go) := by
  intro base b
  refine (reads_sees _).bind fun _ => Leads.ite (reads_pure _).leads ?_
  refine Leads.post ?_ fun _ _ => At.of_true
  refine leads_mark fun m hm => reads_peek.bind fun l => reads_peekSecond.bind fun x =>
    (grows_tokenIf _).bind fun _ => ?_
  refine Leads.ite ?_ (Leads.ite ?_ (Leads.ite ?_ ?_))
  · refine (hgo (.assignment false)).puts.bind fun _ => ?_
    exact (leads_close hm (by decide)).bind fun _ => leads_more (hgo .properties)
  · refine (puts_leaf _ rfl rfl).bind fun _ => (puts_token _).bind fun _ => ?_
    refine (hgo (.assignment false)).puts.bind fun _ => (leads_role rfl).bind fun _ => ?_
    exact (leads_close hm (by decide)).bind fun _ => leads_more (hgo .properties)
  · exact (puts_leaf _ rfl rfl).bind fun _ => leads_more (hgo .properties)
  · refine grows_methodModifiers.bind fun _ => (puts_propertyName hgo rfl).bind fun _ =>
      (reads_sees _).bind fun _ => Leads.ite ?_ ?_
    · exact (hgo (.method m) base hm).bind fun _ => leads_more (hgo .properties)
    · refine (leads_role rfl).bind fun _ => (puts_token _).bind fun _ => ?_
      refine (hgo (.assignment false)).puts.bind fun _ => (leads_role rfl).bind fun _ => ?_
      exact (leads_close hm (by decide)).bind fun _ => leads_more (hgo .properties)

theorem yields_parenthesized (hgo : ∀ g, Promise g (go g)) :
    Yields (parenthesized go) :=
  yields_mark_at fun _ => (puts_token _).bind fun _ => (hgo (.expression false)).puts.bind
    fun _ => (puts_token _).bind fun _ => leads_closeSole (by decide)

theorem yields_importWord : Yields (importWord : Step src Unit) := by
  refine yields_mark_at fun base => (puts_token _).bind fun _ =>
    (grows_tokenIf _).bind fun _ => Leads.ite ?_ ?_
  · exact (puts_token _).bind fun _ => leads_closeSole (by decide)
  · exact (reads_sees _).bind fun _ => (reads_require _).bind fun _ =>
      leads_closeSole (by decide)

/-- What reads as the parameters of an arrow function. -/
theorem leads_tried (hgo : ∀ g, Promise g (go g)) (base : List Node) (b : Bool) :
    Leads (At base b) (do
      go .parameters
      role .parameters
      seesArrow : Step src Bool) fun _ => At base true :=
  leads_parameters hgo fun _ => reads_seesArrow.leads

theorem isLiteralKind_of_wordLiteral? {w : String} {sym : Symbol}
    (h : wordLiteral? w = some sym) :
    Node.isLiteralKind (.symbol sym) true = false := by
  unfold wordLiteral? at h
  split at h
  all_goals cases h
  all_goals rfl

theorem yields_nameOrArrow (hgo : ∀ g, Promise g (go g)) : Yields (nameOrArrow go) := by
  refine yields_mark fun base => reads_peekSecond.bind fun x => ?_
  obtain ⟨g, second⟩ := x
  dsimp only
  refine (reads_sees _).bind fun _ => Leads.ite (hgo (.function _ false) base rfl) ?_
  refine (reads_sees _).bind fun _ => Leads.ite ?_ ?_
  · refine Leads.pre (P := At base false) ?_ fun _ => Is.at
    exact (puts_token _).bind fun _ => (yields_name rfl).puts.bind fun _ =>
      leads_arrowBody hgo base true
  · refine (reads_sees _).bind fun _ => Leads.ite ?_ ?_
    · refine leads_attempt (R := At base true) ?_ (leads_arrowBody hgo base true)
        (yields_name rfl base)
      refine Leads.pre (P := At base false) ?_ fun _ => Is.at
      exact (puts_token _).bind fun _ =>
        (leads_tried hgo base true).post fun _ _ h _ => h
    · refine Leads.ite ?_ ?_
      · refine Leads.pre (P := At base false) ?_ fun _ => Is.at
        exact (yields_name rfl).puts.bind fun _ => leads_arrowBody hgo base true
      · refine reads_peek.bind fun l => ?_
        split
        · next hsym => exact yields_leaf _ rfl (isLiteralKind_of_wordLiteral? hsym) base
        · exact yields_name rfl base

theorem yields_primary (hgo : ∀ g, Promise g (go g)) : Yields (primary go) := by
  refine yields_mark fun base => leads_peek fun l => ?_
  have hforget {p : Step src Unit} (hp : Leads (Is base) p fun _ => Sole base) :
      Leads (fun s => Is base s ∧ s.next = l) p fun _ => Sole base :=
    hp.pre fun _ h => h.1
  split
  · next hl => exact leads_number hl
  · exact hforget (yields_string base)
  · next hl => exact (leads_template hgo base).pre fun s hs => ⟨hs.1, hs.2 ▸ hl⟩
  · exact hforget (yields_leaf _ rfl rfl base)
  · refine hforget (Leads.ite (hgo (.function _ false) base rfl) ?_)
    refine Leads.ite (hgo (.classFrom _ false) base rfl) ?_
    refine Leads.ite (yields_importWord base) ?_
    exact Leads.ite (yields_newExpression hgo base) (yields_nameOrArrow hgo base)
  · refine hforget (Leads.ite ?_ (Leads.ite ?_ (Leads.ite ?_ (Leads.ite ?_ leads_failure))))
    · refine leads_attempt (R := At base true) ?_ (leads_arrowBody hgo base true)
        (yields_parenthesized hgo base)
      refine Leads.pre (P := At base false) ?_ fun _ => Is.at
      exact (leads_tried hgo base false).post fun _ _ h _ => h
    · refine Leads.pre (P := At base false) ?_ fun _ => Is.at
      exact (puts_token _).bind fun _ => (hgo (.elements true)).bind fun _ =>
        (puts_token _).bind fun _ => leads_closeSole (by decide)
    · refine Leads.pre (P := At base false) ?_ fun _ => Is.at
      exact (puts_token _).bind fun _ => (hgo .properties).bind fun _ =>
        (puts_token _).bind fun _ => leads_closeSole (by decide)
    · exact yields_regex base
  · exact leads_failure

theorem yields_access (hgo : ∀ g, Promise g (go g)) (calls : Bool) :
    Yields (access go calls) :=
  yields_mark fun base => (yields_primary hgo).bind fun _ =>
    hgo (.accesses base.length calls) base rfl

end Codemod.Parse
