/-
What the parser builds.

The statements, like the expressions, keep the promises of their goals if
the steps they ask for do; so, by induction on the fuel, every goal keeps
its promise (`promise_run`).

Main statement: `parse_sound`. A program that is parsed is shaped, and its
nodes are told apart by the numbers given out.
-/
import Codemod.Proofs.Parse.Expression
import Codemod.Proofs.Tree.Splice

namespace Codemod

namespace Parse

open Step

variable {src : List Char} {go : Goal → Step src Unit}

-- ========================================================= declarations

theorem puts_declarators (hgo : ∀ g, Promise g (go g)) (noIn : Bool) :
    Puts (declarators go noIn) := by
  refine fun base b => leads_mark fun m hm => (hgo (.target true)).puts.bind fun _ =>
    (leads_role rfl).bind fun _ => (grows_tokenIf _).bind fun _ => ?_
  have hrest : Leads (At base true) (do
      close m .variableDeclarator
      if ← tokenIf "," then go (.declarators noIn) : Step src Unit)
      fun _ => At base true :=
    (leads_close hm (by decide)).bind fun _ => leads_more (hgo (.declarators noIn)).grows
  refine Leads.ite ?_ hrest
  exact (hgo (.assignment noIn)).puts.bind fun _ => (leads_role rfl).bind fun _ => hrest

theorem isPlain_declaration (isVar : Bool) :
    IsPlain (if isVar then .variableDeclaration else .lexicalDeclaration) := by
  cases isVar <;> decide

theorem puts_bare_declaring (isVar : Bool) :
    Puts (bare (if isVar then none else some .kind) : Step src Unit) := by
  cases isVar with
  | true => exact puts_bare rfl
  | false => exact puts_bare_kind

theorem yields_declaration (hgo : ∀ g, Promise g (go g)) : Yields (declaration go) :=
  yields_mark_at fun _ => (reads_sees _).bind fun isVar =>
    (puts_bare_declaring isVar).bind fun _ =>
      (hgo (.declarators false)).bind fun _ => grows_semicolon.bind fun _ =>
        leads_closeSole (isPlain_declaration isVar)

theorem reads_seesDeclaration : Reads (seesDeclaration : Step src Bool) :=
  reads_peekSecond.then fun _ => (reads_seesAny _).then fun _ => (reads_sees _).then
    fun _ => reads_pure _

theorem reads_seesFunction : Reads (seesFunction : Step src Bool) :=
  reads_peekSecond.then fun _ => (reads_sees _).then fun _ => (reads_sees _).then
    fun _ => reads_pure _

-- =========================================================== control flow

theorem yields_block (hgo : ∀ g, Promise g (go g)) : Yields (block go) :=
  yields_mark_at fun _ => (puts_token _).bind fun _ => (hgo .statements).bind fun _ =>
    (puts_token _).bind fun _ => leads_closeSole (by decide)

theorem grows_statements (hgo : ∀ g, Promise g (go g)) : Grows (statements go) := by
  intro base b
  refine reads_peek.bind fun _ => Leads.ite (reads_pure _).leads ?_
  exact (hgo .statement).puts.grows.bind fun _ => hgo .statements base b

theorem puts_condition (hgo : ∀ g, Promise g (go g)) {r : Role}
    (hr : Node.roleTest? (some r) = none) : Puts (condition go r) := fun _ _ =>
  (yields_parenthesized hgo).puts.bind fun _ => leads_role hr

theorem yields_ifStatement (hgo : ∀ g, Promise g (go g)) : Yields (ifStatement go) := by
  refine yields_mark_at fun base => (puts_token _).bind fun _ =>
    (puts_condition hgo rfl).bind fun _ => (hgo .statement).puts.bind fun _ =>
      (leads_role rfl).bind fun _ => (reads_sees _).bind fun _ => ?_
  refine Leads.ite ?_ (leads_closeSole (by decide))
  refine leads_mark fun m hm => (puts_token _).bind fun _ =>
    (hgo .statement).puts.bind fun _ => (leads_close hm (by decide)).bind fun _ => ?_
  exact (leads_role rfl).bind fun _ => leads_closeSole (by decide)

theorem leads_forIn (hgo : ∀ g, Promise g (go g)) (base : List Node) :
    Leads (At base true) (forIn go base.length) fun _ => Sole base :=
  (puts_bare rfl).bind fun _ => (hgo (.expression false)).puts.bind fun _ =>
    (leads_role rfl).bind fun _ => (puts_token _).bind fun _ =>
      (hgo .statement).puts.bind fun _ => (leads_role rfl).bind fun _ =>
        leads_closeSole (by decide)

theorem leads_forRest (hgo : ∀ g, Promise g (go g)) (base : List Node) :
    Leads (At base true) (forRest go base.length) fun _ => Sole base := by
  have hbody : Leads (At base true) (do
      token ")"
      go .statement
      role .body
      close base.length .forStatement : Step src Unit) fun _ => Sole base :=
    (puts_token _).bind fun _ => (hgo .statement).puts.bind fun _ =>
      (leads_role rfl).bind fun _ => leads_closeSole (by decide)
  have hincrement : Leads (At base true) (do
      if !(← sees ")") then
        go (.expression false)
        role .increment
      token ")"
      go .statement
      role .body
      close base.length .forStatement : Step src Unit) fun _ => Sole base := by
    refine (reads_sees _).bind fun _ => Leads.ite ?_ hbody
    exact (hgo (.expression false)).puts.bind fun _ => (leads_role rfl).bind
      fun _ => hbody
  refine leads_mark fun m hm => (grows_tokenIf _).bind fun _ => Leads.ite ?_ ?_
  · exact (leads_close hm (by decide)).bind fun _ => (leads_role rfl).bind
      fun _ => hincrement
  · exact (hgo (.expression false)).puts.bind fun _ => (leads_role rfl).bind fun _ =>
      (puts_token _).bind fun _ => (leads_role rfl).bind fun _ => hincrement

theorem yields_forStatement (hgo : ∀ g, Promise g (go g)) :
    Yields (forStatement go) := by
  refine yields_mark_at fun base => (puts_token _).bind fun _ =>
    (grows_tokenIf _).bind fun _ => (puts_token _).bind fun _ =>
      leads_mark fun m hm => (grows_tokenIf _).bind fun _ => Leads.ite ?_ ?_
  · exact (leads_close hm (by decide)).bind fun _ => (leads_role rfl).bind fun _ =>
      leads_forRest hgo base
  · refine reads_seesDeclaration.bind fun _ => Leads.ite ?_ ?_
    · refine leads_attempt (R := At base true) ?_ (leads_forIn hgo base) ?_
      · exact puts_bare_kind.bind fun _ => (hgo (.target true)).puts.bind fun _ =>
          (leads_role rfl).bind fun _ => (reads_seesAny _).leads.post fun _ _ h _ => h
      · refine (reads_sees _).bind fun isVar =>
          (puts_bare_declaring isVar).bind fun _ =>
            (hgo (.declarators true)).bind fun _ => (puts_token _).bind fun _ => ?_
        exact (leads_close hm (isPlain_declaration isVar)).bind fun _ =>
          (leads_role rfl).bind fun _ => leads_forRest hgo base
    · have hin : Leads (At base true) (do
          require (← lastIsAny
            (.objectPattern :: .arrayPattern :: Node.simpleTargets))
          role .left
          forIn go base.length : Step src Unit) fun _ => Sole base :=
        (reads_lastIsAny _).bind fun _ => (reads_require _).bind fun _ =>
          (leads_role rfl).bind fun _ => leads_forIn hgo base
      refine (hgo (.expression true)).puts.bind fun _ => (reads_seesAny _).bind fun _ =>
        Leads.ite ?_ ?_
      · exact (reads_lastIsAny _).bind fun _ =>
          Leads.ite (leads_retarget.bind fun _ => hin) hin
      · exact (leads_role rfl).bind fun _ => (puts_token _).bind fun _ =>
          leads_forRest hgo base

theorem yields_whileStatement (hgo : ∀ g, Promise g (go g)) :
    Yields (whileStatement go) :=
  yields_mark_at fun _ => (puts_token _).bind fun _ => (puts_condition hgo rfl).bind
    fun _ => (hgo .statement).puts.bind fun _ => (leads_role rfl).bind fun _ =>
      leads_closeSole (by decide)

theorem yields_doStatement (hgo : ∀ g, Promise g (go g)) : Yields (doStatement go) :=
  yields_mark_at fun _ => (puts_token _).bind fun _ => (hgo .statement).puts.bind
    fun _ => (leads_role rfl).bind fun _ => (puts_token _).bind fun _ =>
      (puts_condition hgo rfl).bind fun _ => (grows_tokenIf _).bind fun _ =>
        leads_closeSole (by decide)

theorem yields_withStatement (hgo : ∀ g, Promise g (go g)) :
    Yields (withStatement go) :=
  yields_mark_at fun _ => (puts_token _).bind fun _ => (puts_condition hgo rfl).bind
    fun _ => (hgo .statement).puts.bind fun _ => (leads_role rfl).bind fun _ =>
      leads_closeSole (by decide)

theorem yields_switchStatement (hgo : ∀ g, Promise g (go g)) :
    Yields (switchStatement go) := by
  refine yields_mark_at fun base => (puts_token _).bind fun _ =>
    (puts_condition hgo rfl).bind fun _ => leads_mark fun m hm => ?_
  refine (puts_token _).bind fun _ => (hgo .cases).bind fun _ =>
    (puts_token _).bind fun _ => (leads_close hm (by decide)).bind fun _ => ?_
  exact (leads_role rfl).bind fun _ => leads_closeSole (by decide)

theorem grows_cases (hgo : ∀ g, Promise g (go g)) : Grows (cases go) := by
  intro base b
  refine (reads_sees _).bind fun _ => Leads.ite (reads_pure _).leads ?_
  refine Leads.post ?_ fun _ _ => At.of_true
  refine leads_mark fun m hm => (grows_tokenIf _).bind fun _ => Leads.ite ?_ ?_
  · refine (hgo (.expression false)).puts.bind fun _ => (leads_role rfl).bind fun _ =>
      (puts_token _).bind fun _ => (hgo .caseBody).bind fun _ => ?_
    exact (leads_close hm (by decide)).bind fun _ => hgo .cases base true
  · refine (puts_token _).bind fun _ => (puts_token _).bind fun _ =>
      (hgo .caseBody).bind fun _ => ?_
    exact (leads_close hm (by decide)).bind fun _ => hgo .cases base true

theorem grows_caseBody (hgo : ∀ g, Promise g (go g)) : Grows (caseBody go) := by
  intro base b
  refine (reads_seesAny _).bind fun _ => Leads.ite (reads_pure _).leads ?_
  refine Leads.post ?_ fun _ _ => At.of_true
  exact (hgo .statement).puts.bind fun _ => (leads_role rfl).bind fun _ =>
    hgo .caseBody base true

theorem yields_tryStatement (hgo : ∀ g, Promise g (go g)) :
    Yields (tryStatement go) := by
  refine yields_mark_at fun base => (puts_token _).bind fun _ => (hgo .block).puts.bind
    fun _ => (leads_role rfl).bind fun _ => (reads_sees _).bind fun _ => ?_
  have hfinally : Leads (At base true) (do
      if ← sees "finally" then
        let finalizer ← mark
        token "finally"
        go .block
        role .body
        close finalizer .finallyClause
        role .finalizer
      close base.length .tryStatement : Step src Unit) fun _ => Sole base := by
    refine (reads_sees _).bind fun _ => Leads.ite ?_ (leads_closeSole (by decide))
    refine leads_mark fun m hm => (puts_token _).bind fun _ => (hgo .block).puts.bind
      fun _ => (leads_role rfl).bind fun _ => (leads_close hm (by decide)).bind fun _ => ?_
    exact (leads_role rfl).bind fun _ => leads_closeSole (by decide)
  refine Leads.ite ?_ hfinally
  refine leads_mark fun m hm => (puts_token _).bind fun _ => ?_
  have hhandler : Leads (At base true) (do
      go .block
      role .body
      close m .catchClause
      role .handler
      if ← sees "finally" then
        let finalizer ← mark
        token "finally"
        go .block
        role .body
        close finalizer .finallyClause
        role .finalizer
      close base.length .tryStatement : Step src Unit) fun _ => Sole base :=
    (hgo .block).puts.bind fun _ => (leads_role rfl).bind fun _ =>
      (leads_close hm (by decide)).bind fun _ => (leads_role rfl).bind fun _ => hfinally
  refine (grows_tokenIf _).bind fun _ => Leads.ite ?_ hhandler
  exact (hgo (.target true)).puts.bind fun _ => (leads_role rfl).bind fun _ =>
    (puts_token _).bind fun _ => hhandler

theorem yields_returnStatement (hgo : ∀ g, Promise g (go g)) :
    Yields (returnStatement go) := by
  refine yields_mark_at fun base => (puts_token _).bind fun _ => (reads_sees _).bind
    fun _ => reads_endsHere.bind fun _ => ?_
  have hrest : Leads (At base true) (do
      semicolon
      close base.length .returnStatement : Step src Unit) fun _ => Sole base :=
    grows_semicolon.bind fun _ => leads_closeSole (by decide)
  exact Leads.ite ((hgo (.expression false)).puts.bind fun _ => hrest) hrest

theorem yields_throwStatement (hgo : ∀ g, Promise g (go g)) :
    Yields (throwStatement go) :=
  yields_mark_at fun _ => (puts_token _).bind fun _ => (hgo (.expression false)).puts.bind
    fun _ => grows_semicolon.bind fun _ => leads_closeSole (by decide)

theorem yields_jump (word : String) {sym : Symbol} (hs : IsPlain sym) :
    Yields (jump word sym : Step src Unit) := by
  refine yields_mark_at fun base => (puts_token _).bind fun _ => reads_endsHere.bind
    fun _ => reads_peek.bind fun _ => ?_
  have hrest : Leads (At base true) (do
      semicolon
      close base.length sym : Step src Unit) fun _ => Sole base :=
    grows_semicolon.bind fun _ => leads_closeSole hs
  exact Leads.ite ((puts_leaf _ rfl rfl).bind fun _ => hrest) hrest

theorem yields_labeled (hgo : ∀ g, Promise g (go g)) : Yields (labeled go) :=
  yields_mark_at fun _ => (puts_leaf _ rfl rfl).bind fun _ => (puts_token _).bind fun _ =>
    (hgo .statement).puts.bind fun _ => (leads_role rfl).bind fun _ =>
      leads_closeSole (by decide)

theorem yields_expressionStatement (hgo : ∀ g, Promise g (go g)) :
    Yields (expressionStatement go) :=
  yields_mark_at fun _ => (hgo (.expression false)).puts.bind fun _ =>
    grows_semicolon.bind fun _ => leads_closeSole (by decide)

-- =============================================================== modules

theorem puts_source : Puts (source : Step src Unit) := fun _ _ =>
  (puts_token _).bind fun _ => yields_string.puts.bind fun _ => leads_role rfl

theorem puts_specifierName {r : Role} (hr : Node.roleTest? (some r) = none) :
    Puts (specifierName r : Step src Unit) := by
  refine fun base b => reads_peek.bind fun l => Leads.ite ?_ ?_
  · exact yields_string.puts.bind fun _ => leads_role hr
  · exact (reads_require _).bind fun _ =>
      Leads.ite (puts_bare hr base b) (puts_leaf _ hr rfl base b)

theorem puts_specifier {sym : Symbol} (hs : IsPlain sym) :
    Puts (specifier sym : Step src Unit) := by
  refine fun base b => leads_mark fun m hm => (puts_specifierName rfl).bind fun _ =>
    (grows_tokenIf _).bind fun _ => Leads.ite ?_ (leads_close hm hs)
  exact (puts_specifierName rfl).bind fun _ => leads_close hm hs

theorem grows_importSpecifiers (hgo : ∀ g, Promise g (go g)) :
    Grows (importSpecifiers go) := by
  intro base b
  refine (reads_sees _).bind fun _ => Leads.ite (reads_pure _).leads ?_
  exact (puts_specifier (by decide)).grows.bind fun _ =>
    leads_more (hgo .importSpecifiers)

theorem grows_exportSpecifiers (hgo : ∀ g, Promise g (go g)) :
    Grows (exportSpecifiers go) := by
  intro base b
  refine (reads_sees _).bind fun _ => Leads.ite (reads_pure _).leads ?_
  exact (puts_specifier (by decide)).grows.bind fun _ =>
    leads_more (hgo .exportSpecifiers)

theorem puts_importedNames (hgo : ∀ g, Promise g (go g)) : Puts (importedNames go) := by
  refine fun base b => leads_mark fun m hm => (grows_tokenIf _).bind fun _ =>
    Leads.ite ?_ ?_
  · exact (puts_token _).bind fun _ => (yields_name rfl).puts.bind fun _ =>
      leads_close hm (by decide)
  · exact (puts_token _).bind fun _ => (hgo .importSpecifiers).bind fun _ =>
      (puts_token _).bind fun _ => leads_close hm (by decide)

theorem yields_importStatement (hgo : ∀ g, Promise g (go g)) :
    Yields (importStatement go) := by
  refine yields_mark_at fun base => (puts_token _).bind fun _ => reads_peek.bind
    fun _ => ?_
  have hend : Leads (At base true) (do
      semicolon
      close base.length .importStatement : Step src Unit) fun _ => Sole base :=
    grows_semicolon.bind fun _ => leads_closeSole (by decide)
  refine Leads.ite ?_ ?_
  · exact yields_string.puts.bind fun _ => (leads_role rfl).bind fun _ => hend
  · refine leads_mark fun m hm => reads_peek.bind fun _ => ?_
    have hclause : Leads (At base true) (do
        close m .importClause
        source
        semicolon
        close base.length .importStatement : Step src Unit) fun _ => Sole base :=
      (leads_close hm (by decide)).bind fun _ => puts_source.bind fun _ => hend
    refine Leads.ite ?_ ((puts_importedNames hgo).bind fun _ => hclause)
    refine (yields_name rfl).puts.bind fun _ => (grows_tokenIf _).bind fun _ => ?_
    exact Leads.ite ((puts_importedNames hgo).bind fun _ => hclause) hclause

theorem puts_exportDefault (hgo : ∀ g, Promise g (go g)) : Puts (exportDefault go) := by
  refine fun base b => (puts_token _).bind fun _ => (reads_lookAhead _).bind fun _ =>
    Leads.ite ?_ ?_
  · exact (hgo .statement).puts.bind fun _ => leads_role rfl
  · exact (hgo (.assignment false)).puts.bind fun _ => (leads_role rfl).bind fun _ =>
      grows_semicolon base true

theorem yields_exportStatement (hgo : ∀ g, Promise g (go g)) :
    Yields (exportStatement go) := by
  refine yields_mark_at fun base => (puts_token _).bind fun _ => leads_mark fun m hm =>
    reads_peekSecond.bind fun x => ?_
  obtain ⟨g, second⟩ := x
  dsimp only
  have hclose : Leads (At base true) (close base.length .exportStatement : Step src Unit)
      fun _ => Sole base := leads_closeSole (by decide)
  have hend : Leads (At base true) (do
      semicolon
      close base.length .exportStatement : Step src Unit) fun _ => Sole base :=
    grows_semicolon.bind fun _ => hclose
  refine (reads_sees _).bind fun _ => Leads.ite ?_ ?_
  · exact (puts_exportDefault hgo).bind fun _ => hclose
  · refine (reads_sees _).bind fun _ => Leads.ite ?_ ?_
    · have hsource : Leads (At base true) (do
          source
          semicolon
          close base.length .exportStatement : Step src Unit) fun _ => Sole base :=
        puts_source.bind fun _ => hend
      refine (puts_token _).bind fun _ => Leads.ite ?_ hsource
      exact (puts_token _).bind fun _ => (yields_name rfl).puts.bind fun _ =>
        (leads_close hm (by decide)).bind fun _ => hsource
    · refine (reads_sees _).bind fun _ => Leads.ite ?_ ?_
      · refine (puts_token _).bind fun _ => (hgo .exportSpecifiers).bind fun _ =>
          (puts_token _).bind fun _ => (leads_close hm (by decide)).bind fun _ =>
            (reads_sees _).bind fun _ => Leads.ite ?_ hend
        exact puts_source.bind fun _ => hend
      · refine reads_seesDeclaration.bind fun _ => reads_seesFunction.bind fun _ =>
          (reads_sees _).bind fun _ => (reads_require _).bind fun _ => ?_
        exact (hgo .statement).puts.bind fun _ => (leads_role rfl).bind fun _ => hclose

-- ============================================================ statements

theorem yields_keywordStatement (hgo : ∀ g, Promise g (go g)) {word : String}
    {p : Step src Unit} (h : keywordStatement? go word = some p) : Yields p := by
  unfold keywordStatement? at h
  split at h
  · exact Option.some.inj h ▸ yields_ifStatement hgo
  · exact Option.some.inj h ▸ yields_forStatement hgo
  · exact Option.some.inj h ▸ yields_whileStatement hgo
  · exact Option.some.inj h ▸ yields_doStatement hgo
  · exact Option.some.inj h ▸ yields_switchStatement hgo
  · exact Option.some.inj h ▸ yields_tryStatement hgo
  · exact Option.some.inj h ▸ yields_returnStatement hgo
  · exact Option.some.inj h ▸ yields_throwStatement hgo
  · exact Option.some.inj h ▸ yields_jump "break" (by decide)
  · exact Option.some.inj h ▸ yields_jump "continue" (by decide)
  · exact Option.some.inj h ▸ yields_withStatement hgo
  · exact Option.some.inj h ▸ yields_exportStatement hgo
  · refine Option.some.inj h ▸ yields_mark_at fun base => (puts_token _).bind fun _ => ?_
    exact grows_semicolon.bind fun _ => leads_closeSole (by decide)
  · exact Option.some.inj h ▸ yields_mark fun base => hgo (.classFrom _ true) base rfl
  · cases h

theorem yields_statement (hgo : ∀ g, Promise g (go g)) : Yields (statement go) := by
  refine yields_mark fun base => reads_peek.bind fun l => reads_peekSecond.bind fun x => ?_
  obtain ⟨g, second⟩ := x
  dsimp only
  refine Leads.ite (yields_block hgo base) (Leads.ite ?_ ?_)
  · refine Leads.pre (P := At base false) ?_ fun _ => Is.at
    exact (puts_token _).bind fun _ => leads_closeSole (by decide)
  · refine reads_seesDeclaration.bind fun _ => Leads.ite (yields_declaration hgo base) ?_
    refine reads_seesFunction.bind fun _ =>
      Leads.ite (hgo (.function _ true) base rfl) ?_
    refine Leads.ite (yields_importStatement hgo base) ?_
    refine Leads.ite (yields_labeled hgo base) (Leads.ite ?_ ?_)
    · split
      · next p hp => exact yields_keywordStatement hgo hp base
      · exact yields_expressionStatement hgo base
    · exact yields_expressionStatement hgo base

-- ============================================================== all goals

/-- A production keeps the promise of its goal if the steps it asks for
keep theirs. -/
theorem promise_production (hgo : ∀ g, Promise g (go g)) (g : Goal) :
    Promise g (production go g) := by
  cases g with
  | statement => exact yields_statement hgo
  | statements => exact grows_statements hgo
  | caseBody => exact grows_caseBody hgo
  | cases => exact grows_cases hgo
  | block => exact yields_block hgo
  | declarators noIn => exact puts_declarators hgo noIn
  | expression noIn => exact yields_expression hgo noIn
  | sequence start noIn => exact grows_sequence hgo start noIn
  | assignment noIn => exact yields_assignment hgo noIn
  | binary level noIn => exact yields_binary hgo level noIn
  | operators start level noIn =>
      rintro base rfl
      exact leads_operators hgo base level noIn
  | unary => exact yields_unary hgo
  | access calls => exact yields_access hgo calls
  | accesses start calls =>
      rintro base rfl
      exact leads_accesses hgo base calls
  | arguments => exact yields_arguments hgo
  | elements holes => exact grows_elements hgo holes
  | properties => exact grows_properties hgo
  | members => exact grows_members hgo
  | parameters => exact yieldsA_parameters hgo
  | parameterList => exact grows_parameterList hgo
  | target declared => exact yields_target hgo declared
  | targetWithDefault => exact yields_targetWithDefault hgo
  | patternProperties => exact grows_patternProperties hgo
  | patternElements => exact grows_patternElements hgo
  | templateParts => exact ⟨leads_templateParts hgo, leads_templateParts_ending hgo⟩
  | function start declared =>
      rintro base rfl
      exact leads_function hgo base declared
  | classFrom start declared =>
      rintro base rfl
      exact leads_classFrom hgo base declared
  | method start => exact fun _ hstart => leads_method hgo hstart
  | importSpecifiers => exact grows_importSpecifiers hgo
  | exportSpecifiers => exact grows_exportSpecifiers hgo

/-- Every goal keeps its promise, however deep requests are nested. -/
theorem promise_run (fuel : Nat) (g : Goal) : Promise g (run fuel g : Step src Unit) := by
  induction fuel generalizing g with
  | zero => exact promise_failure g
  | succ fuel ih => exact promise_production ih g

/-- All that is pushed while a program is read is proper. -/
theorem grows_program : Grows (program src) := by
  intro base b
  have hrest : Leads (At base b) (do
      run (fuelFor src) .statements
      require ((← peek).shape == .done)
      modify (·.flush) : Step src Unit) fun _ => At base b := by
    refine (promise_run (fuelFor src) .statements).bind fun _ => reads_peek.bind
      fun _ => (reads_require _).bind fun _ => leads_modify fun s hs => ?_
    obtain ⟨cs, hcs, hidle⟩ := flush_spec s
    obtain ⟨ts, hts, hp, hne⟩ := hs
    refine ⟨cs ++ ts, by rw [hcs, hts, List.append_assoc], fun t ht => ?_,
      fun hb => List.append_ne_nil_of_right_ne_nil _ (hne hb)⟩
    rcases List.mem_append.1 ht with ht | ht
    · exact (hidle t ht).parsed
    · exact hp t ht
  exact Leads.ite ((puts_adjoining _ _ _ rfl rfl).grows.bind fun _ => hrest) hrest

/-- The text behind the last child is no matter of shape. -/
theorem shaped_with_tail {n : Node} (h : n.Shaped) (t : Text) :
    ({ n with tail := t } : Node).Shaped := by
  rw [Node.shaped_iff] at h ⊢
  exact ⟨⟨h.1.plain, h.1.worded, h.1.parts, h.1.template, h.1.inPlace⟩, h.2⟩

theorem parsed_close {s : Progress src} (h : At [] false s) : s.close.Parsed := by
  obtain ⟨ts, hts, hp, -⟩ := h
  have hplain : IsPlain .program := by decide
  unfold Progress.close
  split
  · exact (Node.parsed_of_leaf (Node.proper_of_role (Node.shaped_of_children_nil rfl) rfl)
      rfl rfl).placed rfl
  · next t rest htrees =>
      have hgather : (Node.gather .program s.trees.reverse).Parsed := by
        refine hplain.parsed_gather fun c hc => hp c ?_
        rw [List.append_nil] at hts
        rw [← hts]
        exact List.mem_reverse.1 hc
      have hrole : (Node.gather .program s.trees.reverse).role = none := by
        cases s.trees.reverse <;> rfl
      have hlexed := Node.every_iff.1 hgather.lexed
      refine ⟨Node.proper_of_role (shaped_with_tail hgather.shaped _) ?_,
        Node.every_iff.2 ⟨Node.lexed_of_kind ?_, hlexed.2⟩⟩
      · show Node.roleTest? (Node.gather .program s.trees.reverse).role = none
        rw [hrole]
        rfl
      · show (Node.gather .program s.trees.reverse).isAny _ = false
        cases s.trees.reverse <;> rfl

/-- What is read is shaped, and the literals in it are read as literals. -/
theorem parsed_tree? {n : Node} (h : tree? src = some n) : n.Parsed := by
  unfold tree? at h
  split at h
  · cases h
  · next s hrun =>
      split at h
      · cases h
      · rw [← Option.some.inj h]
        refine parsed_close (grows_program [] false _ _ _ hrun ?_)
        exact ⟨[], rfl, by simp, fun h => by cases h⟩

end Parse

open Workspace in
/-- A parsed program is shaped, and its nodes are told apart by the
numbers given out. -/
theorem parse_sound {source : Text} {n : Node} (h : parse source = .ok n) :
    (ofProgram n).Sound := by
  obtain ⟨cs, m, -, hm, rfl⟩ := exists_of_parse h
  have hids : (m.renumber 0).1.ids = List.range' 0 m.size := by
    have hmap := congrArg (List.filterMap id) (Node.ids_renumber 0 m).1
    rw [List.filterMap_map, List.filterMap_map] at hmap
    exact hmap.trans (List.filterMap_some ..)
  refine ⟨Node.shaped_renumber.2 ((Parse.parsed_tree? hm).shaped),
    (Node.identified_renumber 0 m).isSome, ?_, fun i hi => ?_⟩
  · rw [show (ofProgram (m.renumber 0).1).program = (m.renumber 0).1 from rfl, hids]
    exact List.nodup_range'
  · rw [show (ofProgram (m.renumber 0).1).program = (m.renumber 0).1 from rfl, hids,
      List.mem_range'] at hi
    rw [show (ofProgram (m.renumber 0).1).next = (m.renumber 0).1.size from rfl,
      Node.size_renumber]
    omega

end Codemod
