/-
The string idioms keep their value.

Each of four rules puts a call of one string method for a call of another,
or for a comparison of one. The receiver is a string, the arguments are
written out as they were, and a comparison with an index or with the start
of the string is what the search answers (`evaluates_of_presenceCheck`,
`evaluates_of_equalityCheck`). So in every environment the new expression
has the value of the old one, negation and order of the sides included.

The template of a tagged call is no argument to the rules: `substr` before
a template is taken for a call without arguments, and that case is set
apart.

Main statement: `stringIdioms_keep_value`.
-/
import Codemod.Proofs.Rule.Evaluation
import Codemod.Proofs.Rule.Integer

namespace Codemod

open Text Valuation

-- ============================================================ receivers

namespace Cursor

variable {c : Cursor}

/-- What is evidently an array is a literal, a name or a call. -/
theorem isAny_of_isArray {follow : Bool} (h : c.isArray follow = true) :
    c.unparen.isAny [.array, .identifier, .callExpression] = true := by
  unfold isArray at h
  cases hsize : c.node.size with
  | zero => rw [hsize] at h; cases h
  | succ fuel =>
      rw [hsize, isArrayWithin] at h
      split at h
      · next hk => exact Node.isAny_iff.2 ⟨.array, by decide, Node.is_iff.1 hk⟩
      · split at h
        · next hk => exact Node.isAny_iff.2 ⟨.identifier, by decide, Node.is_iff.1 hk⟩
        · split at h
          · next hk =>
              simp only [isArrayFactoryCall, Bool.and_eq_true] at hk
              exact Node.isAny_iff.2 ⟨.callExpression, by decide, Node.is_iff.1 hk.1⟩
          · split at h
            · next r hr =>
                refine Node.isAny_iff.2 ⟨.callExpression, by decide, ?_⟩
                exact Node.is_iff.1 (methodReceiver?_eq_some hr).1
            · cases h

theorem isPrimary_of_unparen (h : c.unparen.node.kind.isAny primarySymbols = true) :
    c.node.kind.isAny primarySymbols = true := by
  rcases unparenWithin_cases c.node.size c with hu | ⟨d, fuel, hk, -⟩
  · rwa [show c.unparen = c from hu] at h
  · rw [Node.is_iff.1 hk]
    decide

/-- An evident string or array is written without parentheses. -/
theorem isPrimary_of_evident (h : c.isString = true ∨ c.isArray true = true) :
    c.node.kind.isAny primarySymbols = true := by
  apply isPrimary_of_unparen
  have hkinds : ∀ s ∈ [Symbol.string, .templateString, .callExpression, .array, .identifier],
      (Kind.symbol s).isAny primarySymbols = true := by decide
  rcases h with h | h
  · obtain ⟨s, hs, hk⟩ := Node.isAny_iff.1 (isAny_of_isString h)
    rw [hk]
    exact hkinds s (by simp at hs ⊢; tauto)
  · obtain ⟨s, hs, hk⟩ := Node.isAny_iff.1 (isAny_of_isArray h)
    rw [hk]
    exact hkinds s (by simp at hs ⊢; tauto)

end Cursor

-- =============================================================== calls

section Calls

variable {val : Valuation} {c receiver : Cursor} {s : Units} {w : String}

/-- The arguments of a call have their values in a row. -/
theorem meaning_of_arguments {vs : List Datum} (htag : c.taggedTemplate? = none)
    (hspread : c.hasSpread = false)
    (hvs : c.arguments.map (fun a => val.meaning a.node) = vs.map .value) :
    ((c.node.child? .arguments).map val.meaning).getD (.row []) = .row vs := by
  rw [Node.child?, ← Cursor.map_node_child?]
  unfold Cursor.taggedTemplate? at htag
  unfold Cursor.hasSpread at hspread
  unfold Cursor.arguments at hspread hvs
  cases ha : c.child? .arguments with
  | none =>
      simp only [ha, List.map_nil] at hvs
      obtain rfl := List.map_eq_nil_iff.1 hvs.symm
      rfl
  | some a =>
      cases hk : a.is .arguments with
      | false => simp [ha, hk] at htag
      | true =>
          simp only [ha, hk, if_true] at hspread hvs
          apply meaning_arguments hk
          · rw [← Cursor.map_node_operands, List.any_map]
            exact hspread
          · rw [← Cursor.map_node_operands, List.map_map]
            exact hvs

/-- A call of a method on a string has what the method gives. -/
theorem evaluates_of_methodReceiver (vs : List Datum) {v : Datum}
    (h : c.methodReceiver? [w] = some receiver) (htag : c.taggedTemplate? = none)
    (hspread : c.hasSpread = false) (hs : val.Evaluates receiver.node (.text s))
    (hvs : c.arguments.map (fun a => val.meaning a.node) = vs.map .value)
    (hw : ofString w ≠ ofString "length") (hv : s.call? (ofString w) vs = some v) :
    val.Evaluates c.node v := by
  obtain ⟨hk, m, name, o, hm, hone, ho, rfl⟩ := Cursor.methodReceiver?_eq_some h
  obtain ⟨hm, hname⟩ := Cursor.calledMember?_eq_some hm
  obtain ⟨f, hf, rfl⟩ := Cursor.inner?_eq_some.1 hm
  obtain rfl : ofString w = name := by simpa [Text.isOneOf] using hone
  have hobject : val.Evaluates o.node (.text s) := (meaning_unparen o).symm.trans hs
  have hmethod : val.meaning f.node = .method (.text s) (ofString w) := by
    rw [← meaning_unparen f]
    exact meaning_member hname (Cursor.node_child?_eq_some_iff.2 ⟨o, ho, rfl⟩) hobject hw
  exact evaluates_call hk (Cursor.node_child?_eq_some_iff.2 ⟨f, hf, rfl⟩) hmethod
    (meaning_of_arguments htag hspread hvs) hv

/-- The arguments that are read are no spread elements. -/
theorem hasSpread_of_isIndexOfCall (h : c.isIndexOfCall = true) : c.hasSpread = false := by
  unfold Cursor.isIndexOfCall at h
  split at h
  · simp only [Bool.and_eq_true, Bool.not_eq_true'] at h
    exact h.1
  · cases h

theorem evident_of_isIndexOfCall (h : c.isIndexOfCall = true)
    (hr : c.methodReceiver? ["indexOf"] = some receiver) :
    receiver.isString = true ∨ receiver.isArray true = true := by
  unfold Cursor.isIndexOfCall at h
  rw [hr] at h
  split at h
  · next r arg hr' _ =>
      obtain rfl := Option.some.inj hr'
      simp only [Bool.and_eq_true] at h
      cases hs : receiver.isString with
      | true => exact Or.inl rfl
      | false =>
          simp only [hs, Bool.false_eq_true, if_false, Bool.and_eq_true] at h
          exact Or.inr h.2.1
  · cases h

theorem isIndexOfCall_of_isString (h : c.isStringIndexOfCall = true) :
    c.isIndexOfCall = true := by
  unfold Cursor.isStringIndexOfCall at h
  unfold Cursor.isIndexOfCall
  split at h
  · simp only [Bool.and_eq_true] at h
    simp [h.1.1, h.1.2, h.2]
  · cases h

/-- A call that takes the start of a string spreads nothing. -/
theorem isStartCall_parts (h : c.isStartCall = .ok true)
    (hr : c.methodReceiver? ["substring"] = some receiver) :
    receiver.isString = true ∧ c.hasSpread = false := by
  unfold Cursor.isStartCall at h
  rw [hr] at h
  split at h
  · next r first finish hr' _ =>
      obtain rfl := Option.some.inj hr'
      split at h
      · simp [pure_eq_ok] at h
      · next hguard => simpa using hguard
  · simp [pure_eq_ok] at h

end Calls

-- ========================================================= comparisons

section Comparisons

variable {val : Valuation} {c call other : Cursor} {s t : Units} {negated : Bool}
  {isCall : Cursor → Check Bool}

/-- A comparison of two known values. -/
theorem evaluates_of_comparison? {left right : Cursor} {op : Text} {r : Comparator}
    {u v : Datum} {b : Bool} (h : c.comparison? = some (left, op, right))
    (hop : Comparator.ofWord? op = some r) (hu : val.Evaluates left.node u)
    (hv : val.Evaluates right.node v) (hb : r.compare? u v = some b) :
    val.Evaluates c.node (.truth b) := by
  unfold Cursor.comparison? at h
  split at h
  · cases h
  · next hk =>
      split at h
      · next l o e hl ho he =>
          obtain ⟨rfl, rfl, rfl⟩ : l = left ∧ o.code = op ∧ e = right := by simpa using h
          obtain ⟨l', hl', rfl⟩ := Cursor.inner?_eq_some.1 hl
          obtain ⟨e', he', rfl⟩ := Cursor.inner?_eq_some.1 he
          have hbinary : c.is .binaryExpression = true := by simpa using hk
          exact evaluates_comparison hbinary
            (Cursor.node_child?_eq_some_iff.2 ⟨o, ho, rfl⟩)
            (Cursor.node_child?_eq_some_iff.2 ⟨l', hl', rfl⟩)
            (Cursor.node_child?_eq_some_iff.2 ⟨e', he', rfl⟩) hop
            ((meaning_unparen l').symm.trans hu) ((meaning_unparen e').symm.trans hv) hb
      · cases h

/-- A test for presence answers whether the index is that of something. -/
theorem evaluates_of_presenceCheck
    (h : c.presenceCheck isCall = .ok (some (call, negated)))
    (hcall : val.Evaluates call.node (.number (s.indexOf t))) :
    val.Evaluates c.node (.truth (s.includes t != negated)) := by
  obtain ⟨r, onLeft, other, k, hcompares, -, hk, htells⟩ := presenceCheck_eq_some_iff.1 h
  have hvalue : val.Evaluates other.node (.number k) := evaluates_integer hk
  have htest : r.against onLeft k (s.indexOf t) = (s.includes t != negated) := by
    rw [Bool.eq_iff_iff, htells _ Units.neg_one_le_indexOf, Units.indexOf_eq_neg_one_iff]
    cases s.includes t <;> cases negated <;> decide
  rw [← htest]
  cases hcompares with
  | onLeft hc hop _ => exact evaluates_of_comparison? hc hop hcall hvalue rfl
  | onRight hc hop _ _ => exact evaluates_of_comparison? hc hop hvalue hcall rfl

theorem ofWord?_of_equality? {op : Text} (h : equality? op = some negated) :
    Comparator.ofWord? op = some (if negated then .different else .same) := by
  have hword (w : String) (r : Comparator) (hw : w ∈ r.words) :
      Comparator.ofWord? (ofString w) = some r := Comparator.ofWord?_of_mem hw
  unfold equality? at h
  split at h
  · next hsame =>
      obtain rfl : false = negated := Option.some.inj h
      simp only [Text.isOneOf, List.any_eq_true, beq_iff_eq] at hsame
      obtain ⟨w, hw, rfl⟩ := hsame
      exact hword w .same hw
  · split at h
    · next hdifferent =>
        obtain rfl : true = negated := Option.some.inj h
        simp only [Text.isOneOf, List.any_eq_true, beq_iff_eq] at hdifferent
        obtain ⟨w, hw, rfl⟩ := hdifferent
        exact hword w .different hw
    · cases h

/-- An equality answers whether its sides have one value, in either
order. -/
theorem evaluates_of_equalityCheck {u v : Datum} {b : Bool}
    (h : c.equalityCheck isCall = .ok (some (call, other, negated)))
    (hcall : val.Evaluates call.node u) (hother : val.Evaluates other.node v)
    (hsame : Comparator.same.compare? u v = some b)
    (hswapped : Comparator.same.compare? v u = some b) :
    val.Evaluates c.node (.truth (b != negated)) := by
  obtain ⟨left, op, right, hcmp, heq, -, hsides⟩ := equalityCheck_parts h
  have hop := ofWord?_of_equality? heq
  have hnegate {x y : Datum} (hxy : Comparator.same.compare? x y = some b) :
      (if negated then Comparator.different else .same).compare? x y
        = some (b != negated) := by
    cases negated with
    | false => simpa using hxy
    | true => simpa using Comparator.compare?_different hxy
  rcases hsides with ⟨rfl, rfl⟩ | ⟨rfl, rfl⟩
  · exact evaluates_of_comparison? hcmp hop hcall hother (hnegate hsame)
  · exact evaluates_of_comparison? hcmp hop hother hcall (hnegate hswapped)

/-- What is taken for the length of a string is its length. -/
theorem evaluates_of_lengthOf {start : Cursor} (h : LengthOf c start)
    (ht : val.Evaluates start.node (.text t)) : val.Evaluates c.node (.number t.length) := by
  cases h with
  | @literal u k hu hcount hk =>
      have hvalue : Meaning.value (.text u.units) = .value (.text t) :=
        (evaluates_string hu).symm.trans ht
      obtain rfl : u.units = t := by simpa using hvalue
      rw [length_units_of_unitCount hcount]
      exact evaluates_integer hk
  | @named o _ hident hname ho hsame =>
      have hobject : val.meaning o.node = val.meaning start.node :=
        (evaluates_isIdentifier hsame).trans (evaluates_identifier hident).symm
      rw [Evaluates, ← meaning_unparen c]
      exact evaluates_length hname (Cursor.node_child?_eq_some_iff.2 ⟨o, ho, rfl⟩)
        (hobject.trans ht)

/-- What is looked for at the start of a string is no spread element. -/
theorem not_spread_of_lengthOf {start : Cursor} (h : LengthOf c start) :
    start.node.is .spreadElement = false := by
  rw [Bool.eq_false_iff]
  intro hk
  cases h with
  | literal hu =>
      obtain ⟨s, hs, hkind⟩ := List.any_eq_true.1 (isAny_of_stringValue hu)
      have hne : ∀ s ∈ [Symbol.string, .templateString], s ≠ .spreadElement := by decide
      exact hne s hs (Node.kind_unique hkind hk)
  | named _ hident => exact absurd (Node.kind_unique hident hk) (by decide)

end Comparisons

-- ============================================================ the rules

/-- The rewrite puts `slice` for `substr`: whatever string the receiver and
whatever integers the arguments stand for, both have what `substr` gives. -/
def Rewrite.Cuts (r : Rewrite) : Prop :=
  ∃ receiver ∈ r.site.walk, ∃ args,
    r.new = Build.methodCall receiver.node "slice" args
      ∧ ∀ (val : Valuation) (s : Units) (ks : List Int),
        val.Evaluates receiver.node (.text s) →
        r.site.arguments.map (fun a => val.meaning a.node)
          = (ks.map Datum.number).map .value →
        ∃ v, s.call? "substr" (ks.map .number) = some v
          ∧ val.Evaluates r.site.node v ∧ val.Evaluates r.new v

/-- The rewrite puts a search for a comparison: whatever strings the
receiver and the text looked for stand for, both have what the search
gives, negated or not. -/
def Rewrite.Searches (r : Rewrite) (method : String) (search : Units → Units → Bool) :
    Prop :=
  ∃ negated, ∃ receiver ∈ r.site.walk, ∃ x ∈ r.site.walk,
    r.new = Build.negatedIf negated (Build.methodCall receiver.node method [x.node])
      ∧ ∀ (val : Valuation) (s t : Units), x.node.isOperand = true →
        val.Evaluates receiver.node (.text s) → val.Evaluates x.node (.text t) →
        val.Evaluates r.site.node (.truth (search s t != negated))
          ∧ val.Evaluates r.new (.truth (search s t != negated))

section Rules

variable {context : RuleContext} {w : Workspace} {r : Rewrite}

theorem mem_walk_of_methodReceiver {c receiver : Cursor} {names : List String}
    (h : c.methodReceiver? names = some receiver) : receiver ∈ c.walk := by
  obtain ⟨-, m, name, o, hm, -, ho, rfl⟩ := Cursor.methodReceiver?_eq_some h
  exact Cursor.mem_walk_trans (Cursor.calledMember_mem_walk hm)
    (Cursor.mem_walk_trans (Cursor.mem_walk_of_child? ho) (Cursor.unparen_mem_walk o))

theorem evaluates_writeNumber {val : Valuation} {k : Int} {t : Text} (hk : 0 ≤ k)
    (h : writeNumber k = .ok t) : val.Evaluates (Build.number t) (.number k) := by
  obtain ⟨n, rfl⟩ := Int.eq_ofNat_of_zero_le hk
  apply evaluates_number rfl
  show Numeral.spelled? t = some n
  rw [writeNumber_eq_ok h, Numeral.spelled?_toDigits]

/-- What is written for a `substr` call has what the call has. -/
theorem evaluates_sliceOf {val : Valuation} {call receiver : Cursor} {new : Node} {s : Units}
    {ks : List Int} (h : Rules.SliceOf call receiver new) (hspread : call.hasSpread = false)
    (hp : receiver.node.kind.isAny primarySymbols = true)
    (hs : val.Evaluates receiver.node (.text s))
    (hks : call.arguments.map (fun a => val.meaning a.node)
      = (ks.map Datum.number).map .value) :
    ∃ v, s.call? "substr" (ks.map .number) = some v ∧ val.Evaluates new v := by
  have hsubstr (vs : List Datum) : s.call? "substr" vs = cutWith s.substr vs := by
    rw [Units.call?, if_neg (by decide), if_pos rfl]
  have hslice (vs : List Datum) {args : List Node} {v : Datum}
      (hoperands : ∀ a ∈ args, a.isOperand = true)
      (hplain : ∀ a ∈ args, a.is .spreadElement = false)
      (hvs : args.map val.meaning = vs.map .value) (hv : cutWith s.slice vs = some v) :
      val.Evaluates (Build.methodCall receiver.node "slice" args) v := by
    apply evaluates_methodCall hp hs (by decide) hoperands hplain hvs
    rw [Units.call?, if_pos rfl, hv]
  simp only [hsubstr]
  have hread {js : List Int}
      (hjs : call.arguments.map (fun a => val.meaning a.node)
        = (js.map Datum.number).map .value) : ks = js := by
    have hsame := List.map_injective_iff.2 (fun _ _ => Meaning.value.inj) (hks.symm.trans hjs)
    exact List.map_injective_iff.2 (fun _ _ => Datum.number.inj) hsame
  cases h with
  | whole hargs =>
      obtain rfl : ks = [] := hread (by rw [hargs]; rfl)
      refine ⟨_, rfl, hslice [] ?_ ?_ rfl ?_⟩
      · exact List.forall_mem_nil _
      · exact List.forall_mem_nil _
      · rw [cutWith, Units.slice_none_eq_substr]
  | @rest start hargs =>
      have hmem : start ∈ call.arguments := by
        rw [hargs]
        exact List.mem_singleton.2 rfl
      have hplain : start.node.is .spreadElement = false :=
        Bool.eq_false_iff.2 (List.any_eq_false.1 hspread start hmem)
      have hone : ∃ k, val.meaning start.node = .value (.number k) := by
        have hvalue : val.meaning start.node ∈ (ks.map Datum.number).map Meaning.value := by
          rw [← hks]
          exact List.mem_map_of_mem hmem
        simp only [List.map_map, List.mem_map, Function.comp_apply] at hvalue
        obtain ⟨k, -, hk⟩ := hvalue
        exact ⟨k, hk.symm⟩
      obtain ⟨k, hk⟩ := hone
      obtain rfl : ks = [k] := hread (by rw [hargs, List.map_singleton, hk]; rfl)
      refine ⟨_, rfl, hslice [.number k] ?_ ?_ ?_ ?_⟩
      · exact List.forall_mem_singleton.2 (Cursor.isOperand_of_mem_arguments hmem)
      · exact List.forall_mem_singleton.2 hplain
      · rw [List.map_singleton, hk]
        rfl
      · rw [cutWith, Units.slice_none_eq_substr]
  | @range start length a n x y hargs ha hn hapos hnpos hx hy =>
      have hstart : val.meaning start.node = .value (.number a) := evaluates_integer ha
      have hlength : val.meaning length.node = .value (.number n) := evaluates_integer hn
      have hfirst : val.meaning (Build.number x) = .value (.number a) :=
        evaluates_writeNumber hapos hx
      have hlast : val.meaning (Build.number y) = .value (.number (a + n)) :=
        evaluates_writeNumber (Int.add_nonneg hapos hnpos) hy
      obtain rfl : ks = [a, n] :=
        hread (by rw [hargs, List.map_cons, List.map_singleton, hstart, hlength]; rfl)
      refine ⟨_, rfl, hslice [.number a, .number (a + n)] ?_ ?_ ?_ ?_⟩
      · simp [Build.number, Node.leaf, Node.isOperand, Node.is]
      · simp [Build.number, Node.leaf, Node.is]
      · rw [List.map_cons, List.map_singleton, hfirst, hlast]
        rfl
      · rw [cutWith, Units.slice_eq_substr hapos hnpos]

theorem substr_cuts (h : r ∈ Rules.substr.rewrites context w)
    (hnone : r.site.arguments = [] → r.site.taggedTemplate? = none) : r.Cuts := by
  obtain ⟨receiver, hr, hstring, hspread, hslice⟩ := Rules.substr_spec h
  have htag : r.site.taggedTemplate? = none := by
    cases hargs : r.site.arguments with
    | nil => exact hnone hargs
    | cons a as => exact Cursor.taggedTemplate?_of_arguments hargs
  have hprimary := Cursor.isPrimary_of_evident (Or.inl hstring)
  have hnew : ∃ args, r.new = Build.methodCall receiver.node "slice" args := by
    generalize r.new = new at hslice ⊢
    cases hslice <;> exact ⟨_, rfl⟩
  obtain ⟨args, hnew⟩ := hnew
  refine ⟨receiver, mem_walk_of_methodReceiver hr, args, hnew, fun val s ks hs hks => ?_⟩
  obtain ⟨v, hv, heval⟩ := evaluates_sliceOf hslice hspread hprimary hs hks
  exact ⟨v, hv, evaluates_of_methodReceiver _ hr htag hspread hs hks (by decide) hv, heval⟩

theorem evaluates_search {val : Valuation} {receiver x : Node} {s t : Units} {b negated : Bool}
    {method : Text} (hprimary : receiver.kind.isAny primarySymbols = true)
    (hs : val.Evaluates receiver (.text s)) (hx : x.isOperand = true)
    (hspread : x.is .spreadElement = false) (ht : val.Evaluates x (.text t))
    (hmethod : method ≠ ofString "length")
    (hcall : s.call? method [.text t] = some (.truth b)) :
    val.Evaluates (Build.negatedIf negated (Build.methodCall receiver method [x]))
      (.truth (b != negated)) := by
  apply evaluates_negatedIf rfl
  apply evaluates_methodCall hprimary hs hmethod
  · exact List.forall_mem_singleton.2 hx
  · exact List.forall_mem_singleton.2 hspread
  · rw [List.map_singleton, ht]
    exact (List.map_singleton ..).symm
  · exact hcall

/-- An `indexOf` call on a string has the index of the text. -/
theorem evaluates_isIndexOfCall {val : Valuation} {call receiver arg : Cursor} {s t : Units}
    (h : call.isIndexOfCall = true) (hr : call.methodReceiver? ["indexOf"] = some receiver)
    (hargs : call.arguments = [arg]) (hs : val.Evaluates receiver.node (.text s))
    (ht : val.Evaluates arg.node (.text t)) :
    val.Evaluates call.node (.number (s.indexOf t)) := by
  apply evaluates_of_methodReceiver [.text t] hr
    (Cursor.taggedTemplate?_of_arguments hargs) (hasSpread_of_isIndexOfCall h) hs
  · rw [hargs, List.map_singleton, ht]
    rfl
  · decide
  · rfl

/-- The text that is looked for is an operand, and is not spread. -/
theorem argument_of_isIndexOfCall {call arg : Cursor} (h : call.isIndexOfCall = true)
    (hargs : call.arguments = [arg]) :
    arg ∈ call.walk ∧ arg.node.isOperand = true ∧ arg.node.is .spreadElement = false := by
  have hmem : arg ∈ call.arguments := by
    rw [hargs]
    exact List.mem_singleton.2 rfl
  have hspread : call.arguments.any (·.is .spreadElement) = false :=
    hasSpread_of_isIndexOfCall h
  exact ⟨Cursor.mem_walk_of_mem_arguments hmem, Cursor.isOperand_of_mem_arguments hmem,
    Bool.eq_false_iff.2 (List.any_eq_false.1 hspread arg hmem)⟩

theorem includes_searches (h : r ∈ Rules.includes.rewrites context w) :
    r.Searches "includes" Units.includes := by
  obtain ⟨call, negated, object, hcheck, hobject, hnew⟩ := Rules.includes_spec h
  obtain ⟨other, k, hcompares, hcall, -⟩ := presenceCheck_spec hcheck
  have hcall : call.isIndexOfCall = true := pure_eq_ok.1 hcall
  obtain ⟨receiver, arg, hr, hargs⟩ := Rules.isIndexOfCall_spec hcall
  obtain ⟨-, m, name, o, hm, -, ho, rfl⟩ := Cursor.methodReceiver?_eq_some hr
  obtain rfl : o = object := by
    rw [(Cursor.calledMember?_eq_some hm).1, Option.bind_some, ho] at hobject
    exact Option.some.inj hobject
  obtain ⟨hwalk, hoperand, hplain⟩ := argument_of_isIndexOfCall hcall hargs
  have hprimary : o.node.kind.isAny primarySymbols = true := by
    apply Cursor.isPrimary_of_unparen
    exact Cursor.isPrimary_of_evident (evident_of_isIndexOfCall hcall hr)
  have hin := Cursor.mem_walk_trans hcompares.call_mem_walk
    (Cursor.mem_walk_trans (Cursor.calledMember_mem_walk hm) (Cursor.mem_walk_of_child? ho))
  rw [hargs] at hnew
  refine ⟨negated, o, hin, arg, Cursor.mem_walk_trans hcompares.call_mem_walk hwalk, hnew, ?_⟩
  intro val s t _ hs ht
  have hindex := evaluates_isIndexOfCall hcall hr hargs ((meaning_unparen o).trans hs) ht
  refine ⟨evaluates_of_presenceCheck hcheck hindex, ?_⟩
  rw [hnew]
  exact evaluates_search hprimary hs hoperand hplain ht (by decide) rfl

theorem startsWithIndex_searches (h : r ∈ Rules.startsWithIndex.rewrites context w) :
    r.Searches "startsWith" Units.startsWith := by
  obtain ⟨call, other, negated, receiver, hcheck, hzero, hr, hnew⟩ :=
    Rules.startsWithIndex_spec h
  obtain ⟨hcompares, hcall⟩ := equalityCheck_spec hcheck
  have hcall : call.isStringIndexOfCall = true := pure_eq_ok.1 hcall
  have hindexOf := isIndexOfCall_of_isString hcall
  obtain ⟨receiver', arg, hr', hargs⟩ := Rules.isStringIndexOfCall_spec hcall
  obtain rfl := Option.some.inj (hr.symm.trans hr')
  obtain ⟨hwalk, hoperand, hplain⟩ := argument_of_isIndexOfCall hindexOf hargs
  have hprimary := Cursor.isPrimary_of_evident (evident_of_isIndexOfCall hindexOf hr)
  have hin := Cursor.mem_walk_trans hcompares.call_mem_walk (mem_walk_of_methodReceiver hr)
  rw [hargs] at hnew
  refine ⟨negated, receiver, hin, arg, Cursor.mem_walk_trans hcompares.call_mem_walk hwalk,
    hnew, ?_⟩
  intro val s t _ hs ht
  have hindex := evaluates_isIndexOfCall hindexOf hr hargs hs ht
  have hfront : (s.indexOf t == 0) = s.startsWith t := by
    rw [Bool.eq_iff_iff, beq_iff_eq, Units.indexOf_eq_zero_iff]
  constructor
  · rw [← hfront]
    exact evaluates_of_equalityCheck hcheck hindex (evaluates_integer hzero) rfl
      (congrArg some Bool.beq_comm)
  · rw [hnew]
    exact evaluates_search hprimary hs hoperand hplain ht (by decide) rfl

theorem startsWithPart_searches (h : r ∈ Rules.startsWithPart.rewrites context w) :
    r.Searches "startsWith" Units.startsWith := by
  obtain ⟨call, start, negated, first, finish, receiver, hcheck, hargs, hr, hlength, hnew⟩ :=
    Rules.startsWithPart_spec h
  have hlength := lengthOf_of_isLengthOf hlength
  obtain ⟨hcompares, hcall⟩ := equalityCheck_spec hcheck
  obtain ⟨hstring, hspread⟩ := isStartCall_parts hcall hr
  obtain ⟨receiver', first', finish', -, hargs', hzero⟩ := Rules.isStartCall_spec hcall
  obtain ⟨rfl, rfl⟩ : first = first' ∧ finish = finish' := by
    simpa using hargs.symm.trans hargs'
  have hprimary := Cursor.isPrimary_of_evident (Or.inl hstring)
  have hin := Cursor.mem_walk_trans hcompares.call_mem_walk (mem_walk_of_methodReceiver hr)
  refine ⟨negated, receiver, hin, start, hcompares.other_mem_walk, hnew, ?_⟩
  intro val s t hoperand hs ht
  have hpart : val.Evaluates call.node (.text (s.substring 0 (some t.length))) := by
    have hfirst : val.meaning first.node = .value (.number 0) := evaluates_integer hzero
    have hfinish : val.meaning finish.node = .value (.number t.length) :=
      evaluates_of_lengthOf hlength ht
    apply evaluates_of_methodReceiver [.number 0, .number t.length] hr
      (Cursor.taggedTemplate?_of_arguments hargs) hspread hs
    · rw [hargs, List.map_cons, List.map_singleton, hfirst, hfinish]
      rfl
    · decide
    · rfl
  have hfront : (s.substring 0 (some t.length) == t) = s.startsWith t := by
    rw [Bool.eq_iff_iff, beq_iff_eq, Units.substring_eq_iff]
  constructor
  · rw [← hfront]
    exact evaluates_of_equalityCheck hcheck hpart ht rfl (congrArg some Bool.beq_comm)
  · rw [hnew]
    exact evaluates_search hprimary hs hoperand (not_spread_of_lengthOf hlength) ht (by decide) rfl

/-- The four rules for strings keep the value of what they rewrite, for
every receiver, every text looked for and every start: `slice` gives what
`substr` gave, and `includes` and `startsWith` answer what the comparison
with an index or with the start of the string answered. A call without
arguments must not be the tag of a template. -/
theorem stringIdioms_keep_value :
    (∀ r ∈ Rules.substr.rewrites context w,
        (r.site.arguments = [] → r.site.taggedTemplate? = none) → r.Cuts)
      ∧ (∀ r ∈ Rules.includes.rewrites context w, r.Searches "includes" Units.includes)
      ∧ (∀ r ∈ Rules.startsWithIndex.rewrites context w,
        r.Searches "startsWith" Units.startsWith)
      ∧ ∀ r ∈ Rules.startsWithPart.rewrites context w,
        r.Searches "startsWith" Units.startsWith :=
  ⟨fun _ h hnone => substr_cuts h hnone, fun _ => includes_searches,
    fun _ => startsWithIndex_searches, fun _ => startsWithPart_searches⟩

/-- Two units are the start of a string that begins with one character
outside the basic plane, and a negated comparison stays negated. -/
theorem stringIdioms_keep_value_astral :
    ∃ n r, parse (ofString "x = \"😀\" != \"😀b\".substring(0, 2);") = .ok n
      ∧ r ∈ Rules.startsWithPart.rewrites .default (.ofProgram n)
      ∧ r.Searches "startsWith" Units.startsWith
      ∧ r.new.code = ofString "!\"😀b\".startsWith(\"😀\")"
      ∧ ∃ val : Valuation, val.Evaluates r.site.node (.truth false)
        ∧ val.Evaluates r.new (.truth false) := by
  let val : Valuation := ⟨fun _ => .other 0, fun _ => .other 0⟩
  obtain ⟨n, hn, htest⟩ := exists_of_parse_any
    (ofString "x = \"😀\" != \"😀b\".substring(0, 2);")
    (fun n => (Rules.startsWithPart.rewrites .default (.ofProgram n)).any fun r =>
      r.new.code == ofString "!\"😀b\".startsWith(\"😀\")"
        && val.meaning r.site.node == .value (.truth false)
        && val.meaning r.new == .value (.truth false))
    (by decide +kernel)
  obtain ⟨r, hr, htest⟩ := List.any_eq_true.1 htest
  simp only [Bool.and_eq_true, beq_iff_eq] at htest
  obtain ⟨⟨hcode, hold⟩, hnew⟩ := htest
  exact ⟨n, r, hn, hr, stringIdioms_keep_value.2.2.2 r hr, hcode, val, hold, hnew⟩

end Rules

end Codemod
