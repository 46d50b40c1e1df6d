/-
What the rules for older idioms look for and write.

A rewrite is what a sweep of its rule makes of the expression it takes
(`Rule.replacement_of_mem_rewrites`). For the four rules on strings this
is told here once: `SliceOf` has the three ways to write `slice` instead
of `substr`, and a comparison is told by the call on one side, what it is
compared with, and what is written. What is compared with the start of a
string is told by the string and its length (`LengthOf`).
-/
import Codemod.Proofs.Rule.Presence
import Codemod.Proofs.Rule.Run

namespace Codemod

variable {context : RuleContext} {w : Workspace} {r : Rewrite}

/-- A rewrite of a rule for the nodes of one kind is what the rule makes of
the place. -/
theorem Rule.replacement_of_mem_rewrites {name group description : String} {s : Symbol}
    {f : Cursor → Check (Option Node)}
    (h : r ∈ (Rule.ofSweeps name group description [.ofKind s f]).rewrites context w) :
    f r.site = .ok (some r.new) := by
  obtain ⟨s, hs, hnew⟩ := replacement_of_mem_rewritesOfSweeps
    (show r ∈ rewritesOfSweeps context [Sweep.ofKind s f] w from h)
  obtain rfl := List.mem_singleton.1 hs
  exact hnew

-- ============================================================== equality

section Equality

variable {c call other : Cursor} {negated : Bool} {isCall : Cursor → Check Bool}

/-- What an equality with a call has on its sides; the call on the right
only when there is none on the left. -/
theorem equalityCheck_parts
    (h : c.equalityCheck isCall = .ok (some (call, other, negated))) :
    ∃ left op right, c.comparison? = some (left, op, right)
      ∧ equality? op = some negated ∧ isCall call = .ok true
      ∧ (call = left ∧ other = right ∨ call = right ∧ other = left) := by
  unfold Cursor.equalityCheck at h
  split at h
  · simp [pure_eq_ok] at h
  · next left op right hcmp =>
      split at h
      · simp [pure_eq_ok] at h
      · next negated' heq =>
          obtain ⟨onLeft, hl, h⟩ := bind_eq_ok.1 h
          cases onLeft with
          | true =>
              simp only [if_true, pure_eq_ok, Option.some.injEq, Prod.mk.injEq] at h
              obtain ⟨rfl, rfl, rfl⟩ := h
              exact ⟨left, op, right, hcmp, heq, hl, Or.inl ⟨rfl, rfl⟩⟩
          | false =>
              simp only [Bool.false_eq_true, if_false] at h
              obtain ⟨onRight, hr, h⟩ := bind_eq_ok.1 h
              cases onRight with
              | false => simp [pure_eq_ok] at h
              | true =>
                  simp only [if_true, pure_eq_ok, Option.some.injEq, Prod.mk.injEq] at h
                  obtain ⟨rfl, rfl, rfl⟩ := h
                  exact ⟨left, op, right, hcmp, heq, hr, Or.inr ⟨rfl, rfl⟩⟩

end Equality

-- =============================================================== lengths

/-- What is taken for the length of a string: a count of its units, or the
`length` of the name that holds it. -/
inductive LengthOf (c start : Cursor) : Prop where
  | literal {t : Text} {k : Nat} : start.node.stringValue = .ok (some t) →
    Cursor.unitCount t = .ok k → c.integerValue = .ok (some (Int.ofNat k)) →
    LengthOf c start
  | named {o : Cursor} : start.node.stringValue = .ok none → start.is .identifier = true →
    c.unparen.node.propertyName? = some (Text.ofString "length") →
    c.unparen.child? .object = some o → o.node.isIdentifier start.code = true →
    LengthOf c start

theorem lengthOf_of_isLengthOf {c start : Cursor} (h : c.isLengthOf start = .ok true) :
    LengthOf c start := by
  unfold Cursor.isLengthOf at h
  obtain ⟨t, ht, h⟩ := bind_eq_ok.1 h
  cases t with
  | some t =>
      obtain ⟨n, hn, h⟩ := bind_eq_ok.1 h
      obtain ⟨k, hk, h⟩ := bind_eq_ok.1 h
      obtain rfl : n = some (Int.ofNat k) := by simpa [pure_eq_ok] using h
      exact .literal ht hk (Cursor.integerValue_unparen ▸ hn)
  | none =>
      simp only at h
      split at h
      · simp [pure_eq_ok] at h
      split at h
      · simp [pure_eq_ok] at h
      · next hident hlength =>
          simp only [Bool.not_eq_true, Bool.or_eq_false_iff, Bool.not_eq_false'] at hident
          split at h
          · next o init ho _ =>
              simp only [pure_eq_ok, Bool.and_eq_true] at h
              exact .named ht hident.1 (by simpa using hlength) ho h.1
          · simp [pure_eq_ok] at h

namespace Rules

-- ================================================================ substr

/-- What is written for a `substr` call on a receiver. -/
inductive SliceOf (call receiver : Cursor) : Node → Prop where
  | whole : call.arguments = [] →
    SliceOf call receiver (Build.methodCall receiver.node "slice" [])
  | rest {start : Cursor} : call.arguments = [start] →
    SliceOf call receiver (Build.methodCall receiver.node "slice" [start.node])
  | range {start length : Cursor} {a n : Int} {x y : Text} :
    call.arguments = [start, length] → start.integerValue = .ok (some a) →
    length.integerValue = .ok (some n) → 0 ≤ a → 0 ≤ n →
    writeNumber a = .ok x → writeNumber (a + n) = .ok y →
    SliceOf call receiver
      (Build.methodCall receiver.node "slice" [Build.number x, Build.number y])

theorem substr_spec (h : r ∈ substr.rewrites context w) :
    ∃ receiver, r.site.methodReceiver? ["substr"] = some receiver
      ∧ receiver.isString = true ∧ r.site.hasSpread = false
      ∧ SliceOf r.site receiver r.new := by
  have h := Rule.replacement_of_mem_rewrites h
  split at h
  · simp [pure_eq_ok] at h
  · next receiver hr =>
      obtain ⟨hguard, h⟩ := unless_eq_ok.1 h
      simp only [Bool.or_eq_false_iff, Bool.not_eq_false'] at hguard
      refine ⟨receiver, hr, hguard.1, hguard.2, ?_⟩
      split at h
      · next hargs =>
          rw [← some_eq_of_ok h]
          exact .whole hargs
      · next start hargs =>
          rw [← some_eq_of_ok h]
          exact .rest hargs
      · next start length hargs =>
          obtain ⟨a, ha, h⟩ := bind_eq_ok.1 h
          obtain ⟨n, hn, h⟩ := bind_eq_ok.1 h
          split at h
          · next a n =>
              split at h
              · simp [pure_eq_ok] at h
              · next hpos =>
                  obtain ⟨x, hx, h⟩ := bind_eq_ok.1 h
                  obtain ⟨y, hy, h⟩ := bind_eq_ok.1 h
                  rw [← some_eq_of_ok h]
                  simp only [Bool.or_eq_true, decide_eq_true_eq, not_or, not_lt] at hpos
                  exact .range hargs ha hn hpos.1 hpos.2 hx hy
          · simp [pure_eq_ok] at h
      · simp [pure_eq_ok] at h

-- =========================================================== comparisons

theorem includes_spec (h : r ∈ includes.rewrites context w) :
    ∃ call negated receiver,
      r.site.presenceCheck (fun d => return d.isIndexOfCall) = .ok (some (call, negated))
        ∧ (call.inner? .function).bind (·.child? .object) = some receiver
        ∧ r.new = Build.negatedIf negated
          (Build.methodCall receiver.node "includes" (call.arguments.map (·.node))) := by
  have h := Rule.replacement_of_mem_rewrites h
  obtain ⟨found, hfound, h⟩ := bind_eq_ok.1 h
  split at h
  · simp [pure_eq_ok] at h
  · next call negated =>
      split at h
      · simp [pure_eq_ok] at h
      · next receiver hr => exact ⟨call, negated, receiver, hfound, hr, (some_eq_of_ok h).symm⟩

theorem startsWithIndex_spec (h : r ∈ startsWithIndex.rewrites context w) :
    ∃ call other negated receiver,
      r.site.equalityCheck (fun d => return d.isStringIndexOfCall)
          = .ok (some (call, other, negated))
        ∧ other.integerValue = .ok (some 0)
        ∧ call.methodReceiver? ["indexOf"] = some receiver
        ∧ r.new = Build.negatedIf negated
          (Build.methodCall receiver.node "startsWith" (call.arguments.map (·.node))) := by
  have h := Rule.replacement_of_mem_rewrites h
  obtain ⟨found, hfound, h⟩ := bind_eq_ok.1 h
  split at h
  · simp [pure_eq_ok] at h
  · next call other negated =>
      obtain ⟨k, hk, h⟩ := bind_eq_ok.1 h
      obtain ⟨hzero, h⟩ := unless_eq_ok.1 h
      obtain rfl : k = some 0 := by simpa using hzero
      cases hr : call.methodReceiver? ["indexOf"] with
      | none => simp [hr, pure_eq_ok] at h
      | some receiver =>
          rw [hr] at h
          exact ⟨call, other, negated, receiver, hfound, hk, hr, (some_eq_of_ok h).symm⟩

theorem startsWithPart_spec (h : r ∈ startsWithPart.rewrites context w) :
    ∃ call start negated first finish receiver,
      r.site.equalityCheck Cursor.isStartCall = .ok (some (call, start, negated))
        ∧ call.arguments = [first, finish]
        ∧ call.methodReceiver? ["substring"] = some receiver
        ∧ finish.isLengthOf start = .ok true
        ∧ r.new = Build.negatedIf negated
          (Build.methodCall receiver.node "startsWith" [start.node]) := by
  have h := Rule.replacement_of_mem_rewrites h
  obtain ⟨found, hfound, h⟩ := bind_eq_ok.1 h
  split at h
  · simp [pure_eq_ok] at h
  · next call start negated =>
      split at h
      · next first finish receiver hargs hr =>
          obtain ⟨b, hb, h⟩ := bind_eq_ok.1 h
          obtain ⟨hguard, h⟩ := unless_eq_ok.1 h
          obtain rfl : b = true := by simpa using hguard
          exact ⟨call, start, negated, first, finish, receiver, hfound, hargs, hr, hb,
            (some_eq_of_ok h).symm⟩
      · simp [pure_eq_ok] at h

end Rules

end Codemod
