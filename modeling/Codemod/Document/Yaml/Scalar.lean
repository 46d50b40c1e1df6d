/-
Plain scalars of YAML.

A scalar without quotes stands for a value by its spelling: null, a
truth value, a number, a date; any other spelling stands for itself.
-/
import Codemod.Document.Value

namespace Codemod.Yaml

/-- What a plain scalar stands for. -/
inductive Meaning where
  | value (v : Value)
  /-- The spelling itself. -/
  | word
  /-- A spelling that is set aside and stands for nothing. -/
  | reserved

-- ================================================================ words

/-- The spellings of null. -/
def nullWords : List String := ["", "~", "null", "Null", "NULL"]

/-- The spellings of true. -/
def trueWords : List String := [
  "yes", "Yes", "YES", "true", "True", "TRUE", "on", "On", "ON"]

/-- The spellings of false. -/
def falseWords : List String := [
  "no", "No", "NO", "false", "False", "FALSE", "off", "Off", "OFF"]

/-- The spellings that are set aside. -/
def reservedWords : List String := ["=", "<<"]

-- ============================================================== numbers

/-- The sign of a number, and the rest. -/
def unsigned : List Char → Bool × List Char
  | '-' :: cs => (true, cs)
  | '+' :: cs => (false, cs)
  | cs => (false, cs)

/-- The value of a digit; anything beyond the digits is worth more than
every base. -/
def digitValue (c : Char) : Nat :=
  if c.isDigit then c.toNat - '0'.toNat
  else if 'a' ≤ c && c ≤ 'f' then c.toNat - 'a'.toNat + 10
  else if 'A' ≤ c && c ≤ 'F' then c.toNat - 'A'.toNat + 10
  else 16

/-- A run of digits of a base, which underscores may divide. -/
def isRun (base : Nat) (cs : List Char) : Bool :=
  !cs.isEmpty && cs.all fun c => c == '_' || digitValue c < base

/-- The number of a run of digits. -/
def runValue (base : Nat) (cs : List Char) : Nat :=
  (cs.filter (· != '_')).foldl (fun n c => n * base + digitValue c) 0

/-- A number below sixty behind a colon. -/
def isSixtieth : List Char → Bool
  | [d] => d.isDigit
  | [t, d] => digitValue t < 6 && d.isDigit
  | _ => false

/-- The digits of a whole number that does not start with zero, the
parts behind colons counting sixtieths. -/
def sixtieths? (cs : List Char) : Option Nat :=
  match cs.splitOnP (· == ':') with
  | [] => none
  | whole :: parts =>
    if whole.head? != some '0' && whole.head? != some '_' && isRun 10 whole
        && parts.all isSixtieth then
      some (parts.foldl (fun n p => n * 60 + runValue 10 p) (runValue 10 whole))
    else none

/-- The number of an unsigned spelling. -/
def natural? (cs : List Char) : Option Nat :=
  match cs with
  | ['0'] => some 0
  | '0' :: 'b' :: ds => if isRun 2 ds then some (runValue 2 ds) else none
  | '0' :: 'x' :: ds => if isRun 16 ds then some (runValue 16 ds) else none
  | '0' :: ds => if isRun 8 ds then some (runValue 8 ds) else none
  | _ => sixtieths? cs

/-- The whole number that is spelled. -/
def integer? (cs : List Char) : Option Int :=
  let (negative, digits) := unsigned cs
  (natural? digits).map fun n => if negative then -Int.ofNat n else Int.ofNat n

/-- An exponent with its sign, or nothing. -/
def isExponent : List Char → Bool
  | [] => true
  | e :: s :: ds =>
    (e == 'e' || e == 'E') && (s == '-' || s == '+') && !ds.isEmpty && ds.all Char.isDigit
  | _ => false

/-- The part of a decimal behind its point. -/
def isFraction (cs : List Char) : Bool :=
  isExponent (cs.dropWhile fun c => c.isDigit || c == '_')

/-- A number with a decimal point. -/
def isDecimal (cs : List Char) : Bool :=
  let digits := (unsigned cs).2
  match digits.span (· != '.') with
  | (_, []) => false
  | ([], _ :: rest) =>
    ["inf", "Inf", "INF"].contains (String.ofList rest)
      || digits == cs
        && (["nan", "NaN", "NAN"].contains (String.ofList rest)
          || (rest.head?.any Char.isDigit && isFraction rest))
  | (whole, _ :: rest) =>
    match whole.splitOnP (· == ':') with
    | [] => false
    | first :: parts =>
      first.head?.any Char.isDigit && isRun 10 first
        && if parts.isEmpty then isFraction rest
          else parts.all isSixtieth && rest.all fun c => c.isDigit || c == '_'

-- ================================================================ dates

/-- What follows so many digits at least and at most. -/
def behindDigits? (least most : Nat) (cs : List Char) : Option (List Char) :=
  let n := (cs.take most).takeWhile Char.isDigit |>.length
  if least ≤ n then some (cs.drop n) else none

/-- What follows a character. -/
def behindChar? (c : Char) : List Char → Option (List Char)
  | d :: cs => if c == d then some cs else none
  | [] => none

/-- A zone behind the time of a day, or nothing. -/
def isZone (cs : List Char) : Bool :=
  match cs.dropWhile fun c => c == ' ' || c == '\t' with
  | [] => cs.isEmpty
  | ['Z'] => true
  | s :: rest =>
    (s == '-' || s == '+') && match behindDigits? 1 2 rest with
      | some [] => true
      | some more => ((behindChar? ':' more).bind (behindDigits? 2 2)) == some []
      | none => false

/-- The time of a day. -/
def isTime (cs : List Char) : Bool :=
  match (behindDigits? 1 2 cs).bind (behindChar? ':') |>.bind (behindDigits? 2 2)
      |>.bind (behindChar? ':') |>.bind (behindDigits? 2 2) with
  | none => false
  | some ('.' :: rest) => isZone (rest.dropWhile Char.isDigit)
  | some rest => isZone rest

/-- A date, or a date with the time of the day. -/
def isDate (cs : List Char) : Bool :=
  let date (least : Nat) := (behindDigits? 4 4 cs).bind (behindChar? '-')
    |>.bind (behindDigits? least 2) |>.bind (behindChar? '-')
    |>.bind (behindDigits? least 2)
  date 2 == some [] || match date 1 with
    | some (c :: rest) =>
      if c == 'T' || c == 't' then isTime rest
      else (c == ' ' || c == '\t')
        && isTime (rest.dropWhile fun d => d == ' ' || d == '\t')
    | _ => false

-- ============================================================== meaning

/-- What a plain scalar stands for. -/
def meaning (cs : List Char) : Meaning :=
  let s := String.ofList cs
  if nullWords.contains s then .value .null
  else if trueWords.contains s then .value (.bool true)
  else if falseWords.contains s then .value (.bool false)
  else if reservedWords.contains s then .reserved
  else match integer? cs with
    | some n => .value (.int n)
    | none => if isDecimal cs || isDate cs then .value (.other s) else .word

/-- The spelling stands for itself. -/
def isWord (cs : List Char) : Bool :=
  match meaning cs with
  | .word => true
  | _ => false

end Codemod.Yaml
