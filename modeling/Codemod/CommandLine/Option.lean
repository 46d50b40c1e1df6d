/-
Options on a command line.

An option has a long name, which may be cut short as long as it stays
the only one that starts so, and perhaps a short one. A value follows
its option as the next word or, behind an equals sign or a short name,
in the same word. Short options without values may be joined in one
word. Behind two dashes every word is plain.
-/
import Codemod.Text.Class

namespace Codemod.CommandLine

/-- What an option does. -/
inductive Effect where
  /-- It is on or off. -/
  | flag
  /-- It has a value, which has to pass a test. -/
  | value (accepts : String → Bool)
  /-- It asks for help, and nothing else is done. -/
  | help
  /-- It asks for the version, and nothing else is done. -/
  | version

/-- The option has a value. -/
def Effect.takesValue : Effect → Bool
  | .value _ => true
  | _ => false

/-- An option. -/
structure Switch where
  /-- Its names, dashes included; the first stands for it. -/
  names : List String
  effect : Effect

/-- The name that stands for an option. -/
def Switch.key (s : Switch) : String := s.names.headD ""

/-- What plain words mean. -/
inductive PlainWords where
  /-- There are none. -/
  | refused
  /-- They are a list of at least one word. -/
  | listed
  /-- The first is a command, and all that follows belongs to it. -/
  | command
deriving DecidableEq

/-- What may stand on a command line. -/
structure Grammar where
  options : List Switch
  plainWords : PlainWords := .refused
  /-- Options of which at most one may be given. -/
  exclusive : List String := []

/-- Why a command line is not carried out. -/
inductive Refusal where
  /-- It cannot be understood. -/
  | misused
  /-- Help was asked for. -/
  | help
  /-- The version was asked for. -/
  | version
deriving DecidableEq

-- ================================================================ words

/-- What stands behind the name of an option in the same word. -/
inductive Attachment where
  | nothing
  /-- Something right behind a short name. -/
  | joined (rest : String)
  /-- Something behind an equals sign. -/
  | assigned (value : String)

/-- What a word is. -/
inductive Word where
  | plain (spelling : String)
  /-- The two dashes behind which every word is plain. -/
  | divider
  /-- An option; none if there is no such option. -/
  | option (switch : Option Switch) (attached : Attachment)

namespace Grammar

/-- The option with a name. -/
def find? (g : Grammar) (name : String) : Option Switch :=
  g.options.find? (·.names.contains name)

/-- All names of options. -/
def names (g : Grammar) : List String := g.options.flatMap (·.names)

/-- A text in front of its first equals sign, and what stands behind
it. -/
def cutAtEquals (cs : List Char) : List Char × Attachment :=
  match cs.span (· != '=') with
  | (front, _ :: back) => (front, .assigned (String.ofList back))
  | (front, []) => (front, .nothing)

/-- The options that a word may stand for, by name. -/
def readings (g : Grammar) (cs : List Char) : List (String × Attachment) :=
  match cs with
  | '-' :: '-' :: _ =>
    let (front, attached) := cutAtEquals cs
    (g.names.filter fun n => front.isPrefixOf n.toList).map (·, attached)
  | _ =>
    g.names.filterMap fun n =>
      if n.toList == cs.take 2 then some (n, .joined (String.ofList (cs.drop 2)))
      else if cs.isPrefixOf n.toList then some (n, .nothing)
      else none

/-- A word that starts with a dash but looks like a negative number. -/
def isNegativeNumber : List Char → Bool
  | '-' :: cs =>
    let isDigit (c : Char) := (Point.scalar c).decimal?.isSome
    match cs.span isDigit with
    | (ds, []) => !ds.isEmpty
    | (_, '.' :: fraction) => !fraction.isEmpty && fraction.all isDigit
    | _ => false
  | _ => false

/-- What a word is; none if it may stand for several options. -/
def word? (g : Grammar) (s : String) : Option Word :=
  let cs := s.toList
  let (front, attached) := cutAtEquals cs
  if cs.head? != some '-' then some (.plain s)
  else if (g.find? s).isSome then some (.option (g.find? s) .nothing)
  else if cs.length == 1 then some (.plain s)
  else if (g.find? (String.ofList front)).isSome then
    some (.option (g.find? (String.ofList front)) attached)
  else match g.readings cs with
    | _ :: _ :: _ => none
    | [(name, attached)] => some (.option (g.find? name) attached)
    | [] =>
      if isNegativeNumber cs || cs.contains ' ' then some (.plain s)
      else some (.option none .nothing)

/-- What the words are, each with its spelling. -/
def words? (g : Grammar) : List String → Option (List (String × Word))
  | [] => some []
  | s :: rest =>
    if s == "--" then some ((s, .divider) :: rest.map fun r => (r, .plain r))
    else match g.word? s, g.words? rest with
      | some w, some ws => some ((s, w) :: ws)
      | _, _ => none

end Grammar

-- ============================================================== reading

/-- What has been read from a command line. -/
structure Reading where
  /-- The options with their values, in order. -/
  given : List (String × Option String) := []
  /-- The plain words. -/
  words : List String := []
  /-- Something was left over. -/
  leftover : Bool := false

namespace Reading

/-- The option was given. -/
def has (r : Reading) (key : String) : Bool := r.given.any (·.1 == key)

/-- The values of an option, in order. -/
def values (r : Reading) (key : String) : List String :=
  r.given.filterMap fun (k, v) => if k == key then v else none

/-- The last value of an option. -/
def value? (r : Reading) (key : String) : Option String := (r.values key).getLast?

end Reading

namespace Grammar

/-- Takes an option into account. -/
def take (g : Grammar) (r : Reading) (s : Switch) (v : Option String) :
    Except Refusal Reading :=
  let rivals := if g.exclusive.contains s.key then g.exclusive.filter (· != s.key) else []
  let added := { r with given := r.given ++ [(s.key, v)] }
  match s.effect with
  | .help => .error .help
  | .version => .error .version
  | .flag => if rivals.any r.has then .error .misused else .ok added
  | .value accepts =>
    if !v.all accepts || rivals.any r.has then .error .misused else .ok added

/-- Takes several options into account. -/
def takeAll (g : Grammar) (r : Reading) (ss : List (Switch × Option String)) :
    Except Refusal Reading :=
  ss.foldlM (fun r (s, v) => g.take r s v) r

/-- What an option word asks for. -/
structure Request where
  /-- Options that are complete. -/
  options : List (Switch × Option String) := []
  /-- An option behind them whose value is the next word. -/
  last : Option Switch := none
  /-- Something behind them is no option. -/
  leftover : Bool := false

/-- What short names joined in one word ask for, the first of them
given; none if they cannot stand together. The last may have a value in
the same word, with an equals sign in front of it or without. -/
def joinedRequest (g : Grammar) : Switch → List Char → Option Request
  | s, [] => some (if s.effect.takesValue then { last := some s } else { options := [(s, none)] })
  | s, c :: cs =>
    if s.effect.takesValue then
      some { options := [(s, some (String.ofList (if c == '=' then cs else c :: cs)))] }
    else if c == '=' || c == '-' then none
    else match g.find? (String.ofList ['-', c]) with
      | none => some { options := [(s, none)], leftover := true }
      | some next =>
        (joinedRequest g next cs).map fun r => { r with options := (s, none) :: r.options }

/-- What an option word asks for; none if what is attached to the option
has no place there. -/
def request (g : Grammar) (s : Switch) : Attachment → Option Request
  | .nothing => g.joinedRequest s []
  | .assigned v => if s.effect.takesValue then some { options := [(s, some v)] } else none
  | .joined v =>
    if s.effect.takesValue then some { options := [(s, some v)] }
    else g.joinedRequest s v.toList

/-- The plain words and dividers in front. -/
def group (ws : List (String × Word)) : List (String × Word) :=
  ws.takeWhile fun (_, w) =>
    match w with
    | .option .. => false
    | _ => true

/-- A plain word. -/
def isPlain (w : String × Word) : Bool :=
  match w.2 with
  | .plain _ => true
  | _ => false

/-- Reads words. Listed words are those of the first group of them;
whatever else is plain is left over. Two dashes are no command. -/
def readFrom (g : Grammar) : Nat → Reading → List (String × Word) → Except Refusal Reading
  | 0, r, _ => .ok r
  | _ + 1, r, [] => .ok r
  | fuel + 1, r, (spelling, w) :: rest =>
    match w with
    | .option (some s) attached =>
      match g.request s attached with
      | none => .error .misused
      | some ⟨options, none, leftover⟩ =>
        match g.takeAll r options with
        | .error e => .error e
        | .ok r' => g.readFrom fuel { r' with leftover := r'.leftover || leftover } rest
      | some ⟨options, some last, _⟩ =>
        match rest with
        | (_, .plain v) :: more =>
          match g.takeAll r (options ++ [(last, some v)]) with
          | .error e => .error e
          | .ok r' => g.readFrom fuel r' more
        | _ => .error .misused
    | .option none _ => g.readFrom fuel { r with leftover := true } rest
    | _ =>
      let here := group ((spelling, w) :: rest)
      let behind := ((spelling, w) :: rest).drop here.length
      if g.plainWords == .command then
        if isPlain (spelling, w) then .ok { r with words := spelling :: rest.map (·.1) }
        else .error .misused
      else if g.plainWords == .listed && r.words.isEmpty && here.any isPlain then
        g.readFrom fuel { r with words := (here.filter isPlain).map (·.1) } behind
      else g.readFrom fuel { r with leftover := true } behind

/-- Reads a command line. -/
def read (g : Grammar) (args : List String) : Except Refusal Reading :=
  match g.words? args with
  | none => .error .misused
  | some ws =>
    match g.readFrom (ws.length + 1) {} ws with
    | .error e => .error e
    | .ok r =>
      if g.plainWords == .listed && r.words.isEmpty then .error .misused else .ok r

end Grammar

end Codemod.CommandLine
