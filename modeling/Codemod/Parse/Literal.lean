/-
Strings, templates and regular expressions: literals whose parts follow
each other without gaps.
-/
import Codemod.Parse.Step

namespace Codemod.Parse

open Step

variable {src : List Char}

/-- Reads the parts of a string up to its closing quote: runs of plain
characters and escape sequences, at most `fuel` of them. -/
def stringParts (quote : Char) : Nat → Step src Unit
  | 0 => failure
  | fuel + 1 => do
    let rest := (← get).rest
    match rest with
    | [] => failure
    | c :: _ =>
      if c == quote then
        adjoining (.word (String.singleton quote)) false none 1
      else if c == '\\' then do
        adjoining Symbol.escapeSequence true none (escapeLength rest)
        stringParts quote fuel
      else do
        let plain := fun d => d != quote && d != '\\' && d != '\r' && d != '\n'
        adjoining Symbol.stringFragment true none (runLength plain rest)
        stringParts quote fuel

/-- Reads a string. -/
def string : Step src Unit := do
  let start ← mark
  let l ← peek
  require (l.shape == .quote)
  bare none
  match l.text.toList with
  | [quote] => stringParts quote ((← get).rest.length + 1)
  | _ => failure
  close start .string

/-- Reads a regular expression. -/
def regex : Step src Unit := do
  let start ← mark
  let blank := runLength isGap (← get).rest
  modify (·.push (.word "/") false none blank 1)
  let rest := (← get).rest
  adjoining Symbol.regexPattern true (some .pattern)
    (regexPatternLength rest.length rest)
  match (← get).rest with
  | '/' :: rest => do
    adjoining (.word "/") false none 1
    let flags := runLength (fun c => 'a' ≤ c && c ≤ 'z') rest
    if 0 < flags then adjoining Symbol.regexFlags true (some .flags) flags
  | _ => failure
  close start .regex

/-- Reads a template up to its closing backtick. -/
def template (go : Goal → Step src Unit) : Step src Unit := do
  let start ← mark
  bare none
  go .templateParts
  close start .templateString

/-- Reads the parts of a template and its closing backtick. -/
def templateParts (go : Goal → Step src Unit) : Step src Unit := do
  let rest := (← get).rest
  match rest with
  | '\x60' :: _ => adjoining (.word "\x60") false none 1
  | '\\' :: _ => do
    adjoining Symbol.escapeSequence true none (escapeLength rest)
    go .templateParts
  | '$' :: '{' :: _ => do
    let start ← here
    adjoining (.word "$\x7b") false none 2
    go (.expression false)
    token "\x7d"
    close start .templateSubstitution
    go .templateParts
  | _ => do
    adjoining Symbol.stringFragment true none (templateRunLength rest)
    go .templateParts

end Codemod.Parse
