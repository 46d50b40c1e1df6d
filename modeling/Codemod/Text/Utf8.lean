/-
Text as bytes.

Files hold text in UTF-8. A decoder reads one byte at a time: the first
byte of a character tells how many follow and in which range the next
one lies. Reading a file makes the end of every line a line feed.
-/
import Codemod.Fault

namespace Codemod

/-- The content of a file. -/
abbrev Bytes := List UInt8

namespace Utf8

/-- The bytes of a text. -/
def encode (cs : List Char) : Bytes := cs.flatMap String.utf8EncodeChar

/-- A character of which some bytes have been read. -/
structure Unfinished where
  /-- Its first byte. -/
  lead : Nat
  /-- The position of that byte. -/
  start : Nat
  /-- How many bytes are to follow, less one. -/
  more : Nat
  /-- The range in which the next byte lies. -/
  low : Nat
  high : Nat
  /-- The bits of the bytes read. -/
  bits : Nat

/-- What the first byte of a longer character announces. -/
def announced? (b position : Nat) : Option Unfinished :=
  if 0xC2 ≤ b && b ≤ 0xDF then some ⟨b, position, 0, 0x80, 0xBF, b - 0xC0⟩
  else if 0xE0 ≤ b && b ≤ 0xEF then
    some ⟨b, position, 1, if b == 0xE0 then 0xA0 else 0x80,
      if b == 0xED then 0x9F else 0xBF, b - 0xE0⟩
  else if 0xF0 ≤ b && b ≤ 0xF4 then
    some ⟨b, position, 2, if b == 0xF0 then 0x90 else 0x80,
      if b == 0xF4 then 0x8F else 0xBF, b - 0xF0⟩
  else none

/-- Decodes what follows at a position, behind a character that may be
incomplete. -/
def decodeFrom : Nat → Option Unfinished → Bytes → Except Fault (List Char)
  | _, none, [] => .ok []
  | position, some p, [] =>
    .error (.undecodable .ending p.lead p.start (position - 1))
  | position, none, b :: bs =>
    let n := b.toNat
    if n < 0x80 then (decodeFrom (position + 1) none bs).map (Char.ofNat n :: ·)
    else match announced? n position with
      | some p => decodeFrom (position + 1) (some p) bs
      | none => .error (.undecodable .start n position position)
  | position, some p, b :: bs =>
    let n := b.toNat
    if p.low ≤ n && n ≤ p.high then
      let bits := p.bits * 64 + (n - 0x80)
      match p.more with
      | 0 => (decodeFrom (position + 1) none bs).map (Char.ofNat bits :: ·)
      | more + 1 =>
        decodeFrom (position + 1)
          (some { p with more := more, low := 0x80, high := 0xBF, bits := bits }) bs
    else .error (.undecodable .continuation p.lead p.start (position - 1))

/-- The text of bytes. -/
def decode (bs : Bytes) : Except Fault (List Char) := decodeFrom 0 none bs

/-- The text with a line feed at the end of every line. -/
def unifyLines : List Char → List Char
  | [] => []
  | '\r' :: '\n' :: cs => '\n' :: unifyLines cs
  | '\r' :: cs => '\n' :: unifyLines cs
  | c :: cs => c :: unifyLines cs

/-- What reading a file makes of its bytes. -/
def read (bs : Bytes) : Except Fault (List Char) := (decode bs).map unifyLines

end Utf8

end Codemod
