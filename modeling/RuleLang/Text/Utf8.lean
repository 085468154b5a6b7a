/-!
# UTF-8

Reading bytes as text. A character takes one to four bytes; a sequence that is cut off or out of
range is malformed, and its longest prefix that could have gone on counts as one malformed piece.

## Main definitions

* `Utf8.first` — the character or the malformed piece that opens a byte list.
* `Utf8.decode` — the text of a byte list, or the offset of the first malformed piece.
* `Utf8.decodeLossy` — the text with U+FFFD in place of each malformed piece.
-/

namespace RuleLang.Utf8

/-- The lowest and highest second byte after a first byte of a longer sequence, and the number of
bytes that follow it in all. -/
def secondByte? (b : UInt8) : Option (UInt8 × UInt8 × Nat) :=
  if 0xc2 ≤ b && b ≤ 0xdf then some (0x80, 0xbf, 1)
  else if b == 0xe0 then some (0xa0, 0xbf, 2)
  else if b == 0xed then some (0x80, 0x9f, 2)
  else if 0xe1 ≤ b && b ≤ 0xef then some (0x80, 0xbf, 2)
  else if b == 0xf0 then some (0x90, 0xbf, 3)
  else if 0xf1 ≤ b && b ≤ 0xf3 then some (0x80, 0xbf, 3)
  else if b == 0xf4 then some (0x80, 0x8f, 3)
  else none

/-- The code point bits of a first byte that `more` bytes follow. -/
def leadBits (b : UInt8) (more : Nat) : Nat :=
  b.toNat % (if more == 1 then 0x20 else if more == 2 then 0x10 else 0x08)

/-- Takes `more` continuation bytes, the next of them in `low..high`: the code point and how many
were taken, or how many were taken before the sequence broke off. -/
def continuation (low high : UInt8) (more taken code : Nat) : List UInt8 → Option Nat × Nat :=
  fun bytes =>
    match more, bytes with
    | 0, _ => (some code, taken)
    | _ + 1, [] => (none, taken)
    | more + 1, b :: rest =>
      if low ≤ b && b ≤ high then
        continuation 0x80 0xbf more (taken + 1) (code * 64 + b.toNat % 64) rest
      else (none, taken)

/-- What opens a byte list whose first byte is `b`: a character or `none`, and how many bytes follow
`b` in it. -/
def first (b : UInt8) (rest : List UInt8) : Option Char × Nat :=
  if b < 0x80 then (some (Char.ofNat b.toNat), 0)
  else
    match secondByte? b with
    | none => (none, 0)
    | some (low, high, more) =>
      let (code, taken) := continuation low high more 0 (leadBits b more) rest
      (code.map Char.ofNat, taken)

/-- The characters and malformed pieces of a byte list with their offsets. The first `skip` bytes
belong to a piece that is already read. -/
def pieces (offset : Nat) : Nat → List UInt8 → List (Nat × Option Char)
  | _, [] => []
  | skip + 1, _ :: rest => pieces (offset + 1) skip rest
  | 0, b :: rest =>
    let (c, more) := first b rest
    (offset, c) :: pieces (offset + 1) more rest

/-- The text, or the length of the longest well-formed prefix. -/
def decode (bytes : List UInt8) : Except Nat (List Char) :=
  (pieces 0 0 bytes).mapM fun
    | (_, some c) => .ok c
    | (offset, none) => .error offset

def decodeLossy (bytes : List UInt8) : List Char :=
  (pieces 0 0 bytes).map fun (_, c) => c.getD '\ufffd'

end RuleLang.Utf8
