import StyleCheck.Text.Basic

/-!
# UTF-8

Strings as texts and back. A text need not be UTF-8: a byte that begins no character, and every
piece of a character that is not finished, is read as the replacement character.
-/

namespace StyleCheck.Text

/-- The bytes of a string, in UTF-8. -/
def ofString (s : String) : Text := s.toList.flatMap String.utf8EncodeChar

/-- What stands for bytes that are no character. -/
def replacement : Char := Char.ofNat 0xFFFD

/-- A piece of a character: how many bytes it still owes, its bits so far, and the range that its
next byte is in. -/
structure Piece where
  owed : Nat
  bits : Nat
  low : UInt8
  high : UInt8
  deriving DecidableEq, Repr

/-- The piece that the first byte of a longer character makes. Some second bytes are left out,
since they would write a character at greater length than needed, a surrogate, or a character
beyond the last one. -/
def lead? (b : UInt8) : Option Piece :=
  if b < 0xC2 then none
  else if b < 0xE0 then some ⟨1, b.toNat - 0xC0, 0x80, 0xBF⟩
  else if b < 0xF0 then
    some ⟨2, b.toNat - 0xE0, if b = 0xE0 then 0xA0 else 0x80, if b = 0xED then 0x9F else 0xBF⟩
  else if b < 0xF5 then
    some ⟨3, b.toNat - 0xF0, if b = 0xF0 then 0x90 else 0x80, if b = 0xF4 then 0x8F else 0xBF⟩
  else none

/-- A byte between characters: what it says, and the piece that it begins. -/
def firstByte (b : UInt8) : List Char × Option Piece :=
  if b < 0x80 then ([Char.ofNat b.toNat], none)
  else
    match lead? b with
    | some p => ([], some p)
    | none => ([replacement], none)

/-- A byte behind a piece, if there is one. A byte that does not fit begins anew. -/
def readByte (p : Option Piece) (b : UInt8) : List Char × Option Piece :=
  match p with
  | none => firstByte b
  | some p =>
    if p.low ≤ b ∧ b ≤ p.high then
      let bits := p.bits * 0x40 + (b.toNat - 0x80)
      if p.owed = 1 then ([Char.ofNat bits], none)
      else ([], some ⟨p.owed - 1, bits, 0x80, 0xBF⟩)
    else
      let r := firstByte b
      (replacement :: r.1, r.2)

/-- The characters of a text behind a piece, if there is one. -/
def decodeFrom : Option Piece → Text → List Char
  | none, [] => []
  | some _, [] => [replacement]
  | p, b :: t =>
    let r := readByte p b
    r.1 ++ decodeFrom r.2 t

/-- The string that a text is read as. -/
def decode (t : Text) : String := String.ofList (decodeFrom none t)

end StyleCheck.Text
