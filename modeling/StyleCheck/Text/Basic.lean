/-!
# Text

The contents of a file are bytes, and columns count bytes. The blanks are the space and the five
control characters from the tab to the carriage return; every other byte is ink.
-/

namespace StyleCheck

/-- A text, byte by byte. -/
abbrev Text := List UInt8

namespace Text

def tab : UInt8 := 0x09

def newline : UInt8 := 0x0A

def carriageReturn : UInt8 := 0x0D

def hyphen : UInt8 := 0x2D

/-- Spaces, tabs, line breaks, vertical tabs and form feeds. -/
def isBlank (b : UInt8) : Bool := b == 0x20 || (0x09 ≤ b && b ≤ 0x0D)

/-- The text without the blanks at its end. -/
def trimEnd (t : Text) : Text := (t.reverse.dropWhile isBlank).reverse

/-- The text without the blanks at both ends. -/
def trim (t : Text) : Text := trimEnd (t.dropWhile isBlank)

/-- Where the ink of a line starts. A line of blanks counts its last one as ink. -/
def inkStart (line : Text) : Nat :=
  match line.findIdx? (fun b => !isBlank b) with
  | some i => i
  | none => line.length - 1

end Text

end StyleCheck
