/-!
Texts are handled as the bytes of their UTF-8 form. This module names the bytes that have a meaning of their own
and the byte classes that the CSS token grammar is written in. Every byte of a character beyond ASCII belongs to
the name classes, so such a character is never cut in the middle of a name.
-/

namespace CssLex

/-- The text of a token or of a value, as the bytes of its UTF-8 form. -/
abbrev Bytes := List UInt8

namespace Byte

@[match_pattern] abbrev tab : UInt8 := 0x09
@[match_pattern] abbrev lineFeed : UInt8 := 0x0A
@[match_pattern] abbrev formFeed : UInt8 := 0x0C
@[match_pattern] abbrev carriageReturn : UInt8 := 0x0D
@[match_pattern] abbrev space : UInt8 := 0x20
@[match_pattern] abbrev exclamationMark : UInt8 := 0x21
@[match_pattern] abbrev quotationMark : UInt8 := 0x22
@[match_pattern] abbrev numberSign : UInt8 := 0x23
@[match_pattern] abbrev percentSign : UInt8 := 0x25
@[match_pattern] abbrev apostrophe : UInt8 := 0x27
@[match_pattern] abbrev leftParenthesis : UInt8 := 0x28
@[match_pattern] abbrev rightParenthesis : UInt8 := 0x29
@[match_pattern] abbrev asterisk : UInt8 := 0x2A
@[match_pattern] abbrev plusSign : UInt8 := 0x2B
@[match_pattern] abbrev comma : UInt8 := 0x2C
@[match_pattern] abbrev hyphen : UInt8 := 0x2D
@[match_pattern] abbrev fullStop : UInt8 := 0x2E
@[match_pattern] abbrev solidus : UInt8 := 0x2F
@[match_pattern] abbrev colon : UInt8 := 0x3A
@[match_pattern] abbrev semicolon : UInt8 := 0x3B
@[match_pattern] abbrev lessThan : UInt8 := 0x3C
@[match_pattern] abbrev greaterThan : UInt8 := 0x3E
@[match_pattern] abbrev atSign : UInt8 := 0x40
@[match_pattern] abbrev leftSquare : UInt8 := 0x5B
@[match_pattern] abbrev reverseSolidus : UInt8 := 0x5C
@[match_pattern] abbrev rightSquare : UInt8 := 0x5D
@[match_pattern] abbrev underscore : UInt8 := 0x5F
@[match_pattern] abbrev leftCurly : UInt8 := 0x7B
@[match_pattern] abbrev rightCurly : UInt8 := 0x7D

/-- LF, CR and FF each end a line. -/
def isNewline (b : UInt8) : Bool := b == lineFeed || b == carriageReturn || b == formFeed

/-- Space, tab and the newlines. -/
def isWhitespace (b : UInt8) : Bool := b == space || b == tab || isNewline b

def isDigit (b : UInt8) : Bool := 0x30 ≤ b && b ≤ 0x39

def isLetter (b : UInt8) : Bool := (0x41 ≤ b && b ≤ 0x5A) || (0x61 ≤ b && b ≤ 0x7A)

def isHexDigit (b : UInt8) : Bool := isDigit b || (0x41 ≤ b && b ≤ 0x46) || (0x61 ≤ b && b ≤ 0x66)

/-- Letters, the underscore and every byte of a character beyond ASCII. -/
def isNameStart (b : UInt8) : Bool := isLetter b || b == underscore || 0x80 ≤ b

/-- A name goes on with name starts, digits and hyphens. -/
def isName (b : UInt8) : Bool := isNameStart b || isDigit b || b == hyphen

/-- Control bytes that an unquoted url may not hold; whitespace is not among them. -/
def isNonPrintable (b : UInt8) : Bool :=
  b ≤ 0x08 || b == 0x0B || (0x0E ≤ b && b ≤ 0x1F) || b == 0x7F

def isQuote (b : UInt8) : Bool := b == quotationMark || b == apostrophe

def isSign (b : UInt8) : Bool := b == plusSign || b == hyphen

/-- Both letters that introduce an exponent. -/
def isExponentMark (b : UInt8) : Bool := b == 0x65 || b == 0x45

/-- Bytes 0x80 to 0xBF continue a UTF-8 sequence and never begin one. -/
def isContinuation (b : UInt8) : Bool := 0x80 ≤ b && b ≤ 0xBF

/-- The length of the UTF-8 sequence that `b` leads; 1 for a byte that leads none. -/
def width (b : UInt8) : Nat :=
  if 0xC0 ≤ b && b ≤ 0xDF then 2
  else if 0xE0 ≤ b && b ≤ 0xEF then 3
  else if 0xF0 ≤ b && b ≤ 0xF7 then 4
  else 1

/-- The number that a decimal digit stands for. -/
def digitValue (b : UInt8) : Nat := b.toNat - 0x30

/-- An upper case ASCII letter becomes lower case; every other byte stays. -/
def lower (b : UInt8) : UInt8 := if 0x41 ≤ b && b ≤ 0x5A then b + 0x20 else b

theorem width_pos (b : UInt8) : 0 < width b := by
  unfold width
  (repeat' split) <;> omega

end Byte

/-- The bytes that `s` is encoded in. -/
def utf8 (s : String) : Bytes := s.toByteArray.data.toList

/-- Equality of texts up to the case of ASCII letters. -/
def Bytes.equalIgnoringCase (left right : Bytes) : Bool := left.map Byte.lower == right.map Byte.lower

end CssLex
