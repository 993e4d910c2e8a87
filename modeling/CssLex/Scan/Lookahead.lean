import CssLex.Byte

namespace CssLex.Scan

/-- The first byte exists and is in a class. The end of input begins nothing. -/
def begins (p : UInt8 → Bool) : Bytes → Bool
  | [] => false
  | b :: _ => p b

/-- A backslash begins an escape before every byte but a newline. -/
def beginsEscape : Bytes → Bool
  | [] => false
  | b :: rest => b == Byte.reverseSolidus && begins (!Byte.isNewline ·) rest

/-- A byte of a name or an escape. -/
def beginsNameItem (bytes : Bytes) : Bool := begins Byte.isName bytes || beginsEscape bytes

/-- An identifier begins with a name start, an escape, or a hyphen before one of these or before another hyphen. -/
def beginsIdent : Bytes → Bool
  | [] => false
  | b :: rest =>
    if b == Byte.hyphen then
      begins (fun c => Byte.isNameStart c || c == Byte.hyphen) rest || beginsEscape rest
    else Byte.isNameStart b || beginsEscape (b :: rest)

/-- A digit, or a full stop before a digit. -/
def beginsUnsigned : Bytes → Bool
  | [] => false
  | b :: rest => Byte.isDigit b || (b == Byte.fullStop && begins Byte.isDigit rest)

/-- A number begins with an optional sign and then a digit, or a full stop before a digit. -/
def beginsNumber : Bytes → Bool
  | [] => false
  | b :: rest => if Byte.isSign b then beginsUnsigned rest else beginsUnsigned (b :: rest)

end CssLex.Scan
