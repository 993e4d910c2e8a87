import CssLex.Byte
import CssLex.Number.Binary64

/-!
The literals of CSS, `[-+]?(digits | digits? '.' digits)([eE][-+]?digits)?`. A literal is split off the front of a
text in its parts, each as long as possible; what follows the number of a dimension is its unit.

The size of an exponent is read only until it reaches a limit, so that it stays small however many digits are written.
In a literal with fewer than 65000 digits before its exponent this changes nothing, because such an exponent makes zero
or infinity of it either way. A longer literal can make up for a great exponent by its own length; it is then read with
the shortened exponent.
-/

namespace CssLex

/-- The parts of a numeric literal. -/
structure Literal where
  negative : Bool
  /-- The digits before the point. -/
  whole : Bytes
  /-- The digits after the point; none if and only if there is no point. -/
  fraction : Bytes
  powerNegative : Bool
  /-- The digits of the exponent; none if and only if there is no exponent. -/
  power : Bytes
  deriving DecidableEq, Repr

namespace Literal

def digits (text : Bytes) : Bytes := text.takeWhile Byte.isDigit

def afterDigits (text : Bytes) : Bytes := text.dropWhile Byte.isDigit

/-- The number that decimal digits spell. -/
def natural (digits : Bytes) : Nat := digits.foldl (fun n b => 10 * n + Byte.digitValue b) 0

/-- Whether a minus sign is in front, and the text after the sign if there is one. -/
def splitSign : Bytes → Bool × Bytes
  | [] => (false, [])
  | b :: rest => if Byte.isSign b then (b == Byte.hyphen, rest) else (false, b :: rest)

/-- The digits after a point in front, and the text after them. A point without digits is left. -/
def splitFraction : Bytes → Bytes × Bytes
  | [] => ([], [])
  | b :: rest =>
    if b == Byte.fullStop && !(digits rest).isEmpty then (digits rest, afterDigits rest) else ([], b :: rest)

/-- The sign and the digits of an exponent in front, and the text after it. A mark without digits is left. -/
def splitPower : Bytes → Bool × Bytes × Bytes
  | [] => (false, [], [])
  | b :: rest =>
    let (negative, power) := splitSign rest
    if Byte.isExponentMark b && !(digits power).isEmpty then (negative, digits power, afterDigits power)
    else (false, [], b :: rest)

/-- The longest literal in front of a text, and the text after it. -/
def split? (text : Bytes) : Option (Literal × Bytes) :=
  let (negative, unsigned) := splitSign text
  let whole := digits unsigned
  let (fraction, unscaled) := splitFraction (afterDigits unsigned)
  if whole.isEmpty && fraction.isEmpty then none
  else
    let (powerNegative, power, rest) := splitPower unscaled
    some (⟨negative, whole, fraction, powerNegative, power⟩, rest)

/-- The length of the longest literal in front of a text, zero if there is none. -/
def length (text : Bytes) : Nat :=
  match split? text with
  | some (_, rest) => text.length - rest.length
  | none => 0

/-- The literal that is all of a text. -/
def ofBytes? (text : Bytes) : Option Literal :=
  match split? text with
  | some (literal, []) => some literal
  | _ => none

/-- Whether all of a text is one literal. -/
def isNumber (text : Bytes) : Bool := (ofBytes? text).isSome

/-- No point is written. The exponent may still make a fraction of it. -/
def isInteger (l : Literal) : Bool := l.fraction.isEmpty

/-- The size from which on an exponent takes no more digits. -/
def powerLimit : Nat := 0x10000

/-- The number that the digits of an exponent spell, as far as they are read. -/
def limitedNatural (digits : Bytes) : Nat :=
  digits.foldl (fun n b => if n < powerLimit then 10 * n + Byte.digitValue b else n) 0

/-- The exponent as far as it is read; zero if none is written. -/
def exponent (l : Literal) : Int :=
  if l.powerNegative then -(limitedNatural l.power : Int) else limitedNatural l.power

/-- The binary64 number that a literal is read as: the one nearest to its digits as one integer, scaled by the
exponent. -/
def toBinary64 (l : Literal) : Binary64 :=
  Binary64.ofDecimal l.negative (natural (l.whole ++ l.fraction)) (l.exponent - l.fraction.length)

/-- The binary64 number that a text stands for, if all of it is a literal. -/
def value? (text : Bytes) : Option Binary64 := (ofBytes? text).map toBinary64

end Literal
end CssLex
