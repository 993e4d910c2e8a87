/-!
The binary64 number nearest to an exact decimal value, with ties to the even neighbour, overflow to infinity and
underflow to a signed zero. Everything is done in whole numbers. The magnitude of a number is kept as the integer
that its lower 63 bits spell: these integers stand in the same order as the magnitudes, and consecutive integers
are consecutive magnitudes.
-/

namespace CssLex

/-- A binary64 number other than a NaN. -/
structure Binary64 where
  negative : Bool
  /-- The bits below the sign, read as one integer. -/
  magnitude : Nat
  deriving DecidableEq, Repr

namespace Binary64

/-- The magnitude bits of infinity. -/
def infinityBits : Nat := 0x7FF0000000000000

/-- The number 1. -/
def one : Binary64 := ⟨false, 0x3FF0000000000000⟩

/-- The place of a number in the order of all numbers; both zeros share one. -/
def order (x : Binary64) : Int := if x.negative then -(x.magnitude : Int) else x.magnitude

/-- The quotient `numerator / denominator` divided by `2 ^ exponent`, as a quotient again. -/
def scaled (numerator denominator : Nat) (exponent : Int) : Nat × Nat :=
  if 0 ≤ exponent then (numerator, denominator <<< exponent.toNat)
  else (numerator <<< (-exponent).toNat, denominator)

/-- The exponent of the greatest power of two that is at most `numerator / denominator`; both are positive. -/
def binade (numerator denominator : Nat) : Int :=
  let estimate : Int := (numerator.log2 : Int) - denominator.log2
  let (n, d) := scaled numerator denominator estimate
  if d ≤ n then estimate else estimate - 1

/-- The integer nearest to a quotient; of two equally near the even one. -/
def roundHalfEven (numerator denominator : Nat) : Nat :=
  let floor := numerator / denominator
  let rest := 2 * (numerator % denominator)
  if rest < denominator || (rest == denominator && floor % 2 == 0) then floor else floor + 1

/-- The exponent of the least, that is subnormal, spacing. -/
def leastSpacing : Int := -1074

/-- The exponent of the spacing of magnitudes around a positive quotient: 53 significant bits, as far as the range
of exponents allows. -/
def spacing (numerator denominator : Nat) : Int := max leastSpacing (binade numerator denominator - 52)

/-- The number nearest to a positive quotient with the given sign. A significand that rounds up to the next binade
carries into the exponent, and a magnitude beyond the greatest becomes infinity. -/
def ofRatio (negative : Bool) (numerator denominator : Nat) : Binary64 :=
  let spacing := spacing numerator denominator
  let (n, d) := scaled numerator denominator spacing
  ⟨negative, min infinityBits (((spacing - leastSpacing).toNat <<< 52) + roundHalfEven n d)⟩

/-- The number nearest to `digits * 10 ^ exponent` with the given sign. Exponents so great or so small that the
result is infinity or zero whatever the digits are need no power of ten. -/
def ofDecimal (negative : Bool) (digits : Nat) (exponent : Int) : Binary64 :=
  if digits = 0 then ⟨negative, 0⟩
  else if 400 < exponent then ⟨negative, infinityBits⟩
  else if 3 * exponent + digits.log2 + 1076 < 0 then ⟨negative, 0⟩
  else if 0 ≤ exponent then ofRatio negative (digits * Nat.pow 10 exponent.toNat) 1
  else ofRatio negative digits (Nat.pow 10 (-exponent).toNat)

/-- All 64 bits as one integer. -/
def toBits (x : Binary64) : Nat := (if x.negative then 0x8000000000000000 else 0) + x.magnitude

/-- The bits as 16 hex digits in lower case. -/
def toHex (x : Binary64) : String :=
  let digits := Nat.toDigits 16 x.toBits
  String.ofList (List.replicate (16 - digits.length) '0' ++ digits)

end Binary64
end CssLex
