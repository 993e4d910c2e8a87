import CssLex.Text

/-!
Bytes are read one sequence at a time. A sequence is ill-formed up to its *maximal subpart*: the longest run of
bytes that could still have begun a character, and at least one byte. `repair` writes one U+FFFD for each maximal
subpart, and `check` reports the first of them.
-/

namespace CssLex.Utf8

/-- The least and the greatest byte allowed at a place. -/
abbrev Range := UInt8 × UInt8

/-- Any continuation byte. -/
def tail : Range := (0x80, 0xBF)

/-- What must follow a sequence's first byte, or none where no sequence begins with it. The second byte of some
sequences is narrowed, which leaves out overlong forms, surrogates and code points past U+10FFFF. -/
def following (lead : UInt8) : Option (List Range) :=
  if lead ≤ 0x7F then some []
  else if 0xC2 ≤ lead && lead ≤ 0xDF then some [tail]
  else if lead == 0xE0 then some [(0xA0, 0xBF), tail]
  else if lead == 0xED then some [(0x80, 0x9F), tail]
  else if 0xE1 ≤ lead && lead ≤ 0xEF then some [tail, tail]
  else if lead == 0xF0 then some [(0x90, 0xBF), tail, tail]
  else if 0xF1 ≤ lead && lead ≤ 0xF3 then some [tail, tail, tail]
  else if lead == 0xF4 then some [(0x80, 0x8F), tail, tail]
  else none

/-- What stands at the front of some bytes. -/
inductive Sequence where
  /-- The first `length` bytes encode a character. -/
  | whole (length : Nat)
  /-- The first `length` bytes are a maximal subpart, and what comes next does not continue it. -/
  | broken (length : Nat)
  /-- The input ends inside a sequence that is well-formed so far. -/
  | cut
  deriving DecidableEq, Repr

/-- Matches bytes against the ranges they must lie in; `read` bytes of the sequence came before. -/
def Sequence.follow : List Range → Bytes → Nat → Sequence
  | [], _, read => .whole read
  | _ :: _, [], _ => .cut
  | (least, greatest) :: ranges, b :: rest, read =>
    if least ≤ b && b ≤ greatest then follow ranges rest (read + 1) else .broken read

/-- The sequence that `lead` begins, when `rest` follows it. -/
def Sequence.read (lead : UInt8) (rest : Bytes) : Sequence :=
  match following lead with
  | some ranges => follow ranges rest 1
  | none => .broken 1

/-- The replacement character U+FFFD. -/
def replacement : Bytes := [0xEF, 0xBF, 0xBD]

/-- Why some bytes are not UTF-8. -/
structure Error where
  /-- The length of the longest well-formed start. -/
  validLength : Nat
  /-- The length of the maximal subpart after it, or none where the input ends inside a sequence. -/
  brokenLength : Option Nat
  deriving DecidableEq, Repr

/-- The wording of an error. -/
def Error.message (e : Error) : String :=
  match e.brokenLength with
  | some n => "invalid utf-8 sequence of " ++ toString n ++ " bytes from index " ++ toString e.validLength
  | none => "incomplete utf-8 byte sequence from index " ++ toString e.validLength

/-- The first error in bytes that stand at `offset`. -/
def check (offset : Nat) : Bytes → Option Error
  | [] => none
  | lead :: rest =>
    match Sequence.read lead rest with
    | .whole n => check (offset + n) (rest.drop (n - 1))
    | .broken n => some ⟨offset, some n⟩
    | .cut => some ⟨offset, none⟩
termination_by bytes => bytes.length
decreasing_by simp only [List.length_drop, List.length_cons]; omega

/-- The first error in `bytes`, or none when they are UTF-8. -/
def error? (bytes : Bytes) : Option Error := check 0 bytes

/-- The same bytes with U+FFFD in place of every maximal subpart of an ill-formed sequence. -/
def repair : Bytes → Bytes
  | [] => []
  | lead :: rest =>
    match Sequence.read lead rest with
    | .whole n => lead :: rest.take (n - 1) ++ repair (rest.drop (n - 1))
    | .broken n => replacement ++ repair (rest.drop (n - 1))
    | .cut => replacement
termination_by bytes => bytes.length
decreasing_by all_goals simp only [List.length_drop, List.length_cons]; omega

end CssLex.Utf8
