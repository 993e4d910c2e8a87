import CssLex.Stream.Lookahead
import CssLex.Stream.Motion

/-!
Indices and offsets are handed over in words of 64 bits, and an index and an offset need not have their sum in one. A
lookahead that goes that far finds nothing. Where a place is needed all the same, the greatest word stands for the sum:
no source has as many tokens.
-/

namespace CssLex

namespace Word

/-- The greatest word. -/
def greatest : UInt64 := .ofNat (UInt64.size - 1)

/-- The sum of two words, unless it is too great for a word. -/
def add? (a b : UInt64) : Option UInt64 := if a.toNat + b.toNat < UInt64.size then some (a + b) else none

/-- The sum of two words, or the greatest word if the sum is too great for a word. -/
def addClamped (a b : UInt64) : UInt64 := (add? a b).getD greatest

theorem add?_eq_some {a b : UInt64} (fits : a.toNat + b.toNat < UInt64.size) :
    ∃ sum, add? a b = some sum ∧ sum.toNat = a.toNat + b.toNat := by
  refine ⟨a + b, if_pos fits, ?_⟩
  rw [UInt64.toNat_add]
  exact Nat.mod_eq_of_lt fits

theorem add?_eq_none {a b : UInt64} (exceeds : UInt64.size ≤ a.toNat + b.toNat) : add? a b = none :=
  if_neg (Nat.not_lt.mpr exceeds)

theorem toNat_addClamped (a b : UInt64) : (addClamped a b).toNat = min (a.toNat + b.toNat) (UInt64.size - 1) := by
  rcases Nat.lt_or_ge (a.toNat + b.toNat) UInt64.size with fits | exceeds
  · obtain ⟨sum, found, value⟩ := add?_eq_some fits
    rw [addClamped, found, Option.getD_some, value]
    omega
  · rw [addClamped, add?_eq_none exceeds, Option.getD_none]
    have last : greatest.toNat = UInt64.size - 1 := rfl
    omega

end Word

namespace Stream

/-- The index of the current token in a word. -/
def indexWord (s : Stream) : UInt64 := .ofNat s.index

/-- The record `k` places after an index. -/
def recordBy? (s : Stream) (index k : UInt64) : Option Record :=
  (Word.add? index k).bind fun place => s.recordAt? place.toNat

/-- The record `k` places after the cursor. -/
def peekBy? (s : Stream) (k : UInt64) : Option Record := s.recordBy? s.indexWord k

/-- The kind `k` places after the cursor. -/
def kindBy (s : Stream) (k : UInt64) : Kind := ((s.peekBy? k).map Record.kind).getD .eof

/-- The kind of the first token from offset `k` on that is neither whitespace nor a comment. -/
def kindPastTriviaBy (s : Stream) (k : UInt64) : Kind :=
  let place := min (Word.addClamped s.indexWord k).toNat s.count
  (((s.records.toList.drop place).find? (!·.kind.isTrivia)).map Record.kind).getD .eof

/-- Whether the token `k` places after the cursor is the delimiter `c`. -/
def isDelimBy (s : Stream) (c : Char) (k : UInt64) : Bool :=
  match s.peekBy? k with
  | some r => r.kind == .delim && s.textOf r == utf8 (String.singleton c)
  | none => false

/-- Exactly `n` tokens forward, or to the end of input. -/
def skipBy (s : Stream) (n : UInt64) : Stream :=
  if n = 0 then s else s.seek (min (Word.addClamped s.indexWord n).toNat s.count)

end Stream
end CssLex
