import CssLex.Scan.Name
import CssLex.Token.Basic

namespace CssLex.Scan

/-- What a backslash in a string takes along: nothing at the end of input, a newline as a whole, or an escape. -/
def continuationLength (bytes : Bytes) : Nat :=
  if begins Byte.isNewline bytes then blankLength bytes else escapeLength bytes

/-- The rest of a string after its opening quote. A newline that is not escaped cuts it short and is left for the next
token. -/
def quotedRest (quote : UInt8) : Bytes → Token
  | [] => ⟨.string, 0⟩
  | b :: rest =>
    if b == quote then ⟨.string, 1⟩
    else if Byte.isNewline b then ⟨.badString, 0⟩
    else if b == Byte.reverseSolidus then
      (quotedRest quote (rest.drop (continuationLength rest))).extend (continuationLength rest + 1)
    else (quotedRest quote rest).extend 1
termination_by bytes => bytes.length
decreasing_by all_goals simp only [List.length_drop, List.length_cons]; omega

theorem continuationLength_le (bytes : Bytes) : continuationLength bytes ≤ bytes.length := by
  unfold continuationLength
  split
  · exact blankLength_le bytes
  · exact escapeLength_le bytes

theorem quotedRest_length_le (quote : UInt8) (bytes : Bytes) :
    (quotedRest quote bytes).length ≤ bytes.length := by
  fun_induction quotedRest quote bytes with
  | case1 => exact Nat.le_refl 0
  | case2 => exact Nat.succ_le_succ (Nat.zero_le _)
  | case3 => exact Nat.zero_le _
  | case4 b rest _ _ _ ih =>
    have := continuationLength_le rest
    rw [List.length_drop] at ih
    rw [Token.extend_length, List.length_cons]
    omega
  | case5 b rest _ _ _ ih => exact Nat.succ_le_succ ih

end CssLex.Scan
