import CssLex.Scan.Numeric
import CssLex.Scan.Quoted
import CssLex.Scan.Url

/-!
The token at the front of some bytes, and all tokens of a text. No byte is left out: whitespace and comments are
tokens, and what begins nothing else is a delimiter. Scanning never fails; malformed input shows in the kinds.
-/

namespace CssLex.Scan

/-- The rest of a comment after its opening: through the first end mark, or all of the input. -/
def commentRest : Bytes → Nat
  | [] => 0
  | b :: rest =>
    if b == Byte.asterisk && begins (· == Byte.solidus) rest then 2 else commentRest rest + 1

/-- The token at the front; end of input is the token of length zero. -/
def next : Bytes → Token
  | [] => ⟨.eof, 0⟩
  | b :: rest =>
    if Byte.isWhitespace b then ⟨.whiteSpace, whitespaceLength rest + 1⟩
    else if Byte.isQuote b then (quotedRest b rest).extend 1
    else if b == Byte.numberSign && beginsNameItem rest then ⟨.hash, nameLength rest + 1⟩
    else if b == Byte.atSign && beginsIdent rest then ⟨.atKeyword, nameLength rest + 1⟩
    else if b == Byte.solidus && begins (· == Byte.asterisk) rest then ⟨.comment, commentRest (rest.drop 1) + 2⟩
    else if (utf8 "<!--").isPrefixOf (b :: rest) then ⟨.commentOpen, 4⟩
    else if beginsNumber (b :: rest) then numeric (b :: rest)
    else if (utf8 "-->").isPrefixOf (b :: rest) then ⟨.commentClose, 3⟩
    else if beginsIdent (b :: rest) then identLike (b :: rest)
    else match Kind.ofPunctuation? b with
      | some kind => ⟨kind, 1⟩
      | none => ⟨.delim, charLength (b :: rest)⟩

/-- A character in front has at least one byte. -/
theorem charLength_pos (b : UInt8) (rest : Bytes) : 0 < charLength (b :: rest) := by
  have := Byte.width_pos b
  rw [charLength, List.length_take, List.length_cons]
  omega

/-- Scanning always moves on. -/
theorem next_length_pos (b : UInt8) (rest : Bytes) : 0 < (next (b :: rest)).length := by
  rw [next]
  split
  · exact Nat.succ_pos _
  split
  · exact Nat.succ_pos _
  split
  · exact Nat.succ_pos _
  split
  · exact Nat.succ_pos _
  split
  · exact Nat.succ_pos _
  split
  · exact Nat.succ_pos _
  split
  · exact numeric_length_pos ‹_›
  split
  · exact Nat.succ_pos _
  split
  · exact identLike_length_pos ‹_›
  split
  · exact Nat.succ_pos _
  · exact charLength_pos b rest

theorem commentRest_le (bytes : Bytes) : commentRest bytes ≤ bytes.length := by
  fun_induction commentRest bytes with
  | case1 => exact Nat.le_refl 0
  | case2 b rest close =>
    have : rest ≠ [] := by
      rintro rfl
      simp [begins] at close
    have := List.length_pos_iff.mpr this
    rw [List.length_cons]
    omega
  | case3 b rest _ ih => exact Nat.succ_le_succ ih

/-- No token reaches past the end. -/
theorem next_length_le (bytes : Bytes) : (next bytes).length ≤ bytes.length := by
  cases bytes with
  | nil => exact Nat.le_refl 0
  | cons b rest =>
    rw [next]
    split
    · exact Nat.succ_le_succ (runLength_le _ rest)
    split
    · exact Nat.succ_le_succ (quotedRest_length_le b rest)
    split
    · exact Nat.succ_le_succ (nameLength_le rest)
    split
    · exact Nat.succ_le_succ (nameLength_le rest)
    split
    · rename_i opening
      have : rest ≠ [] := by
        rintro rfl
        simp [begins] at opening
      have := List.length_pos_iff.mpr this
      have comment := commentRest_le (rest.drop 1)
      rw [List.length_drop] at comment
      show commentRest (rest.drop 1) + 2 ≤ rest.length + 1
      omega
    split
    · rename_i mark
      exact (List.isPrefixOf_iff_prefix.mp mark).length_le
    split
    · exact numeric_length_le (b :: rest)
    split
    · rename_i mark
      exact (List.isPrefixOf_iff_prefix.mp mark).length_le
    split
    · exact identLike_length_le (b :: rest)
    split
    · exact Nat.succ_le_succ (Nat.zero_le _)
    · exact charLength_le (b :: rest)

/-- The tokens of a text, in order and without the end of input. -/
def tokens : Bytes → List Token
  | [] => []
  | b :: rest =>
    let token := next (b :: rest)
    token :: tokens ((b :: rest).drop token.length)
termination_by bytes => bytes.length
decreasing_by
  have := next_length_pos b rest
  simp only [List.length_drop, List.length_cons]
  omega

end CssLex.Scan
