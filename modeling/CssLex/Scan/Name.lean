import CssLex.Scan.Lookahead

namespace CssLex.Scan

/-- The length of the longest run of a class. -/
def runLength (p : UInt8 → Bool) (bytes : Bytes) : Nat := (bytes.takeWhile p).length

/-- The length of the whitespace ahead. -/
def whitespaceLength (bytes : Bytes) : Nat := runLength Byte.isWhitespace bytes

/-- The length of one character, which the end of input may cut short. -/
def charLength : Bytes → Nat
  | [] => 0
  | b :: rest => ((b :: rest).take (Byte.width b)).length

/-- The length of at most one whitespace character; CR before LF counts as one with it. -/
def blankLength : Bytes → Nat
  | [] => 0
  | b :: rest =>
    if b == Byte.carriageReturn && begins (· == Byte.lineFeed) rest then 2
    else if Byte.isWhitespace b then 1
    else 0

/-- The length of an escape after its backslash: up to six hex digits and one optional whitespace character, or any
other character. -/
def escapeLength (bytes : Bytes) : Nat :=
  let digits := runLength Byte.isHexDigit (bytes.take 6)
  if digits = 0 then charLength bytes else digits + blankLength (bytes.drop digits)

/-- The length of the bytes of names and escapes ahead. -/
def nameLength : Bytes → Nat
  | [] => 0
  | b :: rest =>
    if Byte.isName b then nameLength rest + 1
    else if beginsEscape (b :: rest) then
      nameLength (rest.drop (escapeLength rest)) + (escapeLength rest + 1)
    else 0
termination_by bytes => bytes.length
decreasing_by all_goals simp only [List.length_drop, List.length_cons]; omega

theorem runLength_le (p : UInt8 → Bool) (bytes : Bytes) : runLength p bytes ≤ bytes.length :=
  (List.takeWhile_sublist p).length_le

theorem whitespaceLength_le (bytes : Bytes) : whitespaceLength bytes ≤ bytes.length := runLength_le _ bytes

theorem whitespaceLength_cons {b : UInt8} (blank : Byte.isWhitespace b = true) (rest : Bytes) :
    whitespaceLength (b :: rest) = whitespaceLength rest + 1 := by
  simp [whitespaceLength, runLength, blank]

theorem charLength_le (bytes : Bytes) : charLength bytes ≤ bytes.length := by
  cases bytes with
  | nil => exact Nat.le_refl 0
  | cons b rest =>
    rw [charLength, List.length_take]
    exact Nat.min_le_right _ _

theorem blankLength_le (bytes : Bytes) : blankLength bytes ≤ bytes.length := by
  match bytes with
  | [] => exact Nat.le_refl 0
  | [b] =>
    rw [blankLength]
    simp only [begins, Bool.and_false, Bool.false_eq_true, if_false]
    split <;> simp
  | b :: c :: rest =>
    rw [blankLength]
    split
    · simp
    · split <;> simp

theorem escapeLength_le (bytes : Bytes) : escapeLength bytes ≤ bytes.length := by
  have hex := runLength_le Byte.isHexDigit (bytes.take 6)
  have blank := blankLength_le (bytes.drop (runLength Byte.isHexDigit (bytes.take 6)))
  rw [List.length_take] at hex
  rw [List.length_drop] at blank
  unfold escapeLength
  dsimp only
  split
  · exact charLength_le bytes
  · omega

theorem nameLength_le (bytes : Bytes) : nameLength bytes ≤ bytes.length := by
  fun_induction nameLength bytes with
  | case1 => exact Nat.le_refl 0
  | case2 b rest _ ih => exact Nat.succ_le_succ ih
  | case3 b rest _ _ ih =>
    have := escapeLength_le rest
    rw [List.length_drop] at ih
    rw [List.length_cons]
    omega
  | case4 b rest => exact Nat.zero_le _

/-- A name has at least one byte wherever a name item begins. -/
theorem nameLength_pos {bytes : Bytes} (h : beginsNameItem bytes = true) : 0 < nameLength bytes := by
  cases bytes with
  | nil => simp [beginsNameItem, begins, beginsEscape] at h
  | cons b rest =>
    rw [nameLength]
    split
    · omega
    · rename_i notName
      have escape : beginsEscape (b :: rest) = true := by
        simpa [beginsNameItem, begins, notName] using h
      rw [if_pos escape]
      omega

/-- Every identifier begins with a name item. -/
theorem beginsNameItem_of_beginsIdent {bytes : Bytes} (h : beginsIdent bytes = true) :
    beginsNameItem bytes = true := by
  cases bytes with
  | nil => simp [beginsIdent] at h
  | cons b rest =>
    simp only [beginsIdent] at h
    split at h
    · simp_all [beginsNameItem, begins, Byte.isName]
    · simp only [Bool.or_eq_true] at h
      rcases h with start | escape
      · simp [beginsNameItem, begins, Byte.isName, start]
      · simp [beginsNameItem, escape]

end CssLex.Scan
