import CssLex.Scan.Name
import CssLex.Token.Basic

namespace CssLex.Scan

/-- What is left of a bad url: up to and including the first closing parenthesis that is not escaped. -/
def badUrlLength : Bytes → Nat
  | [] => 0
  | b :: rest =>
    if b == Byte.rightParenthesis then 1
    else if beginsEscape (b :: rest) then
      badUrlLength (rest.drop (escapeLength rest)) + (escapeLength rest + 1)
    else badUrlLength rest + 1
termination_by bytes => bytes.length
decreasing_by all_goals simp only [List.length_drop, List.length_cons]; omega

/-- The end of a url after whitespace: the closing parenthesis, the end of input, or else a bad url. -/
def urlEnd : Bytes → Token
  | [] => ⟨.url, 0⟩
  | b :: rest => if b == Byte.rightParenthesis then ⟨.url, 1⟩ else ⟨.badUrl, badUrlLength (b :: rest)⟩

/-- Bytes that an unquoted url may not hold. -/
def isUrlFault (b : UInt8) : Bool := Byte.isQuote b || b == Byte.leftParenthesis || Byte.isNonPrintable b

/-- The rest of an unquoted url after its leading whitespace. Whitespace may stand at its end only, and no quote,
parenthesis or control byte in it. -/
def urlRest : Bytes → Token
  | [] => ⟨.url, 0⟩
  | b :: rest =>
    if b == Byte.rightParenthesis then ⟨.url, 1⟩
    else if Byte.isWhitespace b then
      (urlEnd (rest.drop (whitespaceLength rest))).extend (whitespaceLength rest + 1)
    else if beginsEscape (b :: rest) then
      (urlRest (rest.drop (escapeLength rest))).extend (escapeLength rest + 1)
    else if isUrlFault b || b == Byte.reverseSolidus then ⟨.badUrl, badUrlLength (b :: rest)⟩
    else (urlRest rest).extend 1
termination_by bytes => bytes.length
decreasing_by all_goals simp only [List.length_drop, List.length_cons]; omega

/-- The name that makes an unquoted url of its parentheses, in lower case. -/
def urlName : Bytes := utf8 "url"

/-- What the name `name` is together with the bytes after it: before a parenthesis a function, unless it is `url` and no
quote follows. -/
def nameWith (name : Bytes) : Bytes → Token
  | [] => ⟨.ident, 0⟩
  | b :: rest =>
    let blank := whitespaceLength rest
    if b != Byte.leftParenthesis then ⟨.ident, 0⟩
    else if !name.equalIgnoringCase urlName || begins Byte.isQuote (rest.drop blank) then ⟨.function, 1⟩
    else (urlRest (rest.drop blank)).extend (blank + 1)

/-- The token at the start of a name. -/
def identLike (bytes : Bytes) : Token :=
  let name := nameLength bytes
  (nameWith (bytes.take name) (bytes.drop name)).extend name

theorem badUrlLength_le (bytes : Bytes) : badUrlLength bytes ≤ bytes.length := by
  fun_induction badUrlLength bytes with
  | case1 => exact Nat.le_refl 0
  | case2 => exact Nat.succ_le_succ (Nat.zero_le _)
  | case3 b rest _ _ ih =>
    have := escapeLength_le rest
    rw [List.length_drop] at ih
    rw [List.length_cons]
    omega
  | case4 b rest _ _ ih => exact Nat.succ_le_succ ih

theorem urlEnd_length_le (bytes : Bytes) : (urlEnd bytes).length ≤ bytes.length := by
  cases bytes with
  | nil => exact Nat.le_refl 0
  | cons b rest =>
    rw [urlEnd]
    split
    · exact Nat.succ_le_succ (Nat.zero_le _)
    · exact badUrlLength_le (b :: rest)

theorem urlRest_length_le (bytes : Bytes) : (urlRest bytes).length ≤ bytes.length := by
  fun_induction urlRest bytes with
  | case1 => exact Nat.le_refl 0
  | case2 => exact Nat.succ_le_succ (Nat.zero_le _)
  | case3 b rest =>
    have blank := whitespaceLength_le rest
    have close := urlEnd_length_le (rest.drop (whitespaceLength rest))
    rw [List.length_drop] at close
    rw [Token.extend_length, List.length_cons]
    omega
  | case4 b rest _ _ _ ih =>
    have := escapeLength_le rest
    rw [List.length_drop] at ih
    rw [Token.extend_length, List.length_cons]
    omega
  | case5 b rest => exact badUrlLength_le (b :: rest)
  | case6 b rest _ _ _ _ ih => exact Nat.succ_le_succ ih

theorem nameWith_length_le (name bytes : Bytes) : (nameWith name bytes).length ≤ bytes.length := by
  cases bytes with
  | nil => exact Nat.le_refl 0
  | cons b rest =>
    have blank := whitespaceLength_le rest
    have url := urlRest_length_le (rest.drop (whitespaceLength rest))
    rw [List.length_drop] at url
    rw [nameWith]
    split
    · exact Nat.zero_le _
    · split
      · exact Nat.succ_le_succ (Nat.zero_le _)
      · rw [Token.extend_length, List.length_cons]
        omega

theorem identLike_length_le (bytes : Bytes) : (identLike bytes).length ≤ bytes.length := by
  have name := nameLength_le bytes
  have rest := nameWith_length_le (bytes.take (nameLength bytes)) (bytes.drop (nameLength bytes))
  rw [List.length_drop] at rest
  unfold identLike
  dsimp only
  rw [Token.extend_length]
  omega

theorem identLike_length_pos {bytes : Bytes} (h : beginsIdent bytes = true) : 0 < (identLike bytes).length := by
  have := nameLength_pos (beginsNameItem_of_beginsIdent h)
  simp only [identLike, Token.extend_length]
  omega

end CssLex.Scan
