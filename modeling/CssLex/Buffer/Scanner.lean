import CssLex.Buffer.Reading
import CssLex.Token.Basic

/-!
The token at a position of a buffer, found from the byte there and a few reads ahead, by the same grammar that `Scan`
states on the bytes that are left. The reads may fall into the padding. Each is checked here, so that a read beyond
the padding is a `Fault` and not a made-up byte. Positions may fall inside a character.
-/

namespace CssLex.Buffer

/-- A backslash at `pos` before something that is neither a newline nor the end of the source. -/
def escapeAt (b : Buffer) (pos : Nat) : Except Fault Bool := do
  let c ← b.read pos
  if c != Byte.reverseSolidus || b.isEnd (pos + 1) then
    return false
  let d ← b.read (pos + 1)
  return !Byte.isNewline d

/-- A byte of a name or an escape at `pos`. -/
def nameItemAt (b : Buffer) (pos : Nat) : Except Fault Bool := do
  let c ← b.read pos
  if Byte.isName c then return true else b.escapeAt pos

/-- An identifier at `pos`. -/
def identAt (b : Buffer) (pos : Nat) : Except Fault Bool := do
  if b.isEnd pos then
    return false
  let c ← b.read pos
  if c == Byte.hyphen then
    let d ← b.read (pos + 1)
    if Byte.isNameStart d || d == Byte.hyphen then return true else b.escapeAt (pos + 1)
  else if c == Byte.reverseSolidus then b.escapeAt pos
  else return Byte.isNameStart c

/-- A full stop and a digit at `pos`. -/
def fractionAt (b : Buffer) (pos : Nat) : Except Fault Bool := do
  let c ← b.read pos
  let d ← b.read (pos + 1)
  return c == Byte.fullStop && Byte.isDigit d

/-- A number at `pos`. -/
def numberAt (b : Buffer) (pos : Nat) : Except Fault Bool := do
  let c ← b.read pos
  if Byte.isSign c then
    let d ← b.read (pos + 1)
    if Byte.isDigit d then return true else b.fractionAt (pos + 1)
  else if c == Byte.fullStop then b.fractionAt pos
  else return Byte.isDigit c

/-- The hex digits from `pos`, at most `limit` of them. -/
def hexLength (b : Buffer) : Nat → Nat → Except Fault Nat
  | 0, _ => return 0
  | limit + 1, pos => do
    let c ← b.read pos
    if Byte.isHexDigit c then (· + 1) <$> hexLength b limit (pos + 1) else return 0

/-- One optional whitespace character at `pos`, CR LF counting as one. -/
def blankLength (b : Buffer) (pos : Nat) : Except Fault Nat := do
  let c ← b.read pos
  if c == Byte.carriageReturn then
    let d ← b.read (pos + 1)
    return if d == Byte.lineFeed then 2 else 1
  else return if Byte.isWhitespace c then 1 else 0

/-- The escape whose backslash is just before `pos`. -/
def escapeLength (b : Buffer) (pos : Nat) : Except Fault Nat := do
  let digits ← b.hexLength 6 pos
  if digits = 0 then b.charLength pos else return digits + (← b.blankLength (pos + digits))

/-- The name bytes and escapes from `pos`. -/
def nameLength (b : Buffer) (pos : Nat) : Except Fault Nat :=
  if h : pos < b.bytes.size then
    if Byte.isName b.bytes[pos] then (· + 1) <$> nameLength b (pos + 1)
    else do
      if ← b.escapeAt pos then
        let escape ← b.escapeLength (pos + 1)
        (· + (escape + 1)) <$> nameLength b (pos + 1 + escape)
      else return 0
  else .error (.beyondPadding pos)
termination_by b.bytes.size - pos

def digitsLength (b : Buffer) (pos : Nat) : Except Fault Nat := b.runLength Byte.isDigit pos

/-- The exponent at `pos`, if a digit makes it one. -/
def exponentLength (b : Buffer) (pos : Nat) : Except Fault Nat := do
  let mark ← b.read pos
  if !Byte.isExponentMark mark then
    return 0
  let c ← b.read (pos + 1)
  if Byte.isDigit c then
    return 1 + (← b.digitsLength (pos + 1))
  if !Byte.isSign c then
    return 0
  let d ← b.read (pos + 2)
  if Byte.isDigit d then return 2 + (← b.digitsLength (pos + 2)) else return 0

/-- The full stop at `pos` and the digits after it, if there are any. -/
def fractionLength (b : Buffer) (pos : Nat) : Except Fault Nat := do
  if ← b.fractionAt pos then return 1 + (← b.digitsLength (pos + 1)) else return 0

/-- The number at `pos`. -/
def numberLength (b : Buffer) (pos : Nat) : Except Fault Nat := do
  let c ← b.read pos
  let sign := if Byte.isSign c then 1 else 0
  let whole := sign + (← b.digitsLength (pos + sign))
  let mantissa := whole + (← b.fractionLength (pos + whole))
  return mantissa + (← b.exponentLength (pos + mantissa))

/-- The number at `pos`, with a unit or a percent sign after it. -/
def numeric (b : Buffer) (pos : Nat) : Except Fault Token := do
  let number ← b.numberLength pos
  if ← b.identAt (pos + number) then
    return ⟨.dimension, number + (← b.nameLength (pos + number))⟩
  let c ← b.read (pos + number)
  return if c == Byte.percentSign then ⟨.percentage, number + 1⟩ else ⟨.number, number⟩

/-- What a backslash just before `pos` takes along in a string. -/
def continuationLength (b : Buffer) (pos : Nat) : Except Fault Nat := do
  if b.isEnd pos then
    return 0
  let c ← b.read pos
  if Byte.isNewline c then b.blankLength pos else b.escapeLength pos

/-- The rest of a string from `pos`, jumping from one byte that could end it to the next. -/
def quotedRest (b : Buffer) (quote : UInt8) (pos : Nat) : Except Fault Token := do
  let (distance, stop) ← b.stringStop quote pos
  if b.length ≤ pos + distance then return ⟨.string, distance⟩
  else if stop == quote then return ⟨.string, distance + 1⟩
  else if Byte.isNewline stop then return ⟨.badString, distance⟩
  else
    let continuation ← b.continuationLength (pos + distance + 1)
    (·.extend (distance + 1 + continuation)) <$> quotedRest b quote (pos + distance + 1 + continuation)
termination_by b.length - pos

/-- What is left of a bad url from `pos`. -/
def badUrlLength (b : Buffer) (pos : Nat) : Except Fault Nat := do
  if b.length ≤ pos then
    return 0
  let c ← b.read pos
  if c == Byte.rightParenthesis then return 1
  else if ← b.escapeAt pos then
    let escape ← b.escapeLength (pos + 1)
    (· + (escape + 1)) <$> badUrlLength b (pos + 1 + escape)
  else (· + 1) <$> badUrlLength b (pos + 1)
termination_by b.length - pos

/-- The bad url that goes on at `pos`. -/
def badUrl (b : Buffer) (pos : Nat) : Except Fault Token := return ⟨.badUrl, ← b.badUrlLength pos⟩

/-- The end of a url at `pos`, after whitespace in it. -/
def urlEnd (b : Buffer) (pos : Nat) : Except Fault Token := do
  if b.isEnd pos then
    return ⟨.url, 0⟩
  let c ← b.read pos
  if c == Byte.rightParenthesis then return ⟨.url, 1⟩ else b.badUrl pos

/-- The rest of an unquoted url from `pos`. -/
def urlRest (b : Buffer) (pos : Nat) : Except Fault Token := do
  if b.length ≤ pos then
    return ⟨.url, 0⟩
  let c ← b.read pos
  if c == Byte.rightParenthesis then return ⟨.url, 1⟩
  else if Byte.isWhitespace c then
    let blank ← b.whitespaceLength pos
    (·.extend blank) <$> b.urlEnd (pos + blank)
  else if Byte.isQuote c || c == Byte.leftParenthesis || Byte.isNonPrintable c then b.badUrl pos
  else if c == Byte.reverseSolidus then
    if ← b.escapeAt pos then
      let escape ← b.escapeLength (pos + 1)
      (·.extend (escape + 1)) <$> urlRest b (pos + 1 + escape)
    else b.badUrl pos
  else (·.extend 1) <$> urlRest b (pos + 1)
termination_by b.length - pos

/-- The name at `pos`, with a parenthesis or the whole of a url after it. -/
def identLike (b : Buffer) (pos : Nat) : Except Fault Token := do
  let name ← b.nameLength pos
  let c ← b.read (pos + name)
  if c != Byte.leftParenthesis then
    return ⟨.ident, name⟩
  let text ← b.span pos (pos + name)
  if !text.equalIgnoringCase (utf8 "url") then
    return ⟨.function, name + 1⟩
  let blank ← b.whitespaceLength (pos + name + 1)
  let d ← b.read (pos + name + 1 + blank)
  if Byte.isQuote d then
    return ⟨.function, name + 1⟩
  (·.extend (name + 1 + blank)) <$> b.urlRest (pos + name + 1 + blank)

/-- One character that begins nothing else. -/
def delim (b : Buffer) (pos : Nat) : Except Fault Token := return ⟨.delim, ← b.charLength pos⟩

/-- The token at a hyphen. -/
def hyphenated (b : Buffer) (pos : Nat) : Except Fault Token := do
  if ← b.numberAt pos then
    return ← b.numeric pos
  let c ← b.read (pos + 1)
  let d ← b.read (pos + 2)
  if c == Byte.hyphen && d == Byte.greaterThan then return ⟨.commentClose, 3⟩
  else if ← b.identAt pos then b.identLike pos
  else b.delim pos

/-- The token at a less-than sign. -/
def lessThan (b : Buffer) (pos : Nat) : Except Fault Token := do
  let c ← b.read (pos + 1)
  let d ← b.read (pos + 2)
  let e ← b.read (pos + 3)
  if c == Byte.exclamationMark && d == Byte.hyphen && e == Byte.hyphen then return ⟨.commentOpen, 4⟩
  else b.delim pos

/-- The token at `pos`; from the end of the source on, the end of input. -/
def next (b : Buffer) (pos : Nat) : Except Fault Token := do
  if b.isEnd pos then
    return ⟨.eof, 0⟩
  let c ← b.read pos
  if Byte.isWhitespace c then return ⟨.whiteSpace, ← b.whitespaceLength pos⟩
  else if Byte.isQuote c then (·.extend 1) <$> b.quotedRest c (pos + 1)
  else if let some kind := Kind.ofPunctuation? c then return ⟨kind, 1⟩
  else if c == Byte.numberSign then
    if ← b.nameItemAt (pos + 1) then return ⟨.hash, (← b.nameLength (pos + 1)) + 1⟩ else b.delim pos
  else if c == Byte.atSign then
    if ← b.identAt (pos + 1) then return ⟨.atKeyword, (← b.nameLength (pos + 1)) + 1⟩ else b.delim pos
  else if c == Byte.plusSign || c == Byte.fullStop then
    if ← b.numberAt pos then b.numeric pos else b.delim pos
  else if c == Byte.hyphen then b.hyphenated pos
  else if c == Byte.solidus then
    if (← b.read (pos + 1)) == Byte.asterisk then return ⟨.comment, (← b.commentLength (pos + 2)) + 2⟩
    else b.delim pos
  else if c == Byte.lessThan then b.lessThan pos
  else if c == Byte.reverseSolidus then
    if ← b.escapeAt pos then b.identLike pos else b.delim pos
  else if Byte.isDigit c then b.numeric pos
  else if Byte.isNameStart c then b.identLike pos
  else b.delim pos

/-- The next `count` tokens from `pos`, each from where the one before it stops. -/
def nextTokens (b : Buffer) : Nat → Nat → Except Fault (List Token)
  | 0, _ => return []
  | count + 1, pos => do
    let token ← b.next pos
    return token :: (← nextTokens b count (pos + token.length))

/-- All tokens from `pos` to the end of the source. -/
def tokens (b : Buffer) (pos : Nat) : Except Fault (List Token) := do
  if b.length ≤ pos then
    return []
  let token ← b.next pos
  if 0 < token.length then
    return token :: (← tokens b (pos + token.length))
  else throw (.stalled pos)
termination_by b.length - pos

end CssLex.Buffer
