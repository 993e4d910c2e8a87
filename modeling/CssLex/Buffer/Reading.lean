import CssLex.Buffer.Basic

namespace CssLex.Buffer

/-- The length of the run of a class from `pos`, which goes on into the padding if zero is in the class. A class without
zero needs no test for the end of the source, because its run stops in the padding. -/
def runLength (b : Buffer) (p : UInt8 → Bool) (pos : Nat) : Except Fault Nat :=
  if h : pos < b.bytes.size then
    if p b.bytes[pos] then (· + 1) <$> runLength b p (pos + 1) else .ok 0
  else .error (.beyondPadding pos)
termination_by b.bytes.size - pos

/-- The length of the run of a class from `pos` inside the source. -/
def sourceRunLength (b : Buffer) (p : UInt8 → Bool) (pos : Nat) : Except Fault Nat := do
  if b.length ≤ pos then
    return 0
  let c ← b.read pos
  if p c then (· + 1) <$> sourceRunLength b p (pos + 1) else return 0
termination_by b.length - pos

/-- The length of the character at `pos`, cut off at the end of the source. -/
def charLength (b : Buffer) (pos : Nat) : Except Fault Nat := do
  if b.isEnd pos then
    return 0
  let c ← b.read pos
  return min (Byte.width c) (b.length - pos)

/-- The length of the whitespace at `pos`. -/
def whitespaceLength (b : Buffer) (pos : Nat) : Except Fault Nat := b.runLength Byte.isWhitespace pos

/-- How far the first byte of a class is from `pos`, if there is one before `stop`. -/
def distance? (b : Buffer) (p : UInt8 → Bool) (stop pos : Nat) : Except Fault (Option Nat) := do
  if stop ≤ pos then
    return none
  let c ← b.read pos
  if p c then return some 0 else Option.map (· + 1) <$> distance? b p stop (pos + 1)
termination_by stop - pos

/-- How far the first end mark of a comment is from `pos`, if all of it is in the source. -/
def commentEnd? (b : Buffer) (pos : Nat) : Except Fault (Option Nat) := do
  if b.length ≤ pos + 1 then
    return none
  let c ← b.read pos
  let d ← b.read (pos + 1)
  if c == Byte.asterisk && d == Byte.solidus then return some 0
  else Option.map (· + 1) <$> commentEnd? b (pos + 1)
termination_by b.length - pos

/-- The length of the rest of a comment: through its end mark, or all of the source. -/
def commentLength (b : Buffer) (pos : Nat) : Except Fault Nat := do
  if b.length < pos then
    throw (.badSpan pos b.length)
  match ← b.commentEnd? pos with
  | some distance => return distance + 2
  | none => return b.length - pos

/-- A distance from `pos` and the byte there; without one, the distance to the end of the source, and zero. -/
def stopAt (b : Buffer) (pos : Nat) : Option Nat → Except Fault (Nat × UInt8)
  | some distance => return (distance, ← b.read (pos + distance))
  | none => return (b.length - pos, 0)

/-- The distance to the next byte that ends or interrupts a string, and that byte; at the end of the source, zero.
Quotes, backslashes and LF are looked for in one search, CR and FF in another, and the nearer of both counts. -/
def stringStopMerged (b : Buffer) (quote : UInt8) (pos : Nat) : Except Fault (Nat × UInt8) := do
  if b.length < pos then
    throw (.badSpan pos b.length)
  let first ← b.distance? (fun c => c == quote || c == Byte.reverseSolidus || c == Byte.lineFeed) b.length pos
  let second ← b.distance? (fun c => c == Byte.carriageReturn || c == Byte.formFeed) b.length pos
  b.stopAt pos (Option.merge min first second)

/-- The same with the second search only in front of what the first one found. -/
def stringStop (b : Buffer) (quote : UInt8) (pos : Nat) : Except Fault (Nat × UInt8) := do
  if b.length < pos then
    throw (.badSpan pos b.length)
  let far ← b.distance? (fun c => c == quote || c == Byte.reverseSolidus || c == Byte.lineFeed) b.length pos
  let stop := pos + far.getD (b.length - pos)
  let near ← b.distance? (fun c => c == Byte.carriageReturn || c == Byte.formFeed) stop pos
  b.stopAt pos (near.or far)

end CssLex.Buffer
