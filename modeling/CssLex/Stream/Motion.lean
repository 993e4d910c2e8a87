import CssLex.Region
import CssLex.Stream.Basic

namespace CssLex.Stream

/-- One token forward. At the end of input the cursor stays. -/
def next (s : Stream) : Stream := if s.atEnd then s else s.seek (s.index + 1)

/-- Exactly `n` tokens forward, or to the end of input. -/
def skip (s : Stream) (n : Nat) : Stream := if n = 0 then s else s.seek (min (s.index + n) s.count)

/-- Back to the first token. -/
def reset (s : Stream) : Stream := s.seek 0

/-- Steps while the current kind satisfies `p`, at most `limit` times. -/
def stepWhile (p : Kind → Bool) : Nat → Stream → Stream
  | 0, s => s
  | limit + 1, s => if p s.kind then stepWhile p limit s.next else s

/-- Forward to the first token that is not whitespace. No more steps can be needed than there are tokens. -/
def skipWhitespace (s : Stream) : Stream := stepWhile (· == .whiteSpace) s.count s

/-- Forward to the first token that is neither whitespace nor a comment. -/
def skipTrivia (s : Stream) : Stream := stepWhile Kind.isTrivia s.count s

/-- The index where the raw region that starts at index `start` ends. -/
def regionEnd? (s : Stream) (start : Nat) (mode : Region.Mode) : Option Nat :=
  Region.walk s.records s.textOf mode start start

/-- The number of tokens from the cursor to the end of the region that starts at `start`, zero if that is behind.
Skipping as many puts the cursor on the end of the region, even from inside it. -/
def regionLength? (s : Stream) (start : Nat) (mode : Region.Mode) : Option Nat :=
  (s.regionEnd? start mode).map (· - s.index)

end CssLex.Stream
