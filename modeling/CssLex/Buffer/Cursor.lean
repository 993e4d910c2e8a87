import CssLex.Buffer.Reading

namespace CssLex

/-- A position in a buffer. Plain moves are not clamped: a cursor may stand anywhere, and what it cannot read there is a
fault. -/
structure Cursor where
  buffer : Buffer
  pos : Nat
  deriving DecidableEq, Repr

namespace Cursor

/-- The cursor at the first byte. -/
def ofBuffer (b : Buffer) : Cursor := ⟨b, 0⟩

/-- At or past the end of the source. -/
def isEnd (c : Cursor) : Bool := c.buffer.isEnd c.pos

/-- Whether the byte `n` ahead is at or past the end of the source. -/
def isEndAhead (c : Cursor) (n : Nat) : Bool := c.buffer.isEnd (c.pos + n)

/-- The byte `n` ahead. -/
def peek (c : Cursor) (n : Nat) : Except Fault UInt8 := c.buffer.read (c.pos + n)

/-- The byte at the cursor. -/
def current (c : Cursor) : Except Fault UInt8 := c.peek 0

/-- The bytes from `start` up to the cursor. -/
def spanFrom (c : Cursor) (start : Nat) : Except Fault Bytes := c.buffer.span start c.pos

/-- The cursor `n` bytes further on. -/
def advance (c : Cursor) (n : Nat) : Cursor := { c with pos := c.pos + n }

/-- Passes a run of a class that does not hold zero. -/
def skipWhile (c : Cursor) (p : UInt8 → Bool) : Except Fault Cursor := c.advance <$> c.buffer.runLength p c.pos

/-- Passes a run of a class inside the source. -/
def skipWhileInSource (c : Cursor) (p : UInt8 → Bool) : Except Fault Cursor :=
  c.advance <$> c.buffer.sourceRunLength p c.pos

/-- Passes whitespace. -/
def skipWhitespace (c : Cursor) : Except Fault Cursor := c.skipWhile Byte.isWhitespace

/-- Passes one character; at the end of the source the cursor stays. -/
def skipChar (c : Cursor) : Except Fault Cursor := c.advance <$> c.buffer.charLength c.pos

/-- Passes the rest of a comment. -/
def skipComment (c : Cursor) : Except Fault Cursor := c.advance <$> c.buffer.commentLength c.pos

/-- Goes to the next byte that ends or interrupts a string, and answers with it. -/
def toStringStop (c : Cursor) (quote : UInt8) : Except Fault (Cursor × UInt8) := do
  let (distance, stop) ← c.buffer.stringStop quote c.pos
  return (c.advance distance, stop)

end Cursor
end CssLex
