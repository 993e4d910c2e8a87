import CssLex.Text

/-!
A buffer holds a source with zero bytes after it, so that a scanner may look a few bytes ahead without asking how
long the source is. A read beyond the padding is a fault, and so is a span that does not lie in the source. Every
function on buffers says so in its type; none of them hides a bad index.
-/

namespace CssLex

/-- A position that a buffer does not have. -/
inductive Fault where
  /-- A read at an index beyond the padding. -/
  | beyondPadding (index : Nat)
  /-- A span that ends before it starts or outside its text. -/
  | badSpan (start stop : Nat)
  /-- A token of no length in front of the end of input. -/
  | stalled (position : Nat)
  deriving DecidableEq, Repr

/-- A source and the zero bytes after it. -/
structure Buffer where
  bytes : Array UInt8
  /-- How many of the bytes belong to the source. -/
  length : Nat
  deriving DecidableEq, Repr

namespace Buffer

/-- Buffers are as long as a multiple of this. -/
def lineSize : Nat := 64

/-- The zero bytes that are there at the least after the first one. -/
def lookahead : Nat := 4

/-- The size of the buffer for a source of `length` bytes. -/
def paddedSize (length : Nat) : Nat := (length + 1 + lookahead + (lineSize - 1)) / lineSize * lineSize

/-- The buffer that holds `t`. -/
def ofText (t : Text) : Buffer :=
  ⟨t.bytes ++ Array.replicate (paddedSize t.size - t.size) 0, t.size⟩

/-- The source alone. -/
def source (b : Buffer) : Bytes := (b.bytes.extract 0 b.length).toList

/-- The bytes after the source. -/
def padding (b : Buffer) : Bytes := (b.bytes.extract b.length b.bytes.size).toList

/-- The byte at an index, be it in the source or in the padding. -/
def read (b : Buffer) (index : Nat) : Except Fault UInt8 :=
  if h : index < b.bytes.size then .ok b.bytes[index] else .error (.beyondPadding index)

/-- The bytes between two positions. -/
def span (b : Buffer) (start stop : Nat) : Except Fault Bytes :=
  if start ≤ stop && stop ≤ b.bytes.size then .ok (b.bytes.extract start stop).toList
  else .error (.badSpan start stop)

/-- Positions at and after the end of the source. -/
def isEnd (b : Buffer) (pos : Nat) : Bool := b.length ≤ pos

end Buffer
end CssLex
