import CssLex.Token.Basic

namespace CssLex

/-- A token's kind, its span in the source and the index of the record that it is balanced with. -/
structure Record where
  kind : Kind
  start : Nat
  stop : Nat
  balance : Nat
  deriving DecidableEq, Repr, Inhabited

namespace Record

def length (r : Record) : Nat := r.stop - r.start

def isEmpty (r : Record) : Bool := r.start == r.stop

end Record

/-- Records in order, and how many of them there is room for. The room is estimated from the size of the source and
doubled by each record that finds the table full. -/
structure Table where
  records : Array Record
  capacity : Nat
  deriving DecidableEq, Repr

namespace Table

/-- The room that there is for every source, however short. -/
def leastCapacity : Nat := 16

/-- The average length of a token that the room for a source is estimated with. -/
def bytesPerToken : Nat := 4

/-- The capacity that the table of a source of `size` bytes begins with. -/
def initialCapacity (size : Nat) : Nat := size / bytesPerToken + leastCapacity

/-- An empty table. It has room for one record at least, as no doubling makes room where there is none. -/
def empty (capacity : Nat) : Table := ⟨#[], max capacity 1⟩

/-- The number of records. -/
def size (t : Table) : Nat := t.records.size

/-- Adds a record that is balanced with itself. -/
def push (t : Table) (kind : Kind) (start stop : Nat) : Table where
  records := t.records.push ⟨kind, start, stop, t.size⟩
  capacity := if t.size = t.capacity then 2 * t.capacity else t.capacity

/-- Adds tokens that follow each other, the first of which starts at `offset`. -/
def append (t : Table) (offset : Nat) : List Token → Table
  | [] => t
  | token :: tokens =>
    append (t.push token.kind offset (offset + token.length)) (offset + token.length) tokens

/-- The kinds of all records. -/
def kinds (t : Table) : List Kind := t.records.toList.map Record.kind

@[simp] theorem size_push (t : Table) (kind : Kind) (start stop : Nat) :
    (t.push kind start stop).size = t.size + 1 := Array.size_push _

@[simp] theorem kinds_push (t : Table) (kind : Kind) (start stop : Nat) :
    (t.push kind start stop).kinds = t.kinds ++ [kind] := by
  simp [kinds, push]

end Table
end CssLex
