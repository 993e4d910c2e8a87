import CssLex.Byte

namespace CssLex

/-- A source text as the bytes of its UTF-8 form. -/
structure Text where
  bytes : Array UInt8
  deriving DecidableEq, Repr, Inhabited

namespace Text

def ofString (s : String) : Text := ⟨s.toByteArray.data⟩

def ofBytes (bytes : Bytes) : Text := ⟨bytes.toArray⟩

def toBytes (t : Text) : Bytes := t.bytes.toList

/-- The number of bytes. -/
def size (t : Text) : Nat := t.bytes.size

/-- The bytes from offset `start` up to offset `stop`, as far as there are any. -/
def slice (t : Text) (start stop : Nat) : Bytes := (t.bytes.extract start stop).toList

/-- The offsets between characters: both ends of the text, and each offset whose byte begins a character. -/
def isBoundary (t : Text) (offset : Nat) : Bool :=
  match t.bytes[offset]? with
  | some b => offset == 0 || !Byte.isContinuation b
  | none => offset == t.size

/-- The text between two offsets, refused unless both lie between characters and are in order. -/
def slice? (t : Text) (start stop : Nat) : Option Bytes :=
  if start ≤ stop && t.isBoundary start && t.isBoundary stop then some (t.slice start stop) else none

theorem toBytes_ofBytes (bytes : Bytes) : (ofBytes bytes).toBytes = bytes := rfl

theorem length_toBytes (t : Text) : t.toBytes.length = t.size := Array.length_toList

/-- A slice said on the list of all bytes. -/
theorem slice_eq (t : Text) (start stop : Nat) :
    t.slice start stop = (t.toBytes.drop start).take (stop - start) := by
  rw [slice, Array.toList_extract, List.extract_eq_take_drop, toBytes]

/-- Slices that meet make one slice. -/
theorem slice_append (t : Text) {start middle stop : Nat} (before : start ≤ middle) (after : middle ≤ stop) :
    t.slice start middle ++ t.slice middle stop = t.slice start stop := by
  have whole : stop - start = (middle - start) + (stop - middle) := by omega
  have second : t.toBytes.drop middle = (t.toBytes.drop start).drop (middle - start) := by
    rw [List.drop_drop, Nat.add_sub_cancel' before]
  rw [slice_eq, slice_eq, slice_eq, whole, List.take_add, second]

/-- A slice of a slice. -/
theorem slice_ofBytes_slice (t : Text) {start stop i j : Nat} (inside : start + j ≤ stop) :
    (ofBytes (t.slice start stop)).slice i j = t.slice (start + i) (start + j) := by
  have width : start + j - (start + i) = j - i := by omega
  have shorter : min (j - i) (stop - start - i) = j - i := by omega
  rw [slice_eq, slice_eq, slice_eq, toBytes_ofBytes, List.drop_take, List.take_take, List.drop_drop, width, shorter]

end Text
end CssLex
