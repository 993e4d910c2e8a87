import CssLex.Bracket
import CssLex.Error
import CssLex.Scan.Tokens

/-!
A stream is a source with the table of its tokens and a cursor on one of them. All tokens are scanned when the stream
is made. The cursor keeps the current token's kind and span beside its index; past the last token it stands at the
end of input, with an empty span at the end of the source.
-/

namespace CssLex

/-- The table of a text's tokens, with brackets linked. -/
def Table.ofText (t : Text) : Table :=
  ((Table.empty (initialCapacity t.size)).append 0 (Scan.tokens t.toBytes)).link

/-- A scanned source with a cursor. -/
structure Stream where
  source : Text
  table : Table
  /-- The index of the current token; the number of tokens at the end of input. -/
  index : Nat
  /-- The kind of the current token. -/
  kind : Kind
  /-- Where the current token starts. -/
  start : Nat
  /-- Where the current token stops. -/
  stop : Nat
  atEnd : Bool
  deriving DecidableEq, Repr

namespace Stream

/-- All records in order. -/
def records (s : Stream) : Array Record := s.table.records

/-- The number of tokens. -/
def count (s : Stream) : Nat := s.table.size

/-- Puts the cursor on the token at `index`, or at the end of input if there is none. -/
def seek (s : Stream) (index : Nat) : Stream :=
  match s.records[index]? with
  | some r => { s with index := index, kind := r.kind, start := r.start, stop := r.stop, atEnd := false }
  | none =>
    { s with index := s.count, kind := .eof, start := s.source.size, stop := s.source.size, atEnd := true }

/-- The stream of a text, with the cursor on the first token. -/
def ofText (t : Text) : Stream := seek ⟨t, Table.ofText t, 0, .eof, 0, 0, false⟩ 0

/-- The stream of a text that is not too long. -/
def ofText? (t : Text) : Except SourceError Stream :=
  if Text.sizeLimit < t.size then .error (.tooLarge t.size Text.sizeLimit) else .ok (ofText t)

def ofString (s : String) : Stream := ofText (Text.ofString s)

/-- The stream of a string that is not too long. -/
def ofString? (s : String) : Except SourceError Stream := ofText? (Text.ofString s)

instance : Inhabited Stream := ⟨ofString ""⟩

/-- The stream of a value's text. -/
def ofToString {α : Type} [ToString α] (value : α) : Stream := ofString (toString value)

/-- The stream of bytes in which ill-formed sequences are replaced. -/
def ofRepaired? (bytes : Bytes) : Except SourceError Stream := ofText? (Text.ofBytes (Utf8.repair bytes))

/-- The stream of bytes as they are where they are UTF-8, and repaired where they are not. -/
def ofBytes? (bytes : Bytes) : Except SourceError Stream :=
  match Utf8.error? bytes with
  | none => ofText? (Text.ofBytes bytes)
  | some _ => ofRepaired? bytes

/-- The stream of bytes that must be UTF-8. -/
def ofUtf8? (bytes : Bytes) : Except SourceError Stream :=
  match Utf8.error? bytes with
  | none => ofText? (Text.ofBytes bytes)
  | some error => .error (.invalidUtf8 error)

/-- The text of a record. -/
def textOf (s : Stream) (r : Record) : Bytes := s.source.slice r.start r.stop

/-- The text of the current token; empty at the end of input. -/
def text (s : Stream) : Bytes := s.source.slice s.start s.stop

/-- The text from offset `start` up to the current token, refused if `start` lies behind it or inside a character. -/
def textFrom? (s : Stream) (start : Nat) : Option Bytes := s.source.slice? start s.start

@[simp] theorem seek_source (s : Stream) (index : Nat) : (s.seek index).source = s.source := by
  unfold seek
  split <;> rfl

@[simp] theorem seek_table (s : Stream) (index : Nat) : (s.seek index).table = s.table := by
  unfold seek
  split <;> rfl

@[simp] theorem source_ofText (t : Text) : (ofText t).source = t := seek_source _ _

@[simp] theorem table_ofText (t : Text) : (ofText t).table = Table.ofText t := seek_table _ _

end Stream
end CssLex
