import CssLex.Number.Literal
import CssLex.Stream.Basic
import CssLex.Value.Component

/-!
The components from the cursor on, kept as two arrays side by side: the texts, and whether whitespace or a comment
stands before each. A number is split from its unit or percent sign, and a number sign from the name after it, so that
either part can be recognised by itself. All texts are cut out of the source. A cut that lies outside of a text or
inside a character is refused.
-/

namespace CssLex

/-- Where the text of a token is split; zero at neither end makes one component of it. -/
def Stream.splitAt (kind : Kind) (text : Bytes) : Nat :=
  match kind with
  | .dimension => Literal.length text
  | .percentage => text.length - 1
  | .hash => 1
  | _ => text.length

/-- Texts, and beside each of them whether whitespace or a comment stands before it. -/
structure ValueTexts where
  values : Array Bytes
  spaced : Array Bool
  deriving DecidableEq, Repr

namespace ValueTexts

def empty : ValueTexts := ⟨#[], #[]⟩

def push (texts : ValueTexts) (value : Bytes) (spaced : Bool) : ValueTexts :=
  ⟨texts.values.push value, texts.spaced.push spaced⟩

/-- A text in two parts, refused unless the cut lies between two characters of it. -/
def cut? (text : Bytes) (offset : Nat) : Option (Bytes × Bytes) :=
  if (Text.ofBytes text).isBoundary offset then some (text.take offset, text.drop offset) else none

/-- The two parts of a token's text. A percentage has a last byte to be split off. -/
def parts? (kind : Kind) (text : Bytes) : Option (Bytes × Bytes) :=
  if kind == .percentage && text.isEmpty then none else cut? text (Stream.splitAt kind text)

/-- Adds the parts of a token and tells whether the token is whitespace or a comment. No text is added for those. -/
def add? (source : Text) (texts : ValueTexts) (spaced : Bool) (r : Record) : Option (ValueTexts × Bool) := do
  let text ← source.slice? r.start r.stop
  if r.kind.isTrivia then return (texts, true)
  let (head, tail) ← parts? r.kind text
  let texts := texts.push head spaced
  return (if tail.isEmpty then texts else texts.push tail false, false)

/-- Adds tokens one after the other. -/
def addAll? (source : Text) (texts : ValueTexts) (spaced : Bool) : List Record → Option ValueTexts
  | [] => some texts
  | r :: records => do
    let (texts, spaced) ← add? source texts spaced r
    addAll? source texts spaced records

/-- The texts from the cursor to the end. The cursor does not move, and what is before it does not count. -/
def ofStream? (s : Stream) : Option ValueTexts :=
  addAll? s.source empty false (s.records.toList.drop s.index)

/-- The texts as components without nodes. -/
def components (texts : ValueTexts) : List Component :=
  List.zipWith Component.ofText texts.values.toList texts.spaced.toList

end ValueTexts
end CssLex
