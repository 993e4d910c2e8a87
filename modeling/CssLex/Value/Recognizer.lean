import CssLex.Number.Literal
import CssLex.Value.Input
import CssLex.Value.Unit

/-!
A recognizer decides whether a value begins with a component of its type, and claims the components that make it up.
It sees no more than the next two components. What it claims is taken from the input; if it claims nothing, the input
stays as it is.
-/

namespace CssLex

/-- A way to recognise a type of value. -/
inductive Recognizer where
  /-- Any numeric literal. -/
  | number
  /-- A number from 0 to 1. -/
  | numberZeroOne
  /-- A number that is at least 1. -/
  | numberOneOrGreater
  /-- A number without a point. -/
  | integer
  /-- An integer without a minus sign. -/
  | positiveInteger
  /-- A number and, with nothing in between, a unit of the set. -/
  | dimension (units : UnitSet)
  /-- A dimension, or a number that equals zero. -/
  | zeroUnitlessDimension (units : UnitSet)
  /-- A number sign and, with nothing in between, 3, 4, 6 or 8 hex digits; nothing is taken. -/
  | hexColor
  /-- An identifier of the author's choice. -/
  | customIdent
  /-- A node of the kind; nothing is taken. -/
  | node (kind : NodeKind)
  /-- A node for the function `attr`; nothing is taken. -/
  | attr
  /-- A type that is known by name only and never recognised. -/
  | unsupported (name : String)
  deriving DecidableEq, Repr

namespace Recognizer

def isZero (x : Binary64) : Bool := x.order == 0

def isZeroToOne (x : Binary64) : Bool := 0 ≤ x.order && x.order ≤ Binary64.one.order

def isOneOrGreater (x : Binary64) : Bool := Binary64.one.order ≤ x.order

/-- Whether a text is a literal of which `accept` holds. -/
def acceptsLiteral (accept : Literal → Bool) (text : Bytes) : Bool := (Literal.ofBytes? text).any accept

/-- Whether a text is a literal with a value of which `accept` holds. -/
def acceptsValue (accept : Binary64 → Bool) (text : Bytes) : Bool := (Literal.value? text).any accept

/-- The keywords that no author may choose. -/
def reservedIdents : List String := ["unset", "initial", "inherit", "default"]

def beginsCustomIdent (b : UInt8) : Bool := Byte.isLetter b || b == Byte.underscore || b == Byte.hyphen

def continuesCustomIdent (b : UInt8) : Bool := beginsCustomIdent b || Byte.isDigit b || b == 0x24

/-- Texts of the form `[a-zA-Z_-][a-zA-Z0-9_$-]*` other than the reserved keywords, in whatever case. -/
def isCustomIdent : Bytes → Bool
  | [] => false
  | b :: rest =>
    beginsCustomIdent b && rest.all continuesCustomIdent &&
      !reservedIdents.any fun keyword => (utf8 keyword).equalIgnoringCase (b :: rest)

/-- The hex digits of a colour. -/
def isHexDigits (text : Bytes) : Bool := [3, 4, 6, 8].contains text.length && text.all Byte.isHexDigit

/-- Claims the next component if its text is accepted. -/
def claimOne (accept : Bytes → Bool) (first : Option Component) : Option Nat :=
  match first with
  | some c => if accept c.text then some 1 else none
  | none => none

/-- Claims a number and the unit directly after it. -/
def claimDimension (units : UnitSet) (first second : Option Component) : Option Nat :=
  match first, second with
  | some value, some unit =>
    if !unit.spaced && Literal.isNumber value.text && units.contains unit.text then some 2 else none
  | _, _ => none

/-- Recognises a number sign with a colour directly after it. -/
def claimHexColor (first second : Option Component) : Option Nat :=
  match first, second with
  | some sign, some digits =>
    if sign.text = [Byte.numberSign] && !digits.spaced && isHexDigits digits.text then some 0 else none
  | _, _ => none

/-- Recognises the node of the next component. -/
def claimNode (accept : Node → Bool) (first : Option Component) : Option Nat :=
  if (first.bind Component.node).any accept then some 0 else none

/-- Whether a node is the function `attr` in any case. -/
def isAttr (node : Node) : Bool :=
  node.kind == .function && node.name.any (Bytes.equalIgnoringCase · (utf8 "attr"))

/-- How many components are claimed when the next two are these; none if the value is not recognised. -/
def claim? (r : Recognizer) (first second : Option Component) : Option Nat :=
  match r with
  | number => claimOne Literal.isNumber first
  | numberZeroOne => claimOne (acceptsValue isZeroToOne) first
  | numberOneOrGreater => claimOne (acceptsValue isOneOrGreater) first
  | integer => claimOne (acceptsLiteral Literal.isInteger) first
  | positiveInteger => claimOne (acceptsLiteral fun l => l.isInteger && !l.negative) first
  | dimension units => claimDimension units first second
  | zeroUnitlessDimension units =>
    (claimDimension units first second).or (claimOne (acceptsValue isZero) first)
  | hexColor => claimHexColor first second
  | customIdent => claimOne isCustomIdent first
  | node kind => claimNode (·.kind == kind) first
  | attr => claimNode isAttr first
  | unsupported _ => none

/-- Whether a value is recognised in front of an input, and the input without what is claimed. -/
def run {σ : Type} [Input σ] (r : Recognizer) (input : σ) : Bool × σ :=
  match r.claim? (Input.peek? input 0) (Input.peek? input 1) with
  | some count => (true, Input.takeMany count input)
  | none => (false, input)

/-- A value is recognised just where a claim is made, also a claim to no component. -/
theorem run_fst {σ : Type} [Input σ] (r : Recognizer) (input : σ) :
    (r.run input).1 = (r.claim? (Input.peek? input 0) (Input.peek? input 1)).isSome := by
  rw [run]
  cases r.claim? (Input.peek? input 0) (Input.peek? input 1) <;> rfl

/-- Where one component is claimed, it is taken. -/
theorem run_of_claim_one {σ : Type} [Input σ] {r : Recognizer} {input : σ}
    (claim : r.claim? (Input.peek? input 0) (Input.peek? input 1) = some 1) :
    r.run input = (true, Input.take input) := by
  rw [run, claim]
  rfl

/-- One component is claimed just where its text is accepted. -/
theorem claimOne_isSome {accept : Bytes → Bool} {c : Component} :
    (claimOne accept (some c)).isSome = accept c.text := by
  rw [claimOne]
  cases accept c.text <;> rfl

end Recognizer
end CssLex
