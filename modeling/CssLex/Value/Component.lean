import CssLex.Byte

namespace CssLex

/-- The kinds of syntax node that recognition asks for. -/
inductive NodeKind where
  | dimension
  | function
  | idSelector
  | identifier
  /-- Text that was not parsed. -/
  | raw
  | string
  | unicodeRange
  | url
  deriving DecidableEq, Repr

namespace NodeKind

def all : List NodeKind :=
  [.dimension, .function, .idSelector, .identifier, .raw, .string, .unicodeRange, .url]

def name : NodeKind → String
  | dimension => "Dimension"
  | function => "Function"
  | idSelector => "IdSelector"
  | identifier => "Identifier"
  | raw => "Raw"
  | string => "String"
  | unicodeRange => "UnicodeRange"
  | url => "Url"

/-- The kind with this name. -/
def ofName? (name : String) : Option NodeKind := all.find? fun k => k.name == name

end NodeKind

/-- A syntax node: its kind and, for a function, its name. -/
structure Node where
  kind : NodeKind
  name : Option Bytes
  deriving DecidableEq, Repr

/-- One component of a value. -/
structure Component where
  text : Bytes
  node : Option Node
  /-- Whitespace or a comment stands between this component and the one before it. -/
  spaced : Bool
  deriving DecidableEq, Repr

namespace Component

/-- A component without a node. -/
def ofText (text : Bytes) (spaced : Bool) : Component := ⟨text, none, spaced⟩

end Component
end CssLex
