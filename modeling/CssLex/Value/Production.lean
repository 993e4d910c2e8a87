import CssLex.Value.Recognizer

namespace CssLex

/-- A name of a type of value, and how the type is recognised. -/
structure Production where
  name : String
  recognizer : Recognizer
  deriving DecidableEq, Repr

namespace Production

/-- Every production; names are unique. -/
def all : List Production :=
  [ ⟨"angle", .zeroUnitlessDimension .angle⟩,
    ⟨"attr()", .attr⟩,
    ⟨"custom-ident", .customIdent⟩,
    ⟨"decibel", .dimension .decibel⟩,
    ⟨"dimension", .node .dimension⟩,
    ⟨"frequency", .dimension .frequency⟩,
    ⟨"flex", .dimension .flex⟩,
    ⟨"hex-color", .hexColor⟩,
    ⟨"id-selector", .node .idSelector⟩,
    ⟨"ident", .node .identifier⟩,
    ⟨"integer", .integer⟩,
    ⟨"length", .zeroUnitlessDimension .length⟩,
    ⟨"number", .number⟩,
    ⟨"number-zero-one", .numberZeroOne⟩,
    ⟨"number-one-or-greater", .numberOneOrGreater⟩,
    ⟨"percentage", .dimension .percentage⟩,
    ⟨"positive-integer", .positiveInteger⟩,
    ⟨"resolution", .dimension .resolution⟩,
    ⟨"semitones", .dimension .semitones⟩,
    ⟨"string", .node .string⟩,
    ⟨"time", .dimension .time⟩,
    ⟨"unicode-range", .node .unicodeRange⟩,
    ⟨"url", .node .url⟩,
    ⟨"progid", .node .raw⟩,
    ⟨"expression", .unsupported "expression"⟩ ]

/-- A name that no production has. -/
structure Unknown where
  name : String
  deriving DecidableEq, Repr

/-- The wording of the error. -/
def Unknown.message (e : Unknown) : String := "unknown value production `" ++ e.name ++ "`"

/-- The recognizer of the production with this name. -/
def lookup? (name : String) : Option Recognizer := (all.find? fun p => p.name == name).map Production.recognizer

/-- The recognizer of a production, or the error that says that there is none. -/
def lookup (name : String) : Except Unknown Recognizer :=
  match lookup? name with
  | some r => .ok r
  | none => .error ⟨name⟩

end Production
end CssLex
