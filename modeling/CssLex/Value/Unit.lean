import CssLex.Byte

namespace CssLex

/-- The units of one type of value, in lower case. -/
structure UnitSet where
  /-- The name of the type of value. -/
  name : String
  units : List String
  deriving DecidableEq, Repr

namespace UnitSet

/-- Whether a text is a unit of the set, in whatever case its ASCII letters are. -/
def contains (set : UnitSet) (unit : Bytes) : Bool := set.units.any fun u => (utf8 u).equalIgnoringCase unit

def percentage : UnitSet := ⟨"percentage", ["%"]⟩

/-- Absolute units, units relative to the font, and units relative to the viewport. -/
def length : UnitSet :=
  ⟨"length", ["px", "mm", "cm", "in", "pt", "pc", "q", "em", "ex", "ch", "rem", "vh", "vw", "vmin", "vmax", "vm"]⟩

def angle : UnitSet := ⟨"angle", ["deg", "grad", "rad", "turn"]⟩

def time : UnitSet := ⟨"time", ["s", "ms"]⟩

def frequency : UnitSet := ⟨"frequency", ["hz", "khz"]⟩

def resolution : UnitSet := ⟨"resolution", ["dpi", "dpcm", "dppx", "x"]⟩

def flex : UnitSet := ⟨"flex", ["fr"]⟩

def decibel : UnitSet := ⟨"decibel", ["db"]⟩

def semitones : UnitSet := ⟨"semitones", ["st"]⟩

/-- Every set of units. -/
def all : List UnitSet :=
  [percentage, length, angle, time, frequency, resolution, flex, decibel, semitones]

/-- The set with this name. -/
def ofName? (name : String) : Option UnitSet := all.find? fun set => set.name == name

/-- The sets that have a unit. -/
def containing (unit : Bytes) : List UnitSet := all.filter (·.contains unit)

end UnitSet
end CssLex
