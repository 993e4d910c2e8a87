import CssLex.Text.Utf8

namespace CssLex

/-- Why a source is refused before it is scanned. Scanning itself never fails. -/
inductive SourceError where
  | invalidUtf8 (error : Utf8.Error)
  | tooLarge (size limit : Nat)
  deriving DecidableEq, Repr

/-- The wording of an error. -/
def SourceError.message : SourceError → String
  | invalidUtf8 error => "source is not valid UTF-8: " ++ error.message
  | tooLarge size limit =>
    "source is " ++ toString size ++ " bytes, exceeding the " ++ toString limit ++ " byte limit"

/-- The greatest size of a source: offsets have 32 bits, and 64 bytes are kept for padding. -/
def Text.sizeLimit : Nat := UInt32.size - 1 - 64

end CssLex
