import CssLex.Stream.Basic

namespace CssLex

/-- One token of a report. -/
structure ReportRow where
  index : Nat
  kind : Kind
  text : Bytes
  balance : Nat
  deriving DecidableEq, Repr

namespace Stream

/-- Every token in order. -/
def report (s : Stream) : List ReportRow :=
  s.records.toList.zipIdx.map fun (r, index) => ⟨index, r.kind, s.textOf r, r.balance⟩

/-- The number of tokens and the state of the cursor. -/
def describe (s : Stream) : String :=
  "TokenStream \x7b tokens: " ++ toString s.count ++ ", token_index: " ++ toString s.index ++
    ", token_type: " ++ s.kind.identifier ++ ", eof: " ++ (if s.atEnd then "true" else "false") ++ ", .. \x7d"

end Stream
end CssLex
