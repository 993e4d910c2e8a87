import CssLex.Stream.Basic

namespace CssLex.Stream

/-- The record at an index. -/
def recordAt? (s : Stream) (index : Nat) : Option Record := s.records[index]?

/-- The record `k` places after an index. -/
def recordAfter? (s : Stream) (index k : Nat) : Option Record := s.recordAt? (index + k)

/-- The record `k` places after the cursor, without a move. -/
def peek? (s : Stream) (k : Nat) : Option Record := s.recordAfter? s.index k

/-- The kind `k` places after the cursor. -/
def kindAhead (s : Stream) (k : Nat) : Kind := ((s.peek? k).map Record.kind).getD .eof

/-- The kind of the first token from offset `k` on that is neither whitespace nor a comment. -/
def kindPastTrivia (s : Stream) (k : Nat) : Kind :=
  (((s.records.toList.drop (s.index + k)).find? (!·.kind.isTrivia)).map Record.kind).getD .eof

/-- Whether the token `k` places after the cursor is the delimiter `c`. -/
def isDelimAt (s : Stream) (c : Char) (k : Nat) : Bool :=
  match s.peek? k with
  | some r => r.kind == .delim && s.textOf r == utf8 (String.singleton c)
  | none => false

/-- Whether the current token is the delimiter `c`. -/
def isDelim (s : Stream) (c : Char) : Bool := s.isDelimAt c 0

/-- Whether the current token closes the group that is open at `index`, or one around it. At the end of input every
group is closed. -/
def isGroupEdge (s : Stream) (index : Nat) : Bool :=
  match s.peek? 0 with
  | none => true
  | some r => r.kind.isClose && decide (r.balance < s.index) && decide (r.balance ≤ index)

end CssLex.Stream
