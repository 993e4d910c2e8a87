import CssLex.Token.Record

/-!
A raw region is a run of tokens that is taken as it is. It ends at the closing bracket of the group around it, at
the end of input, or where its mode says so. Balanced groups inside are passed as a whole.
-/

namespace CssLex.Region

/-- Where a region ends, besides the closing bracket of the group around it. -/
inductive Mode where
  /-- Nowhere else. -/
  | enclosing
  /-- Before a `{`. -/
  | leftCurly
  /-- After a `;`, which belongs to the region. -/
  | semicolonIncluded
  /-- Before a `{` or a `;`, as in the prelude of an at-rule. -/
  | leftCurlyOrSemicolon
  /-- Before a `!` or a `;`, as in the value of a declaration. -/
  | exclamationOrSemicolon
  deriving DecidableEq, Repr

instance : Inhabited Mode := ⟨.enclosing⟩

/-- What a token means for the region that reaches it. -/
inductive Verdict where
  | inside
  /-- The region ends before the token. -/
  | stopBefore
  /-- The region ends after the token. -/
  | stopAfter
  deriving DecidableEq, Repr

/-- The verdict on a token of kind `kind` with text `text`. -/
def Mode.verdict (mode : Mode) (kind : Kind) (text : Bytes) : Verdict :=
  match mode, kind with
  | .leftCurly, .leftCurly => .stopBefore
  | .leftCurlyOrSemicolon, .leftCurly => .stopBefore
  | .leftCurlyOrSemicolon, .semicolon => .stopBefore
  | .exclamationOrSemicolon, .semicolon => .stopBefore
  | .exclamationOrSemicolon, .delim => if text = [Byte.exclamationMark] then .stopBefore else .inside
  | .semicolonIncluded, .semicolon => .stopAfter
  | _, _ => .inside

/-- Where a region that starts at `start` and has come as far as `index` ends; none if the balance indices lead out
of the table or back, so that there is no end. -/
def walk (records : Array Record) (text : Record → Bytes) (mode : Mode) (start index : Nat) : Option Nat :=
  if h : index < records.size then
    if records[index].balance < start then some index
    else match mode.verdict records[index].kind (text records[index]) with
      | .stopBefore => some index
      | .stopAfter => some (index + 1)
      | .inside =>
        match records[records[index].balance]? with
        | none => none
        | some partner =>
          if partner.balance ≠ index then walk records text mode start (index + 1)
          else if index ≤ records[index].balance then
            walk records text mode start (records[index].balance + 1)
          else none
  else some index
termination_by records.size - index

end CssLex.Region
