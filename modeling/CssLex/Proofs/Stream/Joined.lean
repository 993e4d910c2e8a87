import CssLex.Proofs.Bracket.Joined
import CssLex.Proofs.Buffer.Boundaries
import CssLex.Proofs.Scan.Extension
import CssLex.Proofs.Stream.Reachable

namespace CssLex

/-- The same record, `bytes` bytes and `count` tokens further on. -/
def Record.shift (bytes count : Nat) (r : Record) : Record :=
  ⟨r.kind, bytes + r.start, bytes + r.stop, count + r.balance⟩

namespace Table

variable {t : Text} {k b : Nat}

/-- A record is told by its token and by what the brackets balance it with. -/
private theorem record_of_points {token : Token} (atK : (Scan.tokens t.toBytes)[k]? = some token)
    (points : Bracket.Points (ofText t).kinds (ofText t).size k b) :
    (ofText t).records[k]? = some ⟨token.kind, Token.total ((Scan.tokens t.toBytes).take k),
      Token.total ((Scan.tokens t.toBytes).take (k + 1)), b⟩ := by
  obtain ⟨⟨kind, start, stop, balance⟩, here⟩ : ∃ r, (ofText t).records[k]? = some r := by
    have inRange : k < (ofText t).size := by
      rw [size_ofText]
      exact (List.getElem?_eq_some_iff.mp atK).1
    exact ⟨_, Array.getElem?_eq_getElem inRange⟩
  obtain ⟨token', atK', sameKind, sameStart, sameStop⟩ := record_ofText here
  obtain rfl := Option.some.inj (atK.symm.trans atK')
  rw [here, points.unique (points_ofText here), ← sameKind, ← sameStart, ← sameStop]

section Joined

variable {t u v : Text} (scan : Scan.tokens t.toBytes = Scan.tokens u.toBytes ++ Scan.tokens v.toBytes)

include scan

private theorem kinds_joined : (ofText t).kinds = (ofText u).kinds ++ (ofText v).kinds := by
  rw [kinds_ofText, kinds_ofText, kinds_ofText, scan, List.map_append]

private theorem size_joined : (ofText t).size = (ofText u).size + (ofText v).size := by
  rw [← length_kinds, kinds_joined scan, List.length_append, length_kinds, length_kinds]

private theorem points_joined (h : Bracket.Points ((ofText u).kinds ++ (ofText v).kinds)
    ((ofText u).kinds.length + (ofText v).kinds.length) k b) : Bracket.Points (ofText t).kinds (ofText t).size k b := by
  rwa [size_joined scan, kinds_joined scan, ← length_kinds (ofText u), ← length_kinds (ofText v)]

/-- The first text keeps its records. -/
private theorem record_joined_left (closed : Bracket.Closed (ofText u).kinds) {r : Record}
    (here : (ofText u).records[k]? = some r) : (ofText t).records[k]? = some r := by
  obtain ⟨token, atK, kind, start, stop⟩ := record_ofText here
  have inRange := (List.getElem?_eq_some_iff.mp atK).1
  have points := points_ofText here
  rw [← length_kinds] at points
  have joined := points_joined scan (points.append_left _ closed (by rwa [length_kinds, size_ofText]))
  have atK' : (Scan.tokens t.toBytes)[k]? = some token := by rw [scan, List.getElem?_append_left inRange, atK]
  rw [record_of_points atK' joined, scan, List.take_append_of_le_length (Nat.le_of_lt inRange),
    List.take_append_of_le_length inRange, ← kind, ← start, ← stop]

/-- The records of the second text are shifted. -/
private theorem record_joined_right (closed : Bracket.Closed (ofText u).kinds) {r : Record}
    (here : (ofText v).records[k]? = some r) :
    (ofText t).records[(ofText u).size + k]? = some (r.shift u.size (ofText u).size) := by
  obtain ⟨token, atK, kind, start, stop⟩ := record_ofText here
  have size : (Scan.tokens u.toBytes).length = (ofText u).size := (size_ofText u).symm
  have bytes : Token.total (Scan.tokens u.toBytes) = u.size := by rw [Scan.total_tokens, Text.length_toBytes]
  have points := points_ofText here
  rw [← length_kinds] at points
  -- the stray closing brackets of the second text find no group of the first one open
  have joined := points_joined scan (points.append_right closed)
  rw [length_kinds (ofText u)] at joined
  have total : ∀ l, Token.total ((Scan.tokens t.toBytes).take ((ofText u).size + l)) =
      u.size + Token.total ((Scan.tokens v.toBytes).take l) := by
    intro l
    rw [scan, ← size, List.take_length_add_append, Token.total_append, bytes]
  have atK' : (Scan.tokens t.toBytes)[(ofText u).size + k]? = some token := by
    rw [scan, List.getElem?_append_right (by omega), size, Nat.add_sub_cancel_left, atK]
  rw [record_of_points atK' joined, total, Nat.add_assoc, total, ← kind, ← start, ← stop]
  rfl

/-- Without open brackets in the first text the records of the joined text are those of the two. -/
theorem records_joined (closed : Bracket.Closed (ofText u).kinds) :
    (ofText t).records = (ofText u).records ++ (ofText v).records.map (Record.shift u.size (ofText u).size) := by
  apply Array.ext_getElem?
  intro k
  rcases Nat.lt_or_ge k (ofText u).size with front | behind
  · have here : (ofText u).records[k]? = some (ofText u).records[k] := Array.getElem?_eq_getElem front
    rw [record_joined_left scan closed here, Array.getElem?_append_left front, here]
  · obtain ⟨l, rfl⟩ : ∃ l, k = (ofText u).size + l := ⟨k - (ofText u).size, by omega⟩
    rw [Array.getElem?_append_right behind, ← size, Nat.add_sub_cancel_left, Array.getElem?_map]
    cases here : (ofText v).records[l]? with
    | some r => rw [record_joined_right scan closed here, Option.map_some]
    | none =>
      have past : (ofText v).size ≤ l := Array.getElem?_eq_none_iff.mp here
      rw [Option.map_none, Array.getElem?_eq_none_iff]
      change (ofText t).size ≤ _
      rw [size_joined scan]
      omega

end Joined
end Table

private theorem utf8_append (a b : String) : utf8 (a ++ b) = utf8 a ++ utf8 b := by
  rw [utf8, String.toByteArray_append, ByteArray.data_append, Array.toList_append, utf8, utf8]

namespace Stream

/-- A string behind a string that ends in a token with one text leaves the tokens of both as they are. If no bracket is
open where they meet, it leaves the records too, but for their places. -/
theorem ofString_append (a b : String) :
    ∃ left right, (Buffer.ofText (Text.ofString a)).tokens 0 = .ok left ∧
      (Buffer.ofText (Text.ofString b)).tokens 0 = .ok right ∧
      (Token.EndsInLexeme left →
        (Buffer.ofText (Text.ofString (a ++ b))).tokens 0 = .ok (left ++ right) ∧
        (Bracket.Closed (ofString a).table.kinds →
          (ofString (a ++ b)).records =
            (ofString a).records ++ (ofString b).records.map (Record.shift (Text.ofString a).size left.length))) := by
  refine ⟨Scan.tokens (utf8 a), Scan.tokens (utf8 b), Buffer.tokens_start _, Buffer.tokens_start _, ?_⟩
  intro last
  have scan : Scan.tokens (utf8 (a ++ b)) = Scan.tokens (utf8 a) ++ Scan.tokens (utf8 b) := by
    rw [utf8_append, Scan.tokens_append last]
  refine ⟨(Buffer.tokens_start _).trans (congrArg _ scan), ?_⟩
  intro closed
  have size : (Table.ofText (Text.ofString a)).size = (Scan.tokens (utf8 a)).length := Table.size_ofText _
  rw [ofString, table_ofText] at closed
  rw [records, records, records, ofString, ofString, ofString, table_ofText, table_ofText, table_ofText, ← size]
  exact Table.records_joined scan closed

/-- Behind `-->[a]` the stray bracket and the opening bracket of `)(b` are on their own. -/
theorem ofString_append_stray :
    ∃ left right, (Buffer.ofText (Text.ofString "-->[a]")).tokens 0 = .ok left ∧
      (Buffer.ofText (Text.ofString ")(b")).tokens 0 = .ok right ∧
      Token.EndsInLexeme left ∧ Bracket.Closed (ofString "-->[a]").table.kinds ∧
      (Buffer.ofText (Text.ofString "-->[a])(b")).tokens 0 = .ok (left ++ right) ∧
      (ofString "-->[a])(b").records =
        (ofString "-->[a]").records ++ (ofString ")(b").records.map (Record.shift 6 4) := by
  obtain ⟨left, right, front, behind, joined⟩ := ofString_append "-->[a]" ")(b"
  have all : (Buffer.ofText (Text.ofString "-->[a]")).tokens 0 =
      .ok [⟨.commentClose, 3⟩, ⟨.leftSquare, 1⟩, ⟨.ident, 1⟩, ⟨.rightSquare, 1⟩] := by decide +kernel
  obtain rfl := Except.ok.inj (front.symm.trans all)
  have last : Token.EndsInLexeme [⟨.commentClose, 3⟩, ⟨.leftSquare, 1⟩, ⟨.ident, 1⟩, ⟨.rightSquare, 1⟩] :=
    ⟨⟨.rightSquare, 1⟩, rfl, rfl⟩
  have kinds : (ofString "-->[a]").table.kinds = [.commentClose, .leftSquare, .ident, .rightSquare] := by
    decide +kernel
  have closed : Bracket.Closed (ofString "-->[a]").table.kinds := by
    rw [kinds]
    have pair : Bracket.Matched [.commentClose, .leftSquare, .ident, .rightSquare] 1 3 :=
      ⟨.rightSquare, rfl, rfl, .plain rfl rfl (by decide) (.done _ _)⟩
    intro i closer opens
    match i, opens with
    | 0, opens => cases opens
    | 1, _ => exact ⟨3, pair⟩
    | 2, opens => cases opens
    | 3, opens => cases opens
    | i + 4, opens => cases opens
  exact ⟨_, right, front, behind, last, closed, (joined last).1, (joined last).2 closed⟩

end Stream
end CssLex
