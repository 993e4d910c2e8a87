import CssLex.Proofs.Bracket.Balance
import CssLex.Proofs.Scan.Lossless
import CssLex.Proofs.Text.Characters
import CssLex.Stream.Report

namespace CssLex

/-- The token that a record places. -/
def Record.token (r : Record) : Token := ⟨r.kind, r.length⟩

namespace Table

private theorem getElem?_append_left (t : Table) (offset : Nat) (tokens : List Token) {k : Nat} (old : k < t.size) :
    (t.append offset tokens).records[k]? = t.records[k]? := by
  induction tokens generalizing t offset with
  | nil => rfl
  | cons token rest ih =>
    rw [append, ih _ _ (by rw [size_push]; omega), push, Array.getElem?_push]
    exact if_neg (Nat.ne_of_lt old)

private theorem getElem?_append (t : Table) (offset : Nat) (tokens : List Token) (k : Nat) :
    (t.append offset tokens).records[t.size + k]? = tokens[k]?.map fun token =>
      ⟨token.kind, offset + Token.total (tokens.take k), offset + Token.total (tokens.take k) + token.length,
        t.size + k⟩ := by
  induction tokens generalizing t offset k with
  | nil =>
    rw [append, List.getElem?_nil, Option.map_none, Array.getElem?_eq_none_iff]
    exact Nat.le_add_right _ _
  | cons token rest ih =>
    cases k with
    | zero =>
      rw [append, getElem?_append_left _ _ _ (by simp), push, Nat.add_zero, Array.getElem?_push]
      simp [size]
    | succ k =>
      have after := ih (t.push token.kind offset (offset + token.length)) (offset + token.length) k
      rw [size_push, Nat.add_assoc, Nat.add_comm 1 k] at after
      rw [append, after]
      simp [Nat.add_assoc]

/-- The record of a token starts where the tokens before it end. -/
theorem record_ofText {t : Text} {k : Nat} {r : Record} (here : (ofText t).records[k]? = some r) :
    ∃ token, (Scan.tokens t.toBytes)[k]? = some token ∧ r.kind = token.kind ∧
      r.start = Token.total ((Scan.tokens t.toBytes).take k) ∧
      r.stop = Token.total ((Scan.tokens t.toBytes).take (k + 1)) := by
  have before := record_of_link ((unlinked_empty _).append _ _) here
  have placed := getElem?_append (empty (initialCapacity t.size)) 0 (Scan.tokens t.toBytes) k
  have none_yet : (empty (initialCapacity t.size)).size = 0 := rfl
  rw [none_yet, Nat.zero_add] at placed
  rw [placed] at before
  obtain ⟨token, atK, same⟩ := Option.map_eq_some_iff.mp before
  refine ⟨token, atK, ?_⟩
  rw [Token.total_take_succ atK]
  injection same with kind start stop _
  exact ⟨kind.symm, by omega, by omega⟩

/-- The record of a token is about the bytes ahead of it, and the next record about those behind it. -/
theorem ahead_ofText {t : Text} {k : Nat} {r : Record} (here : (ofText t).records[k]? = some r) :
    ∃ c rest, Token.ahead (Scan.tokens t.toBytes) t.toBytes k = c :: rest ∧
      r.kind = (Scan.next (c :: rest)).kind ∧
      t.slice r.start r.stop = (c :: rest).take (Scan.next (c :: rest)).length ∧
      Token.ahead (Scan.tokens t.toBytes) t.toBytes (k + 1) = Scan.past (c :: rest) := by
  obtain ⟨token, atK, kind, start, stop⟩ := record_ofText here
  obtain ⟨c, rest, ahead, rfl⟩ := Scan.getElem?_tokens atK
  refine ⟨c, rest, ahead, kind, ?_, ?_⟩
  · rw [Text.slice_eq, start, stop, ahead, Token.total_take_succ atK, Nat.add_sub_cancel_left]
  · rw [Token.ahead_succ atK, Token.ahead, ahead, Scan.past]

private theorem size_append (t : Table) (offset : Nat) (tokens : List Token) :
    (t.append offset tokens).size = t.size + tokens.length := by
  induction tokens generalizing t offset with
  | nil => rfl
  | cons token rest ih =>
    rw [append, ih, size_push, List.length_cons]
    omega

/-- There is one record for each token. -/
theorem size_ofText (t : Text) : (ofText t).size = (Scan.tokens t.toBytes).length := by
  rw [ofText, size_link, size_append]
  exact Nat.zero_add _

/-- There are no more records than bytes. -/
theorem size_ofText_le (t : Text) : (ofText t).size ≤ t.size := by
  rw [size_ofText, ← Text.length_toBytes]
  exact Scan.length_tokens_le _

/-- The records of a text place its tokens. -/
theorem tokens_ofText (t : Text) : (ofText t).records.toList.map Record.token = Scan.tokens t.toBytes := by
  have size : (ofText t).records.size = (Scan.tokens t.toBytes).length := size_ofText t
  apply List.ext_getElem?
  intro k
  rw [List.getElem?_map, Array.getElem?_toList]
  cases here : (ofText t).records[k]? with
  | none =>
    have past := Array.getElem?_eq_none_iff.mp here
    rw [size] at past
    rw [Option.map_none, List.getElem?_eq_none past]
  | some r =>
    obtain ⟨token, atK, kind, start, stop⟩ := record_ofText here
    rw [Token.total_take_succ atK] at stop
    have length : r.length = token.length := by
      rw [Record.length]
      omega
    rw [atK, Option.map_some, Record.token, kind, length]

theorem kinds_ofText (t : Text) : (ofText t).kinds = (Scan.tokens t.toBytes).map Token.kind := by
  rw [← tokens_ofText, List.map_map]
  rfl

end Table

/-- Records that are not empty follow each other from one offset to another. -/
inductive Record.Gapless : Nat → List Record → Nat → Prop where
  | nil (offset : Nat) : Gapless offset [] offset
  | cons {r : Record} {records : List Record} {stop : Nat} (inOrder : r.start < r.stop)
      (rest : Gapless r.stop records stop) : Gapless r.start (r :: records) stop

namespace Record

private theorem Gapless.le {start stop : Nat} {records : List Record} (h : Gapless start records stop) :
    start ≤ stop := by
  induction h with
  | nil => exact Nat.le_refl _
  | cons inOrder _ ih => omega

theorem gapless_of_offsets (offset : Nat → Nat) (records : List Record)
    (placed : ∀ k r, records[k]? = some r → r.start = offset k ∧ r.stop = offset (k + 1) ∧ r.start < r.stop) :
    Gapless (offset 0) records (offset records.length) := by
  induction records generalizing offset with
  | nil => exact .nil _
  | cons r records ih =>
    obtain ⟨start, stop, inOrder⟩ := placed 0 r rfl
    have rest := ih (fun k => offset (k + 1)) fun k r here => placed (k + 1) r here
    rw [← start]
    refine .cons inOrder ?_
    rw [stop]
    exact rest

/-- Put together, the texts of gapless records are one slice. -/
theorem Gapless.flatten_slice {start stop : Nat} {records : List Record} (h : Gapless start records stop) (t : Text) :
    (records.map fun r => t.slice r.start r.stop).flatten = t.slice start stop := by
  induction h with
  | nil => simp [Text.slice]
  | @cons r records stop inOrder rest ih =>
    rw [List.map_cons, List.flatten_cons, ih]
    exact t.slice_append (Nat.le_of_lt inOrder) rest.le

end Record

namespace Table

/-- The records of a text take all of it. -/
theorem gapless_ofText (t : Text) : Record.Gapless 0 (ofText t).records.toList t.size := by
  have gapless := Record.gapless_of_offsets (fun k => Token.total ((Scan.tokens t.toBytes).take k))
    (ofText t).records.toList ?_
  · have size : (ofText t).records.size = (Scan.tokens t.toBytes).length := size_ofText t
    simpa [size, Scan.total_tokens, Text.length_toBytes] using gapless
  · intro k r here
    rw [Array.getElem?_toList] at here
    obtain ⟨token, atK, -, start, stop⟩ := record_ofText here
    have long := Scan.length_pos_of_mem_tokens (List.mem_of_getElem? atK)
    refine ⟨start, stop, ?_⟩
    rw [start, stop, Token.total_take_succ atK]
    omega

end Table

/-- From an ASCII byte on that stands behind a token, there are whole characters. -/
theorem Token.isUtf8_ahead {tokens : List Token} {k : Nat} {bytes u rest : Bytes} {c : UInt8} (valid : IsUtf8 bytes)
    (left : ahead tokens bytes k = u ++ c :: rest) (ascii : c < 0x80) : IsUtf8 (c :: rest) := by
  rw [← List.take_append_drop (total (tokens.take k)) bytes, ← ahead, left, ← List.append_assoc] at valid
  exact valid.drop_to (not_isContinuation_of_ascii ascii)

private theorem Text.isBoundary_of_characterEnd {s : String} {n : Nat} (h : Scan.CharacterEnd (utf8 s) n)
    (fits : n ≤ (ofString s).size) : (ofString s).isBoundary n = true := by
  cases h with
  | after last ascii => exact isBoundary_succ s last ascii
  | before next =>
    cases here : (utf8 s)[n]? with
    | some c => exact isBoundary_of_ascii _ ((Array.getElem?_toList).symm.trans here) (next c here)
    | none =>
      have past : (ofString s).size ≤ n := by
        rw [← length_toBytes]
        exact List.getElem?_eq_none_iff.mp here
      rw [Nat.le_antisymm fits past]
      exact isBoundary_size _

/-- Scanned from anywhere in a string, even from inside a character, tokens end between characters. -/
theorem Text.isBoundary_tokens (s : String) {pos k : Nat} (inRange : pos ≤ (ofString s).size)
    (isToken : k < (Scan.tokens ((utf8 s).drop pos)).length) :
    (ofString s).isBoundary (pos + Token.total ((Scan.tokens ((utf8 s).drop pos)).take (k + 1))) = true := by
  refine isBoundary_of_characterEnd (Scan.tokens_characterEnd isToken).of_drop ?_
  have fits := Token.total_take_le (Scan.tokens ((utf8 s).drop pos)) (k + 1)
  have length : (utf8 s).length = (ofString s).size := length_toBytes (ofString s)
  rw [Scan.total_tokens, List.length_drop, length] at fits
  omega

namespace Stream

/-- The texts of a report are the texts of the records. -/
theorem report_text (s : Stream) : s.report.map ReportRow.text = s.records.toList.map s.textOf := by
  apply List.ext_getElem?
  intro k
  simp only [report, List.map_map, List.getElem?_map, List.getElem?_zipIdx, Option.map_map]
  rfl

theorem flatten_report (t : Text) : ((ofText t).report.map ReportRow.text).flatten = t.toBytes := by
  have whole := (Table.gapless_ofText t).flatten_slice t
  have all : t.slice 0 t.size = t.toBytes := by
    rw [Text.slice_eq, List.drop_zero, Nat.sub_zero, ← Text.length_toBytes, List.take_length]
  rw [report_text, ← all, ← whole, records, table_ofText]
  unfold textOf
  rw [source_ofText]

/-- The text of each record of a string can be cut out. -/
theorem slice?_record {s : String} {r : Record} (member : r ∈ (ofString s).records) :
    (ofString s).source.slice? r.start r.stop = some ((ofString s).textOf r) := by
  obtain ⟨k, here⟩ := Array.mem_iff_getElem?.mp member
  rw [records, ofString, table_ofText] at here
  obtain ⟨token, atK, -, start, stop⟩ := Table.record_ofText here
  have long := Token.total_take_succ atK
  have isToken : ∀ l ≤ k, l < (Scan.tokens ((utf8 s).drop 0)).length := by
    intro l before
    exact Nat.lt_of_le_of_lt before (List.getElem?_eq_some_iff.mp atK).1
  have boundary : ∀ l ≤ k + 1,
      (Text.ofString s).isBoundary (Token.total ((Scan.tokens (Text.ofString s).toBytes).take l)) = true := by
    intro l before
    cases l with
    | zero => exact Text.isBoundary_zero _
    | succ l =>
      have := Text.isBoundary_tokens s (Nat.zero_le _) (isToken l (by omega))
      rwa [Nat.zero_add] at this
  rw [ofString, source_ofText, Text.slice?, start, stop, boundary k (by omega), boundary (k + 1) (by omega),
    if_pos (by simp; omega), textOf, source_ofText, start, stop]

end Stream
end CssLex
