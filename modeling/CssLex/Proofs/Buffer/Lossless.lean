import CssLex.Proofs.Buffer.Scanning
import CssLex.Proofs.Stream.Records

namespace CssLex.Buffer

private theorem total_replicate_eof (count : Nat) : Token.total (List.replicate count ⟨.eof, 0⟩) = 0 := by
  induction count with
  | zero => rfl
  | succ count ih => rw [List.replicate_succ, Token.total_cons, ih]

/-- At the end of the source there are only ends of input. -/
private theorem total_take_le (tokens : List Token) (count : Nat) :
    Token.total ((tokens ++ List.replicate count (⟨.eof, 0⟩ : Token)).take count) ≤ Token.total tokens := by
  have fits := Token.total_take_le (tokens ++ List.replicate count (⟨.eof, 0⟩ : Token)) count
  rw [Token.total_append, total_replicate_eof] at fits
  exact fits

/-- Scanning a string from any position meets no fault: it finds tokens that are not empty, end between characters and
take all that is left, and from then on only the end of input. From the start these are the tokens of the records,
which follow each other without gaps, and whose texts put together are the string. -/
theorem scan_lossless (s : String) (pos : Nat) (inRange : pos ≤ (Text.ofString s).size) :
    ∃ tokens, (ofText (Text.ofString s)).tokens pos = .ok tokens ∧
      (∀ token ∈ tokens, 0 < token.length ∧ token.kind ≠ .eof) ∧
      pos + Token.total tokens = (Text.ofString s).size ∧
      (∀ k < tokens.length, (Text.ofString s).isBoundary (pos + Token.total (tokens.take (k + 1))) = true) ∧
      (∀ count, ∃ found, (ofText (Text.ofString s)).nextTokens count pos = .ok found ∧
        found = (tokens ++ List.replicate count (⟨.eof, 0⟩ : Token)).take count ∧
        pos + Token.total found ≤ (Text.ofString s).size) ∧
      (pos = 0 → (Stream.ofString s).records.toList.map Record.token = tokens ∧
        Record.Gapless 0 (Stream.ofString s).records.toList (Text.ofString s).size ∧
        (∀ r ∈ (Stream.ofString s).records,
          (Text.ofString s).slice? r.start r.stop = some ((Stream.ofString s).textOf r)) ∧
        ((Stream.ofString s).report.map ReportRow.text).flatten = utf8 s) := by
  have size : (utf8 s).length = (Text.ofString s).size := Text.length_toBytes (Text.ofString s)
  have total := Scan.total_tokens ((utf8 s).drop pos)
  rw [List.length_drop, size] at total
  refine ⟨Scan.tokens ((utf8 s).drop pos), tokens_ofText _ inRange, ?_, by omega, ?_, ?_, ?_⟩
  · intro token member
    exact ⟨Scan.length_pos_of_mem_tokens member, Scan.kind_ne_eof_of_mem_tokens member⟩
  · intro k isToken
    exact Text.isBoundary_tokens s inRange isToken
  · intro count
    refine ⟨_, nextTokens_eq (ahead_ofText _ inRange) count, rfl, ?_⟩
    have taken := total_take_le (Scan.tokens ((utf8 s).drop pos)) count
    change pos + Token.total ((Scan.tokens ((utf8 s).drop pos) ++ _).take count) ≤ _
    omega
  · rintro rfl
    refine ⟨?_, ?_, ?_, Stream.flatten_report (Text.ofString s)⟩
    · rw [Stream.records, Stream.ofString, Stream.table_ofText]
      exact Table.tokens_ofText _
    · rw [Stream.records, Stream.ofString, Stream.table_ofText]
      exact Table.gapless_ofText _
    · intro r member
      have cut := Stream.slice?_record member
      rwa [Stream.ofString, Stream.source_ofText] at cut

/-- From inside the `é` of `é(` scanning finds two tokens, the first of which ends where the character does. -/
theorem scan_lossless_inside : 1 ≤ (Text.ofString "é(").size ∧
    ∃ tokens, (ofText (Text.ofString "é(")).tokens 1 = .ok tokens ∧ 1 + Token.total tokens = 3 ∧
      ∀ k < tokens.length, (Text.ofString "é(").isBoundary (1 + Token.total (tokens.take (k + 1))) = true := by
  have inRange : 1 ≤ (Text.ofString "é(").size := by decide +kernel
  obtain ⟨tokens, found, -, total, boundaries, -⟩ := scan_lossless "é(" 1 inRange
  exact ⟨inRange, tokens, found, total, boundaries⟩

end CssLex.Buffer
