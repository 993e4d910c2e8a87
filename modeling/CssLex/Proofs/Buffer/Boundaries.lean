import CssLex.Proofs.Buffer.Lossless
import CssLex.Proofs.Scan.Neighbours

/-!
What the checked scanner promises of the place where a token ends: no token could have gone on there
(`scan_neighbours`), and but for three kinds of place a text that is cut there keeps its tokens (`scan_prefix`). What is
left behind the cut always keeps them (`scan_suffix`).
-/

namespace CssLex

namespace Token

/-- The token at index `k` is a function spelled `url(`. -/
def UrlCallAt (tokens : List Token) (bytes : Bytes) (k : Nat) : Prop :=
  ∃ token, tokens[k]? = some token ∧ Scan.isUrlCall token (ahead tokens bytes k) = true

/-- What comes behind the token at index `k` is not needed to tell the tokens up to it. -/
structure Severable (tokens : List Token) (bytes : Bytes) (k : Nat) : Prop where
  /-- A bad string is one by the newline behind it. -/
  notBadString : ∀ token ∈ tokens[k]?, token.kind ≠ .badString
  /-- `url(` is a function by the quote behind it. -/
  notUrlCall : ¬ UrlCallAt tokens bytes k
  /-- The quote behind `url(` may have whitespace before it. -/
  notAfterUrlCall : ∀ token ∈ tokens[k]?, token.kind = .whiteSpace → ∀ j, j + 1 = k → ¬ UrlCallAt tokens bytes j

end Token

namespace Scan

/-- Up to a place where it can be cut, a text has the tokens that it has there as a whole. -/
theorem tokens_take {bytes : Bytes} {k : Nat} (inRange : k < (tokens bytes).length)
    (severable : Token.Severable (tokens bytes) bytes k) :
    tokens (bytes.take (Token.total ((tokens bytes).take (k + 1)))) = (tokens bytes).take (k + 1) := by
  have fits := Token.total_take_le (tokens bytes) (k + 1)
  rw [total_tokens] at fits
  have whole := List.take_append_drop (Token.total ((tokens bytes).take (k + 1))) bytes
  have scan : tokens (bytes.take (Token.total ((tokens bytes).take (k + 1))) ++
      bytes.drop (Token.total ((tokens bytes).take (k + 1)))) =
      (tokens bytes).take (k + 1) ++ tokens (bytes.drop (Token.total ((tokens bytes).take (k + 1)))) := by
    rw [whole, ← drop_tokens, List.take_append_drop]
  have size : Token.total ((tokens bytes).take (k + 1)) =
      (bytes.take (Token.total ((tokens bytes).take (k + 1)))).length := by
    rw [List.length_take, Nat.min_eq_left fits]
  have last : ((tokens bytes).take (k + 1)).length = k + 1 := by
    rw [List.length_take]
    omega
  refine tokens_of_append scan size ?_
  intro i token here
  have below : i < k + 1 := by
    rw [← last]
    exact (List.getElem?_eq_some_iff.mp here).1
  have earlier : ((tokens bytes).take (k + 1)).take i = (tokens bytes).take i := by
    rw [List.take_take, Nat.min_eq_left (by omega)]
  have settled := reach_le_or scan size here
  rw [List.getElem?_take_of_lt below] at here
  rw [whole, earlier, last] at settled
  rw [whole, earlier]
  rcases settled with settled | ⟨atEnd, bad | call⟩ | ⟨atEnd, call, blank, after, kind⟩
  · exact settled
  · obtain rfl : i = k := by omega
    exact absurd bad (severable.notBadString token here)
  · obtain rfl : i = k := by omega
    exact absurd ⟨token, here, call⟩ severable.notUrlCall
  · obtain rfl : k = i + 1 := by omega
    rw [List.getElem?_take_of_lt (Nat.lt_succ_self _)] at after
    exact absurd ⟨token, here, call⟩ (severable.notAfterUrlCall blank after kind i rfl)

end Scan

namespace Buffer

theorem tokens_start (t : Text) : (ofText t).tokens 0 = .ok (Scan.tokens t.toBytes) := tokens_ofText t (Nat.zero_le _)

/-- No token of a string could have taken along any of what follows it. -/
theorem scan_neighbours (s : String) :
    ∃ tokens, (ofText (Text.ofString s)).tokens 0 = .ok tokens ∧
      ∀ (k : Nat) (token : Token), tokens[k]? = some token →
        Scan.Neighbours token ((Token.ahead tokens (utf8 s) k).take token.length) (tokens.drop (k + 1))
          (Token.ahead tokens (utf8 s) (k + 1)) := by
  refine ⟨Scan.tokens (utf8 s), tokens_start _, ?_⟩
  intro k token here
  obtain ⟨c, rest, left, same⟩ := Scan.getElem?_tokens here
  have behind : Token.ahead (Scan.tokens (utf8 s)) (utf8 s) (k + 1) = Scan.past (c :: rest) := by
    rw [Token.ahead_succ here, Token.ahead, left, same, Scan.past]
  have following : (Scan.tokens (utf8 s)).drop (k + 1) = Scan.tokens (Scan.past (c :: rest)) := by
    rw [Scan.drop_tokens, ← behind, Token.ahead]
  rw [following, behind, Token.ahead, left, same]
  exact Scan.next_neighbours c rest

/-- In `1.e3` the number ends before the full stop, although digits follow later. -/
theorem scan_neighbours_fullStop :
    ∃ tokens, (ofText (Text.ofString "1.e3")).tokens 0 = .ok tokens ∧ tokens[0]? = some ⟨.number, 1⟩ ∧
      Scan.Neighbours ⟨.number, 1⟩ (utf8 "1") (tokens.drop 1) (utf8 ".e3") := by
  obtain ⟨tokens, scan, neighbours⟩ := scan_neighbours "1.e3"
  have all : (ofText (Text.ofString "1.e3")).tokens 0 = .ok [⟨.number, 1⟩, ⟨.delim, 1⟩, ⟨.ident, 2⟩] := by
    decide +kernel
  obtain rfl := Except.ok.inj (scan.symm.trans all)
  exact ⟨_, scan, rfl, neighbours 0 ⟨.number, 1⟩ rfl⟩

/-- A string that is cut behind a token has the tokens up to it, unless the bytes behind it make it a bad string or a
function named `url`. -/
theorem scan_prefix (s : String) :
    ∃ tokens, (ofText (Text.ofString s)).tokens 0 = .ok tokens ∧
      ∀ k < tokens.length, Token.Severable tokens (utf8 s) k →
        ∃ start, (Text.ofString s).slice? 0 (Token.total (tokens.take (k + 1))) = some start ∧
          (ofText (Text.ofBytes start)).tokens 0 = .ok (tokens.take (k + 1)) := by
  refine ⟨Scan.tokens (utf8 s), tokens_start _, ?_⟩
  intro k inRange severable
  have boundary := Text.isBoundary_tokens s (Nat.zero_le _) inRange
  rw [List.drop_zero, Nat.zero_add] at boundary
  refine ⟨(utf8 s).take (Token.total ((Scan.tokens (utf8 s)).take (k + 1))), ?_, ?_⟩
  · rw [Text.slice?, Text.isBoundary_zero, boundary, if_pos (by simp), Text.slice_eq]
    rfl
  · rw [tokens_start, Text.toBytes_ofBytes, Scan.tokens_take inRange severable]

/-- In `url( 'a'` a cut behind the string leaves all tokens, also the function that the string makes one. -/
theorem scan_prefix_urlCall :
    ∃ tokens, (ofText (Text.ofString "url( 'a'\n")).tokens 0 = .ok tokens ∧ 2 < tokens.length ∧
      Token.Severable tokens (utf8 "url( 'a'\n") 2 ∧
      ∃ start, (Text.ofString "url( 'a'\n").slice? 0 (Token.total (tokens.take 3)) = some start ∧
        (ofText (Text.ofBytes start)).tokens 0 = .ok (tokens.take 3) := by
  obtain ⟨tokens, scan, cut⟩ := scan_prefix "url( 'a'\n"
  have all : (ofText (Text.ofString "url( 'a'\n")).tokens 0 =
      .ok [⟨.function, 4⟩, ⟨.whiteSpace, 1⟩, ⟨.string, 3⟩, ⟨.whiteSpace, 1⟩] := by decide +kernel
  obtain rfl := Except.ok.inj (scan.symm.trans all)
  have severable : Token.Severable [⟨.function, 4⟩, ⟨.whiteSpace, 1⟩, ⟨.string, 3⟩, ⟨.whiteSpace, 1⟩]
      (utf8 "url( 'a'\n") 2 := by
    refine ⟨by simp, ?_, by simp⟩
    rintro ⟨token, here, call⟩
    obtain rfl := Option.some.inj here
    exact absurd call (by decide)
  exact ⟨_, scan, by decide, severable, cut 2 (by decide) severable⟩

/-- What stands in front of a position is not seen from it, and neither is how long the padding is. -/
theorem tokens_drop (t : Text) {pos : Nat} (inRange : pos ≤ t.size) :
    (ofText (Text.ofBytes (t.toBytes.drop pos))).tokens 0 = (ofText t).tokens pos := by
  rw [tokens_start, Text.toBytes_ofBytes, tokens_ofText t inRange]

/-- From every place between two characters of a string the scanner finds the tokens of what is left as a text of its
own. Behind some of the tokens of the string these are its other tokens. -/
theorem scan_suffix (s : String) :
    (∀ pos, (Text.ofString s).isBoundary pos = true →
      ∃ rest tokens, (Text.ofString s).slice? pos (Text.ofString s).size = some rest ∧
        (ofText (Text.ofString s)).tokens pos = .ok tokens ∧ (ofText (Text.ofBytes rest)).tokens 0 = .ok tokens) ∧
    ∃ tokens, (ofText (Text.ofString s)).tokens 0 = .ok tokens ∧
      ∀ k ≤ tokens.length,
        ∃ rest, (Text.ofString s).slice? (Token.total (tokens.take k)) (Text.ofString s).size = some rest ∧
          (ofText (Text.ofBytes rest)).tokens 0 = .ok (tokens.drop k) := by
  constructor
  · intro pos boundary
    have inRange := Text.le_size_of_isBoundary boundary
    refine ⟨_, _, Text.slice?_size boundary, tokens_ofText _ inRange, ?_⟩
    rw [tokens_drop _ inRange, tokens_ofText _ inRange]
  · refine ⟨Scan.tokens (utf8 s), tokens_start _, ?_⟩
    intro k inRange
    have boundary : (Text.ofString s).isBoundary (Token.total ((Scan.tokens (utf8 s)).take k)) = true := by
      cases k with
      | zero => exact Text.isBoundary_zero _
      | succ k => simpa using Text.isBoundary_tokens s (Nat.zero_le _) inRange
    have fits := Text.le_size_of_isBoundary boundary
    refine ⟨_, Text.slice?_size boundary, ?_⟩
    rw [tokens_drop _ fits, tokens_ofText _ fits]
    exact congrArg Except.ok (Scan.drop_tokens (utf8 s) k).symm

/-- All of `url(é)` is one token, and there are three in it behind the first letter. -/
theorem scan_suffix_function : (Text.ofString "url(é)").isBoundary 1 = true ∧
    ∃ rest tokens, (Text.ofString "url(é)").slice? 1 7 = some rest ∧
      (ofText (Text.ofString "url(é)")).tokens 1 = .ok tokens ∧ (ofText (Text.ofBytes rest)).tokens 0 = .ok tokens ∧
      tokens = [⟨.function, 3⟩, ⟨.ident, 2⟩, ⟨.rightParenthesis, 1⟩] := by
  have boundary : (Text.ofString "url(é)").isBoundary 1 = true := by decide +kernel
  obtain ⟨rest, tokens, cut, scan, alone⟩ := (scan_suffix "url(é)").1 1 boundary
  have all : (ofText (Text.ofString "url(é)")).tokens 1 =
      .ok [⟨.function, 3⟩, ⟨.ident, 2⟩, ⟨.rightParenthesis, 1⟩] := by decide +kernel
  exact ⟨boundary, rest, tokens, cut, scan, alone, Except.ok.inj (scan.symm.trans all)⟩

end Buffer
end CssLex
