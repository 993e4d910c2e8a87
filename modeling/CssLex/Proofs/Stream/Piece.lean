import CssLex.Proofs.Scan.Truncation
import CssLex.Proofs.Stream.Records
import CssLex.Proofs.Stream.RegionEnd

/-!
A raw region is text that is scanned again later, on its own. `regionEnd?_piece` says that nothing is lost by that: the
tokens of the piece are the tokens of the region, and so are its matched brackets.
-/

namespace CssLex

namespace Bracket

variable {kinds : List Kind} {start stop : Nat}

/-- No matched pair has one bracket from `start` up to `stop` and the other elsewhere. -/
def Whole (kinds : List Kind) (start stop : Nat) : Prop :=
  ∀ i j, Matched kinds i j → ((start ≤ i ∧ i < stop) ↔ (start ≤ j ∧ j < stop))

/-- A stretch of tokens that splits no pair is balanced in itself as it was among the others; what was balanced with a
token around the stretch is now balanced with itself. -/
theorem Points.extract (whole : Whole kinds start stop) {n k b : Nat} (h : Points kinds n (start + k) b)
    (inside : start + k < stop) (le : stop ≤ n) :
    Points (kinds.extract start stop) (stop - start) k (if start ≤ b ∧ b < stop then b - start else k) := by
  cases h with
  | opener isMatched closed =>
    have both := (whole _ _ isMatched).mp ⟨Nat.le_add_right _ _, inside⟩
    obtain ⟨j, rfl⟩ : ∃ j, b = start + j := ⟨b - start, by omega⟩
    rw [if_pos both, Nat.add_sub_cancel_left]
    exact .opener (Matched.extract_iff.mpr ⟨isMatched, both.2⟩) (by omega)
  | closer isMatched closed =>
    have both := (whole _ _ isMatched).mpr ⟨Nat.le_add_right _ _, inside⟩
    obtain ⟨i, rfl⟩ : ∃ i, b = start + i := ⟨b - start, by omega⟩
    rw [if_pos both, Nat.add_sub_cancel_left]
    exact .closer (Matched.extract_iff.mpr ⟨isMatched, inside⟩) (by omega)
  | @member i _ isMember closed =>
    have after := isMember.after
    have before := isMember.before
    split
    · rename_i both
      obtain ⟨a, rfl⟩ : ∃ a, i = start + a := ⟨i - start, by have := (whole _ _ isMember.matched).mpr both; omega⟩
      obtain ⟨j, rfl⟩ : ∃ j, b = start + j := ⟨b - start, by omega⟩
      rw [Nat.add_sub_cancel_left]
      refine .member (i := a) ⟨Matched.extract_iff.mpr ⟨isMember.matched, both.2⟩, by omega, by omega, ?_⟩ (by omega)
      intro c d isMatched past reaches
      have := isMember.direct _ _ (Matched.extract_iff.mp isMatched).1 (by omega) (by omega)
      omega
    · rename_i around
      -- the pair around the token is around the stretch, so pairs of the stretch lie inside of it
      have early : i < start := by
        have := mt (whole _ _ isMember.matched).mp around
        omega
      refine .free ?_
      intro c d isMatched closed reaches
      have := isMember.direct _ _ (Matched.extract_iff.mp isMatched).1 (by omega) (by omega)
      omega
  | free isFree =>
    rw [if_pos ⟨Nat.le_add_right _ _, inside⟩, Nat.add_sub_cancel_left]
    refine .free ?_
    intro c d isMatched closed reaches
    obtain ⟨isMatched, closed⟩ := Matched.extract_iff.mp isMatched
    have := isFree _ _ isMatched (by omega) (by omega)
    omega

end Bracket

namespace Stream

/-- The text that the tokens from index `start` up to index `stop` cover. -/
def covered (s : Stream) (start stop : Nat) : Bytes :=
  if start < stop then
    match s.records[start]?, s.records[stop - 1]? with
    | some first, some last => s.source.slice first.start last.stop
    | _, _ => []
  else []

private theorem covered_ofText (t : Text) {start stop : Nat} (inOrder : start ≤ stop)
    (inRange : stop ≤ (ofText t).count) :
    (ofText t).covered start stop = t.slice (Token.total ((Scan.tokens t.toBytes).take start))
      (Token.total ((Scan.tokens t.toBytes).take stop)) := by
  have size : (Table.ofText t).records.size = (ofText t).count := by rw [count, table_ofText, Table.size]
  rw [covered]
  split
  · have first : (Table.ofText t).records[start]? = some _ := Array.getElem?_eq_getElem (by omega)
    have last : (Table.ofText t).records[stop - 1]? = some _ := Array.getElem?_eq_getElem (by omega)
    obtain ⟨-, -, -, starts, -⟩ := Table.record_ofText first
    obtain ⟨-, -, -, -, stops⟩ := Table.record_ofText last
    rw [Nat.sub_add_cancel (by omega)] at stops
    rw [records, table_ofText, first, last, source_ofText]
    dsimp only
    rw [starts, stops]
  · obtain rfl : start = stop := by omega
    rw [Text.slice_eq, Nat.sub_self, List.take_zero]

/-- The tokens of a piece are the tokens of its region. -/
theorem tokens_covered (t : Text) {start stop : Nat} {mode : Region.Mode} (inOrder : start ≤ stop)
    (inRange : stop ≤ (ofText t).count)
    (boundary : Region.Boundary (ofText t).table (ofText t).textOf mode start stop) :
    Scan.tokens ((ofText t).covered start stop) = ((Scan.tokens t.toBytes).drop start).take (stop - start) := by
  have size : (ofText t).table.size = (Scan.tokens t.toBytes).length := by rw [table_ofText, Table.size_ofText]
  have kinds : (ofText t).table.kinds = (Scan.tokens t.toBytes).map Token.kind := by
    rw [table_ofText, Table.kinds_ofText]
  have text := covered_ofText t inOrder inRange
  obtain ⟨width, rfl⟩ : ∃ width, stop = start + width := ⟨stop - start, by omega⟩
  rw [Text.slice_eq, Token.total_take_add, Nat.add_sub_cancel_left] at text
  rw [text, Nat.add_sub_cancel_left]
  obtain ⟨run, same, scan, length⟩ := Scan.tokens_run t.toBytes start width
  rw [← same]
  rcases boundary.kind with atEnd | ⟨kind, here, blank, string, bad⟩ | ⟨k, le, same, semicolon⟩
  · refine Scan.tokens_of_quiet scan length ?_
    rw [atEnd, size, List.take_length, Scan.total_tokens, List.drop_length]
    simp
  · refine Scan.tokens_of_quiet scan length ?_
    rw [kinds, List.getElem?_map, Option.map_eq_some_iff] at here
    obtain ⟨token, atStop, rfl⟩ := here
    obtain ⟨c, rest, left, rfl⟩ := Scan.getElem?_tokens atStop
    rw [left]
    exact Scan.quiet_of_kind blank string bad
  · refine Scan.tokens_of_last scan length ?_
    rw [kinds, List.getElem?_map, Option.map_eq_some_iff] at semicolon
    obtain ⟨token, here, kind⟩ := semicolon
    have final : (((Scan.tokens t.toBytes).drop start).take width).getLast? = some token := by
      have inRange := (List.getElem?_eq_some_iff.mp here).1
      rw [List.getLast?_eq_getElem?, List.length_take, List.length_drop, List.getElem?_take_of_lt (by omega),
        List.getElem?_drop, ← here]
      congr 1
      omega
    rw [final]
    simp [kind]

/-- The stream of the text that some tokens cover. -/
def piece (t : Text) (start stop : Nat) : Stream := ofText (Text.ofBytes ((ofText t).covered start stop))

section Piece

variable {t : Text} {start stop k : Nat}

private theorem record_of_piece (inOrder : start ≤ stop) (inRange : stop ≤ (ofText t).count)
    (tokens : Scan.tokens ((ofText t).covered start stop) = ((Scan.tokens t.toBytes).drop start).take (stop - start))
    {r r' : Record} (here : (ofText t).records[start + k]? = some r) (here' : (piece t start stop).records[k]? = some r')
    (inside : k < stop - start) : r'.kind = r.kind ∧ (piece t start stop).textOf r' = (ofText t).textOf r := by
  rw [records, table_ofText] at here
  rw [records, piece, table_ofText] at here'
  obtain ⟨token, atK, kind, starts, stops⟩ := Table.record_ofText here
  obtain ⟨token', atK', kind', starts', stops'⟩ := Table.record_ofText here'
  rw [Text.toBytes_ofBytes, tokens, List.take_take, Nat.min_eq_left (by omega)] at starts' stops'
  rw [Text.toBytes_ofBytes, tokens, List.getElem?_take_of_lt inside, List.getElem?_drop, atK] at atK'
  obtain rfl := Option.some.inj atK'
  have within := Token.total_take_mono (Scan.tokens t.toBytes) (k := start + k + 1) (l := stop) (by omega)
  rw [Token.total_take_add, ← starts'] at starts
  rw [Nat.add_assoc, Token.total_take_add, ← stops'] at stops within
  refine ⟨kind'.trans kind.symm, ?_⟩
  rw [textOf, textOf, piece, source_ofText, source_ofText, covered_ofText t inOrder inRange,
    Text.slice_ofBytes_slice t within, starts, stops]

private theorem kinds_of_piece
    (tokens : Scan.tokens ((ofText t).covered start stop) = ((Scan.tokens t.toBytes).drop start).take (stop - start)) :
    (piece t start stop).table.kinds = (ofText t).table.kinds.extract start stop := by
  rw [piece, table_ofText, table_ofText, Table.kinds_ofText, Table.kinds_ofText, Text.toBytes_ofBytes, tokens,
    List.extract_eq_take_drop, List.map_take, List.map_drop]

private theorem balance_of_piece (whole : Bracket.Whole (ofText t).table.kinds start stop)
    (inRange : stop ≤ (ofText t).count)
    (tokens : Scan.tokens ((ofText t).covered start stop) = ((Scan.tokens t.toBytes).drop start).take (stop - start))
    (size : (piece t start stop).count = stop - start)
    {r r' : Record} (here : (ofText t).records[start + k]? = some r) (here' : (piece t start stop).records[k]? = some r')
    (inside : k < stop - start) :
    r'.balance = if start ≤ r.balance ∧ r.balance < stop then r.balance - start else k := by
  rw [records, table_ofText] at here
  rw [records, piece, table_ofText] at here'
  have points := Table.points_ofText here
  have points' := Table.points_ofText here'
  rw [← table_ofText] at points points'
  have expected := points.extract whole (by omega) inRange
  rw [← piece, kinds_of_piece tokens, ← count, size] at points'
  exact points'.unique expected

end Piece

/-- Cut out and scanned on its own, a raw region has the tokens that it had in its source, with the same texts, and the
same matched brackets; what was balanced with a token around the region is balanced with itself. -/
theorem regionEnd?_piece (t : Text) (start : Nat) (mode : Region.Mode) (inRange : start ≤ (ofText t).count) :
    ∃ stop, (ofText t).regionEnd? start mode = some stop ∧ (piece t start stop).count = stop - start ∧
      ∀ k < stop - start, ∃ r r', (ofText t).records[start + k]? = some r ∧
        (piece t start stop).records[k]? = some r' ∧ r'.kind = r.kind ∧
        (piece t start stop).textOf r' = (ofText t).textOf r ∧
        r'.balance = if start ≤ r.balance ∧ r.balance < stop then r.balance - start else k := by
  obtain ⟨stop, found, least, le, stopInRange⟩ := regionEnd?_eq_some (.ofText t) inRange mode
  have tokens := tokens_covered t le stopInRange least.1
  have size : (piece t start stop).count = stop - start := by
    have all : (ofText t).count = (Scan.tokens t.toBytes).length := by rw [count, table_ofText, Table.size_ofText]
    rw [piece, count, table_ofText, Table.size_ofText, Text.toBytes_ofBytes, tokens, List.length_take, List.length_drop]
    omega
  refine ⟨stop, found, size, ?_⟩
  intro k inside
  have here : (ofText t).records[start + k]? = some _ := Array.getElem?_eq_getElem (by
    change start + k < (ofText t).count
    omega)
  have here' : (piece t start stop).records[k]? = some _ := Array.getElem?_eq_getElem (by
    change k < (piece t start stop).count
    omega)
  obtain ⟨kind, text⟩ := record_of_piece le stopInRange tokens here here' inside
  have whole : Bracket.Whole (ofText t).table.kinds start stop := fun i j => Region.pair_in_iff least
  exact ⟨_, _, here, here', kind, text, balance_of_piece whole stopInRange tokens size here here' inside⟩

/-- In `{a(;)]b}` the region inside of the braces has a function and a stray bracket, which the braces balance in the
source and which is balanced with itself in the piece. -/
theorem regionEnd?_piece_stray :
    let t := Text.ofString "\x7ba(;)]b\x7d"
    1 ≤ (ofText t).count ∧ (ofText t).regionEnd? 1 .semicolonIncluded = some 6 ∧
      ∃ stop, (ofText t).regionEnd? 1 .semicolonIncluded = some stop ∧ (piece t 1 stop).count = stop - 1 ∧
        ∀ k < stop - 1, ∃ r r', (ofText t).records[1 + k]? = some r ∧
          (piece t 1 stop).records[k]? = some r' ∧ r'.kind = r.kind ∧
          (piece t 1 stop).textOf r' = (ofText t).textOf r ∧
          r'.balance = if 1 ≤ r.balance ∧ r.balance < stop then r.balance - 1 else k := by
  intro t
  have inRange : 1 ≤ (ofText t).count := by decide +kernel
  exact ⟨inRange, by decide +kernel, regionEnd?_piece t 1 .semicolonIncluded inRange⟩

end Stream
end CssLex
