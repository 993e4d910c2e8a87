import CssLex.Proofs.Stream.Cursor
import CssLex.Value.Input
import Mathlib.Logic.Function.Iterate

/-!
A skip is so many steps, and what a lookahead shows is what the cursor is on after the skip. With offsets in words this
takes three ways of guarding a sum, which agree because no table has as many records as there are words
(`foresees_skipBy`).
-/

namespace CssLex.Stream

variable {s t : Stream} {i j k : Nat}

/-- Where the cursor is put does not depend on where it was. -/
private theorem seek_congr (source : s.source = t.source) (table : s.table = t.table) (i : Nat) :
    s.seek i = t.seek i := by
  cases s
  cases t
  cases source
  cases table
  rfl

theorem seek_seek (s : Stream) (i j : Nat) : (s.seek i).seek j = s.seek j :=
  seek_congr (seek_source s i) (seek_table s i) j

/-- All places past the last token are the end of input. -/
private theorem seek_past (first : s.count ≤ i) (second : s.count ≤ j) : s.seek i = s.seek j := by
  have noFirst : s.records[i]? = none := Array.getElem?_eq_none_iff.mpr first
  have noSecond : s.records[j]? = none := Array.getElem?_eq_none_iff.mpr second
  rw [seek, seek, noFirst, noSecond]

private theorem seek_min (s : Stream) (i : Nat) : s.seek (min i s.count) = s.seek i := by
  rcases Nat.lt_or_ge i s.count with inside | past
  · rw [Nat.min_eq_left (Nat.le_of_lt inside)]
  · rw [Nat.min_eq_right past]
    exact seek_past (Nat.le_refl _) past

/-- A cursor that is put where it is stays the same. -/
private theorem Placed.seek_self (placed : s.Placed) : s.seek s.index = s := by
  rw [seek]
  cases here : s.records[s.index]? with
  | some r =>
    obtain ⟨atEnd, kind, start, stop⟩ := placed.onToken r here
    cases s
    cases atEnd
    cases kind
    cases start
    cases stop
    rfl
  | none =>
    have last := Nat.le_antisymm placed.inRange (Array.getElem?_eq_none_iff.mp here)
    obtain ⟨atEnd, kind, atStart, atStop⟩ := placed.atEnd last
    obtain ⟨source, table, index, _, start, stop, _⟩ := s
    obtain rfl : index = table.size := last
    obtain rfl : start = source.size := atStart
    obtain rfl : stop = source.size := atStop
    cases atEnd
    cases kind
    rfl

private theorem Placed.next_eq (placed : s.Placed) : s.next = s.seek (s.index + 1) := by
  rw [Stream.next]
  split
  · rename_i ended
    have last := placed.atEnd_iff.mp ended
    calc
      s = s.seek s.index := placed.seek_self.symm
      _ = s.seek (s.index + 1) := seek_past (Nat.le_of_eq last.symm) (by omega)
  · rfl

theorem Placed.skip_eq (placed : s.Placed) (n : Nat) : s.skip n = s.seek (s.index + n) := by
  rw [Stream.skip]
  split
  · rename_i zero
    rw [zero, Nat.add_zero, placed.seek_self]
  · exact seek_min s _

private theorem Placed.skip (placed : s.Placed) (n : Nat) : (s.skip n).Placed := by
  rw [placed.skip_eq]
  exact placed_seek _ _

private theorem Placed.skip_succ (placed : s.Placed) (n : Nat) : s.skip (n + 1) = (s.skip n).next := by
  have index := seek_index s (s.index + n)
  rw [(placed.skip n).next_eq, placed.skip_eq n, placed.skip_eq (n + 1), seek_seek, index]
  rcases Nat.lt_or_ge (s.index + n) s.count with inside | past
  · rw [Nat.min_eq_left (Nat.le_of_lt inside), Nat.add_assoc]
  · exact seek_past (by omega) (by omega)

/-- A skip is a number of steps. -/
theorem Placed.skip_eq_iterate (placed : s.Placed) (n : Nat) : s.skip n = Stream.next^[n] s := by
  induction n with
  | zero => rfl
  | succ n ih => rw [placed.skip_succ, ih, Function.iterate_succ_apply']

/-- Two skips are one. -/
theorem Placed.skip_skip (placed : s.Placed) (m n : Nat) : (s.skip m).skip n = s.skip (m + n) := by
  rw [(placed.skip m).skip_eq_iterate, placed.skip_eq_iterate m, placed.skip_eq_iterate, ← Function.iterate_add_apply,
    Nat.add_comm]

/-- All skips to the end of input or beyond are the same. -/
theorem Placed.skip_past (placed : s.Placed) {m n : Nat} (first : s.count ≤ s.index + m)
    (second : s.count ≤ s.index + n) : s.skip m = s.skip n := by
  rw [placed.skip_eq, placed.skip_eq]
  exact seek_past first second

theorem Placed.index_skip (placed : s.Placed) (n : Nat) : (s.skip n).index = min (s.index + n) s.count := by
  rw [placed.skip_eq, seek_index]

/-- What is ahead is what the cursor is on after a skip. -/
theorem Placed.peek?_skip (placed : s.Placed) (n : Nat) :
    s.peek? n = (s.skip n).records[(s.skip n).index]? := by
  have records : (s.skip n).records = s.records := congrArg Table.records (skip_table s n)
  change s.records[s.index + n]? = _
  rw [records, placed.index_skip]
  rcases Nat.lt_or_ge (s.index + n) s.count with inside | past
  · rw [Nat.min_eq_left (Nat.le_of_lt inside)]
  · have none : s.records[s.index + n]? = none := Array.getElem?_eq_none_iff.mpr past
    rw [Nat.min_eq_right past, none]
    exact (Array.getElem?_eq_none_iff.mpr (Nat.le_refl _)).symm

/-- There is no record at the cursor just at the end of input. -/
theorem Placed.current_eq_none_iff (placed : s.Placed) : s.records[s.index]? = none ↔ s.atEnd = true := by
  have inRange := placed.inRange
  rw [placed.atEnd_iff, Array.getElem?_eq_none_iff]
  change s.count ≤ s.index ↔ _
  omega

/-- The cursor keeps what the record at its index says. -/
private theorem Placed.kind_eq (placed : s.Placed) : s.kind = (s.records[s.index]?.map Record.kind).getD .eof := by
  cases here : s.records[s.index]? with
  | some r => exact (placed.onToken r here).2.1
  | none => exact (placed.atEnd (placed.atEnd_iff.mp (placed.current_eq_none_iff.mp here))).2.1

private theorem Placed.text_eq (placed : s.Placed) {r : Record} (here : s.records[s.index]? = some r) :
    s.text = s.textOf r := by
  obtain ⟨-, -, start, stop⟩ := placed.onToken r here
  rw [text, textOf, start, stop]

private theorem drop_records {r : Record} (here : s.records[i]? = some r) :
    s.records.toList.drop i = r :: s.records.toList.drop (i + 1) := by
  rw [← Array.getElem?_toList] at here
  obtain ⟨inside, rfl⟩ := List.getElem?_eq_some_iff.mp here
  exact List.drop_eq_getElem_cons inside

/-- Steps while a condition on kinds holds lead to the first token that does not meet it. -/
theorem Placed.kind_stepWhile (placed : s.Placed) {p : Kind → Bool} (stops : p .eof = false) {limit : Nat}
    (enough : s.count ≤ s.index + limit) :
    (Stream.stepWhile p limit s).kind =
      (((s.records.toList.drop s.index).find? (!p ·.kind)).map Record.kind).getD .eof := by
  induction limit generalizing s with
  | zero =>
    have none : s.records.toList.drop s.index = [] := List.drop_eq_nil_iff.mpr (Array.length_toList.trans_le enough)
    rw [none]
    exact (placed.atEnd (Nat.le_antisymm placed.inRange enough)).2.1
  | succ limit ih =>
    rw [Stream.stepWhile]
    cases here : s.records[s.index]? with
    | none =>
      have past : s.count ≤ s.index := Array.getElem?_eq_none_iff.mp here
      have none : s.records.toList.drop s.index = [] := List.drop_eq_nil_iff.mpr (Array.length_toList.trans_le past)
      have kind := (placed.atEnd (Nat.le_antisymm placed.inRange past)).2.1
      rw [none, kind, stops]
      exact kind
    | some r =>
      have inside : s.index < s.count := (Array.getElem?_eq_some_iff.mp here).1
      have kind := (placed.onToken r here).2.1
      have index : s.next.index = s.index + 1 := by
        rw [placed.index_next]
        omega
      have records : s.next.records = s.records := congrArg Table.records (next_table s)
      rw [drop_records here, List.find?_cons, kind]
      cases more : p r.kind with
      | false => simpa using kind
      | true =>
        have count : s.next.count = s.count := congrArg Table.size (next_table s)
        have rest := ih placed.next (by omega)
        rw [index, records] at rest
        simpa using rest

private theorem drop_records_min (s : Stream) (i : Nat) :
    s.records.toList.drop (min i s.count) = s.records.toList.drop i := by
  rcases Nat.lt_or_ge i s.count with inside | past
  · rw [Nat.min_eq_left (Nat.le_of_lt inside)]
  · have size : s.records.toList.length = s.count := Array.length_toList
    rw [Nat.min_eq_right past, List.drop_eq_nil_iff.mpr (size.trans_le past),
      List.drop_eq_nil_iff.mpr (Nat.le_of_eq size)]

/-- Behind trivia ahead is what the cursor comes to when it skips them. -/
theorem Placed.kindPastTrivia_eq (placed : s.Placed) (n : Nat) :
    s.kindPastTrivia n = (s.skip n).skipTrivia.kind := by
  have records : (s.skip n).records = s.records := congrArg Table.records (skip_table s n)
  have first := (placed.skip n).kind_stepWhile (p := Kind.isTrivia) rfl (Nat.le_add_left (s.skip n).count _)
  rw [skipTrivia, first, records, placed.index_skip, drop_records_min]
  rfl

/-- A source that is not too long has fewer tokens than there are words. -/
theorem Reachable.count_lt (reached : s.Reachable) (fits : s.source.size ≤ Text.sizeLimit) : s.count < UInt64.size := by
  have limit : Text.sizeLimit < UInt64.size := by decide
  calc
    s.count = (Table.ofText s.source).size := congrArg Table.size reached.table_eq
    _ ≤ s.source.size := Table.size_ofText_le s.source
    _ < UInt64.size := Nat.lt_of_le_of_lt fits limit

section

variable (placed : s.Placed) (few : s.count < UInt64.size)
include placed few

private theorem toNat_indexWord : s.indexWord.toNat = s.index := by
  have inRange := placed.inRange
  exact UInt64.toNat_ofNat_of_lt' (by omega)

/-- A sum that is refused leads past the last token. -/
theorem peekBy?_eq (k : UInt64) : s.peekBy? k = s.peek? k.toNat := by
  have index := toNat_indexWord placed few
  rw [peekBy?, recordBy?]
  rcases Nat.lt_or_ge (s.indexWord.toNat + k.toNat) UInt64.size with fits | exceeds
  · obtain ⟨sum, found, value⟩ := Word.add?_eq_some fits
    rw [found, Option.bind_some, value, index]
    rfl
  · rw [Word.add?_eq_none exceeds, Option.bind_none]
    symm
    exact Array.getElem?_eq_none_iff.mpr (by change s.count ≤ s.index + k.toNat; omega)

/-- A sum that is clamped leads past the last token. -/
private theorem min_addClamped (k : UInt64) :
    min (Word.addClamped s.indexWord k).toNat s.count = min (s.index + k.toNat) s.count := by
  rw [Word.toNat_addClamped, toNat_indexWord placed few]
  omega

theorem skipBy_eq (k : UInt64) : s.skipBy k = s.skip k.toNat := by
  by_cases still : k = 0
  · subst still
    rfl
  · have moves : k.toNat ≠ 0 := fun zero => still (UInt64.toNat_inj.mp zero)
    rw [skipBy, skip, if_neg still, if_neg moves, min_addClamped placed few]

theorem kindBy_eq (k : UInt64) : s.kindBy k = s.kindAhead k.toNat := by
  rw [kindBy, kindAhead, peekBy?_eq placed few]

theorem isDelimBy_eq (c : Char) (k : UInt64) : s.isDelimBy c k = s.isDelimAt c k.toNat := by
  have same := peekBy?_eq placed few k
  cases ahead : s.peek? k.toNat <;> simp [isDelimBy, isDelimAt, same, ahead]

theorem kindPastTriviaBy_eq (k : UInt64) : s.kindPastTriviaBy k = s.kindPastTrivia k.toNat := by
  rw [kindPastTriviaBy, kindPastTrivia, min_addClamped placed few, drop_records_min]

end

/-- What the lookahead by `k` shows is what the cursor is on after a skip by `k`. -/
structure Foresees (s : Stream) (k : UInt64) : Prop where
  peek_none_iff : s.peekBy? k = none ↔ (s.skipBy k).atEnd = true
  component_none_iff : s.componentBy? k = none ↔ (s.skipBy k).atEnd = true
  /-- The record is the current one, and so are the kind and the span that the cursor keeps. -/
  record : ∀ r, s.peekBy? k = some r → (s.skipBy k).records[(s.skipBy k).index]? = some r ∧
    (s.skipBy k).kind = r.kind ∧ (s.skipBy k).start = r.start ∧ (s.skipBy k).stop = r.stop
  text : ∀ c, s.componentBy? k = some c → c.text = (s.skipBy k).text
  kind : s.kindBy k = (s.skipBy k).kind
  delim : ∀ c, s.isDelimBy c k = (s.skipBy k).isDelim c
  kindPastTrivia : s.kindPastTriviaBy k = (s.skipBy k).skipTrivia.kind

theorem Placed.foresees (placed : s.Placed) (few : s.count < UInt64.size) (k : UInt64) : s.Foresees k := by
  have after := placed.skip k.toNat
  have ahead := placed.peek?_skip k.toNat
  have source : (s.skip k.toNat).source = s.source := skip_source s _
  constructor
  case peek_none_iff => rw [peekBy?_eq placed few, skipBy_eq placed few, ahead, after.current_eq_none_iff]
  case component_none_iff =>
    rw [componentBy?, Option.map_eq_none_iff, peekBy?_eq placed few, skipBy_eq placed few, ahead,
      after.current_eq_none_iff]
  case record =>
    intro r here
    rw [peekBy?_eq placed few, ahead] at here
    rw [skipBy_eq placed few]
    exact ⟨here, (after.onToken r here).2⟩
  case text =>
    intro c here
    obtain ⟨r, found, rfl⟩ := Option.map_eq_some_iff.mp here
    rw [peekBy?_eq placed few, ahead] at found
    rw [skipBy_eq placed few, after.text_eq found, textOf, textOf, source]
    rfl
  case kind => rw [kindBy_eq placed few, skipBy_eq placed few, after.kind_eq, kindAhead, ahead]
  case delim =>
    intro c
    rw [isDelimBy_eq placed few, skipBy_eq placed few, isDelim, isDelimAt, isDelimAt, ahead]
    simp only [textOf, source]
    rfl
  case kindPastTrivia =>
    rw [kindPastTriviaBy_eq placed few, skipBy_eq placed few, placed.kindPastTrivia_eq]

/-- Looking ahead agrees with moving: a lookahead by any word shows what the cursor is on after a skip by that word, also
at the end of input and beyond; a skip is as many steps; and two skips are one by the sum of both or, if that is too
great for a word, by the greatest word. -/
theorem foresees_skipBy (reached : s.Reachable) (fits : s.source.size ≤ Text.sizeLimit) (k : UInt64) :
    s.Foresees k ∧ s.skipBy k = Stream.next^[k.toNat] s ∧
      ∀ n, (s.skipBy k).skipBy n = s.skipBy (.ofNat (min (k.toNat + n.toNat) (UInt64.size - 1))) := by
  have placed := reached.placed
  have few := reached.count_lt fits
  have after := placed.skip k.toNat
  have few' : (s.skip k.toNat).count < UInt64.size := by
    rw [Stream.count, skip_table]
    exact few
  refine ⟨placed.foresees few k, ?_, ?_⟩
  · rw [skipBy_eq placed few, placed.skip_eq_iterate]
  · intro n
    have sum : (UInt64.ofNat (min (k.toNat + n.toNat) (UInt64.size - 1))).toNat =
        min (k.toNat + n.toNat) (UInt64.size - 1) := UInt64.toNat_ofNat_of_lt' (by omega)
    rw [skipBy_eq placed few, skipBy_eq after few', skipBy_eq placed few, placed.skip_skip, sum]
    rcases Nat.lt_or_ge (k.toNat + n.toNat) UInt64.size with inWord | exceeds
    · rw [Nat.min_eq_left (by omega)]
    · exact placed.skip_past (by omega) (by omega)

/-- On the last token of `a b` the greatest word has no sum with the index, and leads to the end of input. -/
theorem foresees_skipBy_greatest :
    let s := (ofString "a b").skip 2
    s.Reachable ∧ s.source.size ≤ Text.sizeLimit ∧ Word.add? s.indexWord Word.greatest = none ∧
      s.peekBy? Word.greatest = none ∧ (s.skipBy Word.greatest).atEnd = true := by
  intro s
  have reached : s.Reachable := .skip (.ofText _) 2
  have fits : s.source.size ≤ Text.sizeLimit := by decide +kernel
  have exceeds : Word.add? s.indexWord Word.greatest = none := by decide +kernel
  have ended : (s.skipBy Word.greatest).atEnd = true := by decide +kernel
  have ahead := (foresees_skipBy reached fits Word.greatest).1
  exact ⟨reached, fits, exceeds, ahead.peek_none_iff.mpr ended, ended⟩

end CssLex.Stream
