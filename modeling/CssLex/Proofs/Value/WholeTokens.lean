import CssLex.Proofs.Value.Recognition
import CssLex.Proofs.Value.Simulation

/-!
Read from a stream, a component is a whole token. A number is then never apart from its unit, nor a number sign from the
colour behind it, and no two tokens look as if they were: of the types that are made of parts only a zero without a unit
is found (`run_stream`).
-/

namespace CssLex

namespace Scan

variable {c : UInt8} {rest : Bytes}

/-- A token whose text is a literal is a number. -/
private theorem kind_of_isNumber (literal : Literal.isNumber ((c :: rest).take (next (c :: rest)).length) = true) :
    (next (c :: rest)).kind = .number := by
  have number := beginsNumber_of_isNumber literal (List.take_prefix _ _)
  have parts := numeric_parts (c :: rest)
  have fits := next_length_le (c :: rest)
  rw [← next_of_beginsNumber number] at parts
  rcases parts with ⟨kind, -⟩ | ⟨-, more⟩
  · exact kind
  · obtain ⟨-, same⟩ := Literal.take_number number (Nat.le_of_lt more)
    have whole := (Literal.isNumber_iff.mp literal).2
    rw [same, List.length_take] at whole
    omega

/-- Behind a token that is only a number sign there is no colour. -/
private theorem not_isHexDigits_behind (text : (c :: rest).take (next (c :: rest)).length = [Byte.numberSign])
    {digits : Bytes} (behind : digits <+: past (c :: rest)) : Recognizer.isHexDigits digits = false := by
  have long := next_length_pos c rest
  obtain ⟨n, length⟩ := Nat.exists_eq_add_of_lt long
  obtain rfl : c = Byte.numberSign := by
    rw [length, List.take_succ_cons] at text
    exact (List.cons.inj text).1
  rw [past, next_numberSign] at behind
  rw [next_numberSign] at text
  cases item : beginsNameItem rest with
  | false =>
    rw [item] at behind
    exact Recognizer.not_isHexDigits_past item behind
  | true =>
    have name := nameLength_pos item
    have fits := nameLength_le rest
    rw [item, if_pos rfl, List.take_succ_cons] at text
    have none := congrArg List.length (List.cons.inj text).2
    rw [List.length_take, Nat.min_eq_left fits, List.length_nil] at none
    omega

end Scan

namespace Stream

open CssLex.Scan

variable {s : Stream} {k : Nat} {c : Component}

/-- A component of a stream is the token at the front of the bytes ahead. -/
theorem Reachable.component?_ahead (reachable : s.Reachable) (here : s.component? k = some c) :
    ∃ b rest, Token.ahead (tokens s.source.toBytes) s.source.toBytes (s.index + k) = b :: rest ∧
      c.text = (b :: rest).take (Scan.next (b :: rest)).length ∧
      Token.ahead (tokens s.source.toBytes) s.source.toBytes (s.index + (k + 1)) = past (b :: rest) := by
  rw [component?_eq, Option.map_eq_some_iff] at here
  obtain ⟨r, here, rfl⟩ := here
  rw [records, reachable.table_eq] at here
  obtain ⟨b, rest, ahead, -, text, behind⟩ := Table.ahead_ofText here
  exact ⟨b, rest, ahead, text, behind⟩

/-- The second component stands right behind the first. -/
theorem Reachable.component?_pair (reachable : s.Reachable) {first second : Component}
    (atFirst : s.component? 0 = some first) (atSecond : s.component? 1 = some second) :
    ∃ b rest, first.text = (b :: rest).take (Scan.next (b :: rest)).length ∧ second.text <+: past (b :: rest) := by
  obtain ⟨b, rest, -, text, behind⟩ := reachable.component?_ahead atFirst
  obtain ⟨b', rest', ahead, text', -⟩ := reachable.component?_ahead atSecond
  refine ⟨b, rest, text, ?_⟩
  rw [← behind, ahead, text']
  exact List.take_prefix _ _

/-- The component at the cursor is the current token; there is none just at the end of input. -/
theorem Reachable.component?_current (reachable : s.Reachable) :
    (s.component? 0 = none ∧ s.kind = .eof) ∨
      s.index < s.count ∧ ∃ c b rest, s.component? 0 = some c ∧ c.text = s.text ∧
        s.kind = (Scan.next (b :: rest)).kind ∧ s.text = (b :: rest).take (Scan.next (b :: rest)).length := by
  have placed := reachable.placed
  rw [component?_eq]
  cases here : s.records[s.index]? with
  | none =>
    have past : s.count ≤ s.index := Array.getElem?_eq_none_iff.mp here
    left
    exact ⟨rfl, (placed.atEnd (Nat.le_antisymm placed.inRange past)).2.1⟩
  | some r =>
    obtain ⟨-, kind, start, stop⟩ := placed.onToken r here
    have text : s.text = s.textOf r := by rw [Stream.text, textOf, start, stop]
    have inRange : s.index < s.count := (Array.getElem?_eq_some_iff.mp here).1
    right
    rw [records, reachable.table_eq] at here
    obtain ⟨b, rest, -, ofKind, ofText, -⟩ := Table.ahead_ofText here
    exact ⟨inRange, _, b, rest, rfl, text.symm, kind.trans ofKind, text.trans ofText⟩

end Stream

namespace Recognizer

open CssLex.Scan CssLex.Stream

variable {s : Stream} {units : UnitSet}

private theorem isZero_iff {x : Binary64} : isZero x = true ↔ ∃ negative, x = ⟨negative, 0⟩ := by
  obtain ⟨negative, magnitude⟩ := x
  simp only [isZero, Binary64.order, beq_iff_eq, Binary64.mk.injEq, exists_eq_left']
  split <;> omega

theorem claimDimension_stream (reachable : s.Reachable) (known : units ∈ UnitSet.all) :
    claimDimension units (s.component? 0) (s.component? 1) = none := by
  rw [← Option.not_isSome_iff_eq_none, claimDimension_isSome]
  rintro ⟨value, unit, atHead, atNext, -, literal, contained⟩
  obtain ⟨b, rest, text, behind⟩ := reachable.component?_pair atHead atNext
  rw [text] at literal
  rw [not_contains_past known (kind_of_isNumber literal) behind] at contained
  cases contained

theorem claimHexColor_stream (reachable : s.Reachable) : claimHexColor (s.component? 0) (s.component? 1) = none := by
  rw [← Option.not_isSome_iff_eq_none, claimHexColor_isSome]
  rintro ⟨sign, digits, atHead, atNext, isSign, -, hex⟩
  obtain ⟨b, rest, text, behind⟩ := reachable.component?_pair atHead atNext
  rw [not_isHexDigits_behind (text.symm.trans isSign) behind] at hex
  cases hex

/-- At the cursor a zero is a number that is zero. -/
private theorem claimOne_isZero_stream (reachable : s.Reachable) :
    (claimOne (acceptsValue isZero) (s.component? 0)).isSome = true ↔
      s.kind = .number ∧ ∃ negative, Literal.value? s.text = some ⟨negative, 0⟩ := by
  rcases reachable.component?_current with ⟨none, atEnd⟩ | ⟨-, c, b, rest, here, text, kind, front⟩
  · rw [none, atEnd]
    exact iff_of_false Bool.false_ne_true fun number => nomatch number.1
  · rw [here, claimOne_isSome, text, acceptsValue, Option.any_eq_true]
    constructor
    · rintro ⟨x, value, zero⟩
      obtain ⟨negative, rfl⟩ := isZero_iff.mp zero
      refine ⟨?_, negative, value⟩
      rw [front] at value
      rw [kind]
      apply kind_of_isNumber
      obtain ⟨l, literal, -⟩ := Option.map_eq_some_iff.mp value
      rw [Literal.isNumber, literal, Option.isSome_some]
    · rintro ⟨-, negative, value⟩
      exact ⟨_, value, isZero_iff.mpr ⟨negative, rfl⟩⟩

/-- On a stream there are no dimensions and no colours, and nothing is taken for them. A zero without a unit is a number
that is zero; it is one token. -/
theorem run_stream (reachable : s.Reachable) (known : units ∈ UnitSet.all) :
    (dimension units).run s = (false, s) ∧ hexColor.run s = (false, s) ∧
      (((zeroUnitlessDimension units).run s).1 = true ↔
        s.kind = .number ∧ ∃ negative, Literal.value? s.text = some ⟨negative, 0⟩) ∧
      (((zeroUnitlessDimension units).run s).1 = true →
        ((zeroUnitlessDimension units).run s).2 = s.next ∧ s.next.index = s.index + 1) := by
  have peek (k : Nat) : Input.peek? s k = s.component? k := rfl
  have noDimension := claimDimension_stream reachable known
  have noColor := claimHexColor_stream reachable
  refine ⟨?_, ?_, ?_, ?_⟩
  · rw [run, claim?, peek, peek, noDimension]
  · rw [run, claim?, peek, peek, noColor]
  · rw [run_fst, claim?, peek, peek, noDimension, Option.none_or]
    exact claimOne_isZero_stream reachable
  · intro found
    rw [run_fst, claim?, peek, peek, noDimension, Option.none_or] at found
    obtain ⟨isNumber, -⟩ := (claimOne_isZero_stream reachable).mp found
    obtain ⟨count, claim⟩ := Option.isSome_iff_exists.mp found
    obtain ⟨rfl, -⟩ := claimOne_eq_some claim
    rcases reachable.component?_current with ⟨-, atEnd⟩ | ⟨inRange, -⟩
    · rw [atEnd] at isNumber
      cases isNumber
    · rw [run_of_claim_one (by rw [claim?, peek, peek, noDimension, Option.none_or, claim])]
      refine ⟨rfl, ?_⟩
      rw [reachable.placed.index_next]
      omega

/-- In `-0e9#fff 10px` the number is a length, but the colour and the length behind it are not found. -/
theorem run_stream_zero :
    let s := Stream.ofString "-0e9#fff 10px"
    s.Reachable ∧ UnitSet.length ∈ UnitSet.all ∧ ((zeroUnitlessDimension .length).run s).1 = true ∧
      ((zeroUnitlessDimension .length).run s).2.index = 1 ∧ s.next.kind = .hash ∧
      hexColor.run s.next = (false, s.next) ∧ (s.skip 3).kind = .dimension ∧
      (dimension .length).run (s.skip 3) = (false, s.skip 3) := by
  intro s
  have reachable : s.Reachable := .ofText _
  have known : UnitSet.length ∈ UnitSet.all := by decide
  obtain ⟨-, -, zero, taken⟩ := run_stream reachable known
  have recognised := zero.mpr ⟨by decide +kernel, true, by decide +kernel⟩
  obtain ⟨left, index⟩ := taken recognised
  have first : s.index = 0 := Stream.index_ofText _
  refine ⟨reachable, known, recognised, ?_, by decide +kernel, (run_stream reachable.next known).2.1, by decide +kernel,
    (run_stream (reachable.skip 3) known).1⟩
  rw [left, index, first]

end Recognizer
end CssLex
