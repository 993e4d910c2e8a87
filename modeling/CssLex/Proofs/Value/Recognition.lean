import CssLex.Proofs.Number.Inert
import CssLex.Proofs.Number.Literal
import CssLex.Proofs.Scan.Neighbours
import CssLex.Proofs.Value.Texts
import CssLex.Value.Recognizer

/-!
A recognizer sees texts of components and not the tokens that they come from. For a number with a unit and for a colour
this makes no difference: no two tokens next to each other look like the parts of one token (`run_components_iff`).
-/

namespace CssLex

/-- The units of the sets are units in whatever case. -/
theorem UnitSet.isUnit_of_contains {units : UnitSet} (known : units ∈ all) {unit : Bytes}
    (h : units.contains unit = true) : Scan.isUnit unit = true := by
  have names : ∀ set ∈ all, ∀ name ∈ set.units, Scan.isUnit ((utf8 name).map Byte.lower) = true := by decide +kernel
  obtain ⟨name, member, same⟩ := List.any_eq_true.mp h
  rw [Bytes.equalIgnoringCase, beq_iff_eq] at same
  apply Scan.isUnit_of_lower
  rw [← same]
  exact names units known name member

/-- Each unit begins with a letter or is a percent sign. -/
private theorem UnitSet.begins_of_contains {units : UnitSet} (known : units ∈ all) {unit : Bytes}
    (h : units.contains unit = true) : Scan.begins (fun c => Byte.isLetter c || c == Byte.percentSign) unit = true := by
  rcases Scan.isUnit_iff.mp (isUnit_of_contains known h) with rfl | ⟨some, letters, -⟩
  · rfl
  · cases unit with
    | nil => exact absurd rfl some
    | cons c rest =>
      rw [Scan.begins, letters c List.mem_cons_self]
      rfl

namespace Scan

variable {c : UInt8} {rest : Bytes}

/-- Each token that begins with a number is split behind it. -/
theorem splitAt_numeric {bytes : Bytes} (number : beginsNumber bytes = true) :
    Stream.splitAt (numeric bytes).kind (bytes.take (numeric bytes).length) = numberLength bytes := by
  have fits := numeric_length_le bytes
  rcases numeric_cases bytes with ⟨-, same⟩ | ⟨-, same⟩ | ⟨-, -, same⟩
  · rw [same]
    exact Literal.length_take number (Nat.le_add_right _ _)
  · rw [same] at fits ⊢
    change (bytes.take (numberLength bytes + 1)).length - 1 = numberLength bytes
    rw [List.length_take_of_le fits, Nat.add_sub_cancel]
  · rw [same] at fits ⊢
    exact List.length_take_of_le fits

/-- A number has nothing behind its digits, a dimension or a percentage has something. -/
theorem numeric_parts (bytes : Bytes) :
    ((numeric bytes).kind = .number ∧ (numeric bytes).length = numberLength bytes) ∨
      (((numeric bytes).kind = .dimension ∨ (numeric bytes).kind = .percentage) ∧
        numberLength bytes < (numeric bytes).length) := by
  rcases numeric_cases bytes with ⟨ident, same⟩ | ⟨-, same⟩ | ⟨-, -, same⟩
  · have name := nameLength_pos (beginsNameItem_of_beginsIdent ident)
    rw [same]
    exact .inr ⟨.inl rfl, Nat.lt_add_of_pos_right name⟩
  · rw [same]
    exact .inr ⟨.inr rfl, Nat.lt_succ_self _⟩
  · rw [same]
    exact .inl ⟨rfl, rfl⟩

/-- A text with a literal in front begins with a number. -/
theorem beginsNumber_of_isNumber {number bytes : Bytes} (literal : Literal.isNumber number = true)
    (front : number <+: bytes) : beginsNumber bytes = true := by
  obtain ⟨more, rfl⟩ := front
  exact beginsNumber_append (Literal.isNumber_iff.mp literal).1 more

private theorem begins_of_front {p : UInt8 → Bool} {front bytes : Bytes} (first : begins p front = true)
    (isFront : front <+: bytes) : begins p bytes = true := by
  obtain ⟨more, rfl⟩ := isFront
  exact begins_append p first more

end Scan

namespace Recognizer

open CssLex.Scan CssLex.Stream

variable {c : UInt8} {rest : Bytes} {units : UnitSet} {components : List Component}

theorem claimDimension_isSome {first second : Option Component} :
    (claimDimension units first second).isSome = true ↔
      ∃ value unit, first = some value ∧ second = some unit ∧ unit.spaced = false ∧
        Literal.isNumber value.text = true ∧ units.contains unit.text = true := by
  cases first with
  | none => simp [claimDimension]
  | some value =>
    cases second with
    | none => simp [claimDimension]
    | some unit => simp [claimDimension, and_assoc]

/-- Nothing behind a number looks like its unit. -/
theorem not_contains_past (known : units ∈ UnitSet.all) (kind : (next (c :: rest)).kind = .number) {unit : Bytes}
    (behind : unit <+: past (c :: rest)) : units.contains unit = false := by
  refine Bool.eq_false_iff.mpr fun contained => ?_
  obtain ⟨ident, percent, -⟩ := past_number kind
  have first := begins_of_front (UnitSet.begins_of_contains known contained) behind
  cases left : past (c :: rest) with
  | nil =>
    rw [left] at first
    cases first
  | cons d more =>
    rw [left] at first ident percent
    rcases Bool.or_eq_true_iff.mp first with letter | isPercent
    · have name := Byte.isNameStart_of_isLetter letter
      simp [beginsIdent, name, Byte.not_hyphen_of_isNameStart name] at ident
    · rw [begins, isPercent] at percent
      cases percent

/-- Where a number comes first, recognition sees the number and then its unit or percent sign. -/
private theorem shown_numeric (number : beginsNumber (c :: rest) = true)
    (shown : Shows components (next (c :: rest)).kind ((c :: rest).take (next (c :: rest)).length) (past (c :: rest))) :
    (∃ first, components[0]? = some first ∧ first.text = (c :: rest).take (numberLength (c :: rest))) ∧
      (numberLength (c :: rest) < (next (c :: rest)).length → components[1]? = some (Component.ofText
        (((c :: rest).take (next (c :: rest)).length).drop (numberLength (c :: rest))) false)) ∧
      ((next (c :: rest)).length = numberLength (c :: rest) →
        ∀ second ∈ components[1]?, second.spaced = false → second.text <+: past (c :: rest)) := by
  obtain ⟨head, tail, behind⟩ := shown
  have fits := next_length_le (c :: rest)
  have split := splitAt_numeric number
  have least : numberLength (c :: rest) ≤ (next (c :: rest)).length := by
    rw [next_of_beginsNumber number]
    exact numberLength_le_numeric _
  rw [← next_of_beginsNumber number] at split
  rw [split] at head tail behind
  rw [List.take_take, Nat.min_eq_left least] at head
  refine ⟨head, ?_, ?_⟩
  · intro more
    apply tail
    rw [ne_eq, List.drop_eq_nil_iff, List.length_take]
    omega
  · intro all
    apply behind
    rw [List.drop_eq_nil_iff, List.length_take]
    omega

/-- A dimension is recognised by the token that comes first. -/
theorem claimDimension_iff (known : units ∈ UnitSet.all)
    (shown : Shows components (next (c :: rest)).kind ((c :: rest).take (next (c :: rest)).length) (past (c :: rest))) :
    (claimDimension units components[0]? components[1]?).isSome = true ↔
      ((next (c :: rest)).kind = .dimension ∨ (next (c :: rest)).kind = .percentage) ∧
        ∃ number unit, (c :: rest).take (next (c :: rest)).length = number ++ unit ∧
          number.length = Literal.length ((c :: rest).take (next (c :: rest)).length) ∧
          units.contains unit = true := by
  have fits := numberLength_le (c :: rest)
  rw [claimDimension_isSome]
  constructor
  · rintro ⟨value, unit, atHead, atNext, unspaced, literal, contained⟩
    have number : beginsNumber (c :: rest) = true := by
      obtain ⟨first, same, text⟩ := shown.head
      obtain rfl := Option.some.inj (atHead.symm.trans same)
      rw [text] at literal
      exact beginsNumber_of_isNumber literal ((List.take_prefix _ _).trans (List.take_prefix _ _))
    obtain ⟨-, tail, behind⟩ := shown_numeric number shown
    have parts := numeric_parts (c :: rest)
    rw [← next_of_beginsNumber number] at parts
    rcases parts with ⟨kind, all⟩ | ⟨kind, more⟩
    -- behind a number without a unit a unit would have to come from the next token
    · rw [not_contains_past known kind (behind all unit atNext unspaced)] at contained
      cases contained
    · obtain rfl := Option.some.inj (atNext.symm.trans (tail more))
      refine ⟨kind, _, _, (List.take_append_drop (numberLength (c :: rest)) _).symm, ?_, contained⟩
      rw [Literal.length_take number (Nat.le_of_lt more), List.take_take, Nat.min_eq_left (Nat.le_of_lt more),
        List.length_take, Nat.min_eq_left fits]
  · rintro ⟨kind, number, unit, text, length, contained⟩
    obtain ⟨begun, -⟩ := numeric_of_kind (kind.imp_right .inl)
    obtain ⟨⟨first, atHead, digits⟩, tail, -⟩ := shown_numeric begun shown
    have more : numberLength (c :: rest) < (next (c :: rest)).length := by
      have parts := numeric_parts (c :: rest)
      rw [← next_of_beginsNumber begun] at parts
      rcases parts with ⟨single, -⟩ | ⟨-, more⟩
      · rw [single] at kind
        simp at kind
      · exact more
    rw [Literal.length_take begun (Nat.le_of_lt more)] at length
    rw [text, ← length, List.drop_left] at tail
    refine ⟨first, _, atHead, tail (by omega), rfl, ?_, contained⟩
    rw [digits]
    exact Literal.isNumber_take begun

theorem claimHexColor_isSome {first second : Option Component} :
    (claimHexColor first second).isSome = true ↔
      ∃ sign digits, first = some sign ∧ second = some digits ∧ sign.text = [Byte.numberSign] ∧
        digits.spaced = false ∧ isHexDigits digits.text = true := by
  cases first with
  | none => simp [claimHexColor]
  | some sign =>
    cases second with
    | none => simp [claimHexColor]
    | some digits => simp [claimHexColor, and_assoc]

private theorem begins_of_isHexDigits {text : Bytes} (h : isHexDigits text = true) :
    begins Byte.isHexDigit text = true := by
  rw [isHexDigits, Bool.and_eq_true] at h
  cases text with
  | nil => exact absurd h.1 (by decide)
  | cons c rest => exact List.all_eq_true.mp h.2 c List.mem_cons_self

/-- Behind a number sign that is no hash nothing looks like a colour. -/
theorem not_isHexDigits_past (item : beginsNameItem rest = false) {digits : Bytes} (behind : digits <+: rest) :
    isHexDigits digits = false := by
  refine Bool.eq_false_iff.mpr fun hex => ?_
  have first := begins_imp (fun c => Byte.isName_of_isHexDigit) (begins_of_front (begins_of_isHexDigits hex) behind)
  rw [beginsNameItem, first] at item
  cases item

/-- A colour is recognised by the token that comes first. -/
theorem claimHexColor_iff
    (shown : Shows components (next (c :: rest)).kind ((c :: rest).take (next (c :: rest)).length) (past (c :: rest))) :
    (claimHexColor components[0]? components[1]?).isSome = true ↔
      (next (c :: rest)).kind = .hash ∧
        ∃ digits, (c :: rest).take (next (c :: rest)).length = Byte.numberSign :: digits ∧
          isHexDigits digits = true := by
  obtain ⟨⟨first, atHead, head⟩, tail, behind⟩ := shown
  rw [claimHexColor_isSome]
  constructor
  · rintro ⟨sign, digits, atHead', atNext, isSign, unspaced, hex⟩
    obtain rfl := Option.some.inj (atHead.symm.trans atHead')
    have same : c = Byte.numberSign := by
      have front : [Byte.numberSign] <+: c :: rest := by
        rw [← isSign, head]
        exact (List.take_prefix _ _).trans (List.take_prefix _ _)
      exact (List.cons_prefix_cons.mp front).1.symm
    subst same
    unfold past at behind
    rw [next_numberSign] at head tail behind ⊢
    split at head
    · rename_i item
      have name := nameLength_pos item
      rw [if_pos item] at tail ⊢
      refine ⟨rfl, rest.take (nameLength rest), rfl, ?_⟩
      have some : rest.take (nameLength rest) ≠ [] := by
        have fits := nameLength_le rest
        rw [ne_eq, ← List.length_eq_zero_iff, List.length_take]
        omega
      obtain rfl := Option.some.inj (atNext.symm.trans (tail some))
      exact hex
    · rename_i item
      rw [if_neg item] at behind
      rw [Bool.not_eq_true] at item
      rw [not_isHexDigits_past item (behind rfl digits atNext unspaced)] at hex
      cases hex
  · rintro ⟨kind, digits, text, hex⟩
    rw [kind, text] at head tail
    have some : digits ≠ [] := by
      rintro rfl
      cases begins_of_isHexDigits hex
    exact ⟨first, _, atHead, tail some, head, rfl, hex⟩

/-- On a fresh list recognition looks at its first two components. -/
theorem run_ofList (r : Recognizer) (components : List Component) :
    (r.run (ComponentInput.ofList components)).1 = (r.claim? components[0]? components[1]?).isSome := by
  have peek : ∀ k, Input.peek? (ComponentInput.ofList components) k = components[k]? := by
    intro k
    change components[0 + k]? = _
    rw [Nat.zero_add]
  rw [run_fst, peek, peek]

/-- From each place of the cursor in a string the texts are found. Among their components a dimension is recognised just
if the first token that is neither whitespace nor a comment is a number with a unit of the set, and a colour just if that
token is a hash of 3, 4, 6 or 8 hex digits. -/
theorem run_components_iff {s : Stream} {source : String} (reachable : s.Reachable)
    (same : s.source = Text.ofString source) {units : UnitSet} (known : units ∈ UnitSet.all) :
    ∃ texts, ValueTexts.ofStream? s = some texts ∧
      (((dimension units).run (ComponentInput.ofList texts.components)).1 = true ↔
        ∃ r, s.firstValue? = some r ∧ (r.kind = .dimension ∨ r.kind = .percentage) ∧
          ∃ number unit, s.textOf r = number ++ unit ∧ number.length = Literal.length (s.textOf r) ∧
            ∃ name ∈ units.units, (utf8 name).equalIgnoringCase unit = true) ∧
      ((hexColor.run (ComponentInput.ofList texts.components)).1 = true ↔
        ∃ r, s.firstValue? = some r ∧ r.kind = .hash ∧
          ∃ digits, s.textOf r = Byte.numberSign :: digits ∧ digits.length ∈ [3, 4, 6, 8] ∧
            ∀ b ∈ digits, Byte.isHexDigit b = true) := by
  obtain ⟨texts, cut, holds⟩ := ValueTexts.ofStream?_eq reachable same
  refine ⟨texts, cut, ?_⟩
  rw [run_ofList, run_ofList, claim?, claim?, holds.components]
  cases found : s.firstValue? with
  | none => simp [components_none found, claimDimension, claimHexColor]
  | some r =>
    obtain ⟨c, rest, kind, text, shown⟩ := components_found reachable found
    rw [kind, text] at shown
    simp only [Option.some.injEq, exists_eq_left', kind, text, claimDimension_iff known shown, claimHexColor_iff shown]
    refine ⟨?_, ?_⟩
    · simp only [UnitSet.contains, List.any_eq_true]
    · simp only [isHexDigits, Bool.and_eq_true, List.contains_iff_mem, List.all_eq_true]

/-- In `a/**/10PX#0fF` there is a length behind the comment, and then a colour. -/
theorem run_components_iff_comment :
    let source := "a/**/10PX#0fF"
    let s := (Stream.ofString source).next
    let t := s.next.next
    (s.Reachable ∧ s.source = Text.ofString source ∧ UnitSet.length ∈ UnitSet.all ∧
      ∃ texts, ValueTexts.ofStream? s = some texts ∧
        ((dimension .length).run (ComponentInput.ofList texts.components)).1 = true) ∧
    (t.Reachable ∧ t.source = Text.ofString source ∧
      ∃ texts, ValueTexts.ofStream? t = some texts ∧ (hexColor.run (ComponentInput.ofList texts.components)).1 = true) := by
  intro source s t
  have reachable : s.Reachable := .next (.ofText _)
  have known : UnitSet.length ∈ UnitSet.all := by decide
  have same : s.source = Text.ofString source := by rw [next_source, ofString, source_ofText]
  have same' : t.source = Text.ofString source := by rw [next_source, next_source, same]
  have text : s.textOf ⟨.dimension, 5, 9, 2⟩ = utf8 "10" ++ utf8 "PX" := by decide +kernel
  obtain ⟨texts, cut, isLength, -⟩ := run_components_iff reachable same known
  obtain ⟨texts', cut', -, isColor⟩ := run_components_iff reachable.next.next same' known
  refine ⟨⟨reachable, same, known, texts, cut, isLength.mpr ?_⟩, reachable.next.next, same', texts', cut', isColor.mpr ?_⟩
  · refine ⟨⟨.dimension, 5, 9, 2⟩, by decide +kernel, .inl rfl, utf8 "10", utf8 "PX", text, ?_, "px", ?_, ?_⟩
    · rw [text]
      decide +kernel
    · exact List.mem_cons_self
    · decide +kernel
  · exact ⟨⟨.hash, 9, 13, 3⟩, by decide +kernel, rfl, utf8 "0fF", by decide +kernel, by decide, by decide +kernel⟩

end Recognizer
end CssLex
