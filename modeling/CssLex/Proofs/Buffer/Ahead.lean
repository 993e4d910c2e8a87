import CssLex.Buffer.Scanner
import CssLex.Scan.Tokens

namespace CssLex.Buffer

@[simp] theorem ok_bind {α β : Type} (a : α) (f : α → Except Fault β) : (Except.ok a >>= f) = f a := rfl

@[simp] theorem map_ok {α β : Type} (f : α → β) (a : α) : (f <$> (Except.ok a : Except Fault α)) = .ok (f a) := rfl

@[simp] theorem pure_eq_ok {α : Type} (a : α) : (pure a : Except Fault α) = .ok a := rfl

/-- From `pos` on there are the bytes `bytes` of the source and then zeros. -/
structure Ahead (b : Buffer) (pos : Nat) (bytes : Bytes) : Prop where
  length : pos + bytes.length = b.length
  left : ∃ zeros, 5 ≤ zeros ∧ b.bytes.toList.drop pos = bytes ++ List.replicate zeros 0

private theorem paddedSize_ge (length : Nat) : length + 5 ≤ paddedSize length := by
  unfold paddedSize lookahead lineSize
  omega

theorem ahead_ofText (t : Text) {pos : Nat} (inRange : pos ≤ t.size) : (ofText t).Ahead pos (t.toBytes.drop pos) := by
  have room := paddedSize_ge t.size
  refine ⟨?_, paddedSize t.size - t.size, by omega, ?_⟩
  · rw [List.length_drop, Text.length_toBytes]
    show pos + (t.size - pos) = t.size
    omega
  · have past : pos - t.toBytes.length = 0 := by
      rw [Text.length_toBytes]
      omega
    simp only [ofText, Array.toList_append, Array.toList_replicate]
    rw [List.drop_append]
    show t.toBytes.drop pos ++ (List.replicate _ 0).drop (pos - t.toBytes.length) = _
    rw [past, List.drop_zero]

variable {b : Buffer} {pos : Nat} {bytes rest : Bytes} {c : UInt8}

private theorem read_eq_ok {index : Nat} (here : b.bytes[index]? = some c) : b.read index = .ok c := by
  obtain ⟨inRange, rfl⟩ := Array.getElem?_eq_some_iff.mp here
  rw [read, dif_pos inRange]

namespace Ahead

/-- Reads of the bytes that are left and of the first zeros after them stay in the buffer. -/
theorem read_add (h : b.Ahead pos bytes) {k : Nat} (near : k ≤ bytes.length + 4) :
    b.read (pos + k) = .ok (bytes.getD k 0) := by
  obtain ⟨zeros, many, left⟩ := h.left
  apply read_eq_ok
  rw [← Array.getElem?_toList, ← List.getElem?_drop, left, List.getD_eq_getElem?_getD]
  rcases Nat.lt_or_ge k bytes.length with inside | past
  · rw [List.getElem?_append_left inside, List.getElem?_eq_getElem inside]
    rfl
  · rw [List.getElem?_append_right past, List.getElem?_replicate_of_lt (by omega), List.getElem?_eq_none past]
    rfl

theorem read (h : b.Ahead pos bytes) : b.read pos = .ok (bytes.getD 0 0) := h.read_add (Nat.zero_le _)

theorem read_cons (h : b.Ahead pos (c :: rest)) : b.read pos = .ok c := h.read

theorem get (h : b.Ahead pos bytes) : ∃ inRange : pos < b.bytes.size, b.bytes[pos] = bytes.getD 0 0 := by
  have here := h.read
  unfold Buffer.read at here
  split at here
  case isTrue inRange => exact ⟨inRange, Except.ok.inj here⟩
  case isFalse => cases here

theorem drop (h : b.Ahead pos bytes) {n : Nat} (fits : n ≤ bytes.length) : b.Ahead (pos + n) (bytes.drop n) := by
  obtain ⟨zeros, many, left⟩ := h.left
  refine ⟨?_, zeros, many, ?_⟩
  · have := h.length
    rw [List.length_drop]
    omega
  · rw [← List.drop_drop, left, List.drop_append_of_le_length fits]

theorem tail (h : b.Ahead pos (c :: rest)) : b.Ahead (pos + 1) rest := h.drop (n := 1) (by simp)

theorem span (h : b.Ahead pos bytes) {n : Nat} (fits : n ≤ bytes.length) :
    b.span pos (pos + n) = .ok (bytes.take n) := by
  obtain ⟨zeros, many, left⟩ := h.left
  have room : pos + n ≤ b.bytes.size := by
    have size := congrArg List.length left
    rw [List.length_drop, List.length_append, List.length_replicate, Array.length_toList] at size
    have := h.length
    omega
  rw [Buffer.span, if_pos (by simp [room]), Array.toList_extract, List.extract_eq_take_drop, left,
    Nat.add_sub_cancel_left, List.take_append_of_le_length fits]

private theorem isEnd_add (h : b.Ahead pos bytes) (k : Nat) : b.isEnd (pos + k) = decide (bytes.length ≤ k) := by
  have := h.length
  rw [isEnd, decide_eq_decide]
  omega

theorem isEnd (h : b.Ahead pos bytes) : b.isEnd pos = decide (bytes.length ≤ 0) := h.isEnd_add 0

theorem end_iff (h : b.Ahead pos bytes) : b.length ≤ pos ↔ bytes = [] := by
  have := h.length
  rw [← List.length_eq_zero_iff]
  omega

theorem not_end (h : b.Ahead pos (c :: rest)) : ¬b.length ≤ pos := by simp [h.end_iff]

end Ahead

/-- The zeros after the source belong to no class that a scanner looks for. -/
theorem begins_eq_getD (p : UInt8 → Bool) (zero : p 0 = false) (bytes : Bytes) :
    p (bytes.getD 0 0) = Scan.begins p bytes := by
  cases bytes with
  | nil => exact zero
  | cons c rest => rfl

theorem isPrefixOf_cons_eq {x : UInt8} (mark : x ≠ 0) (xs bytes : Bytes) :
    (x :: xs).isPrefixOf bytes = (bytes.getD 0 0 == x && xs.isPrefixOf bytes.tail) := by
  cases bytes with
  | nil => simp [mark.symm]
  | cons d rest => simp [List.isPrefixOf, BEq.comm (a := x)]

theorem escapeAt_eq (h : b.Ahead pos bytes) : b.escapeAt pos = .ok (Scan.beginsEscape bytes) := by
  rw [escapeAt, h.read, ok_bind]
  cases bytes with
  | nil => rfl
  | cons c rest =>
    by_cases backslash : c = Byte.reverseSolidus
    · subst backslash
      rw [h.tail.isEnd, h.tail.read]
      cases rest with
      | nil => rfl
      | cons d rest => simp [Scan.beginsEscape, Scan.begins]
    · simp [Scan.beginsEscape, backslash]

theorem nameItemAt_eq (h : b.Ahead pos bytes) : b.nameItemAt pos = .ok (Scan.beginsNameItem bytes) := by
  rw [nameItemAt, h.read, ok_bind, begins_eq_getD Byte.isName (by decide), escapeAt_eq h]
  cases name : Scan.begins Byte.isName bytes <;> simp [Scan.beginsNameItem, name]

theorem identAt_eq (h : b.Ahead pos bytes) : b.identAt pos = .ok (Scan.beginsIdent bytes) := by
  rw [identAt, h.isEnd, h.read, escapeAt_eq h]
  cases bytes with
  | nil => rfl
  | cons c rest =>
    rw [h.tail.read, escapeAt_eq h.tail]
    by_cases hyphen : c = Byte.hyphen
    · subst hyphen
      cases rest with
      | nil => rfl
      | cons d rest =>
        by_cases start : Byte.isNameStart d = true ∨ d = Byte.hyphen <;>
          simp [Scan.beginsIdent, Scan.begins, start]
    · by_cases backslash : c = Byte.reverseSolidus
      · subst backslash
        have start : Byte.isNameStart Byte.reverseSolidus = false := by decide
        simp [Scan.beginsIdent, start, hyphen]
      · simp [Scan.beginsIdent, Scan.beginsEscape, hyphen, backslash]

theorem fractionAt_eq (h : b.Ahead pos bytes) :
    b.fractionAt pos = .ok (bytes.getD 0 0 == Byte.fullStop && Scan.begins Byte.isDigit bytes.tail) := by
  rw [fractionAt, h.read, ok_bind, h.read_add (k := 1) (by omega), ok_bind, pure_eq_ok,
    ← begins_eq_getD Byte.isDigit (by decide)]
  cases bytes <;> rfl

theorem numberAt_eq (h : b.Ahead pos bytes) : b.numberAt pos = .ok (Scan.beginsNumber bytes) := by
  rw [numberAt, h.read, fractionAt_eq h]
  cases bytes with
  | nil => rfl
  | cons c rest =>
    rw [h.tail.read, fractionAt_eq h.tail]
    by_cases sign : Byte.isSign c = true
    · cases rest with
      | nil =>
        have zero : Byte.isDigit 0 = false := by decide
        simp [Scan.beginsNumber, Scan.beginsUnsigned, Scan.begins, zero, sign]
      | cons d rest => cases digit : Byte.isDigit d <;> simp [Scan.beginsNumber, Scan.beginsUnsigned, sign, digit]
    · by_cases point : c = Byte.fullStop
      · subst point
        have digit : Byte.isDigit Byte.fullStop = false := by decide
        simp [Scan.beginsNumber, Scan.beginsUnsigned, sign, digit]
      · simp [Scan.beginsNumber, Scan.beginsUnsigned, sign, point]

theorem runLength_eq (p : UInt8 → Bool) (zero : p 0 = false) (h : b.Ahead pos bytes) :
    b.runLength p pos = .ok (Scan.runLength p bytes) := by
  induction bytes generalizing pos with
  | nil =>
    obtain ⟨inRange, here⟩ := h.get
    simp [runLength, inRange, here, zero, Scan.runLength]
  | cons c rest ih =>
    obtain ⟨inRange, here⟩ := h.get
    rw [runLength, dif_pos inRange, here, ih h.tail]
    cases inside : p c <;> simp [Scan.runLength, inside]

/-- Inside the source zero may be in the class. -/
theorem sourceRunLength_eq (p : UInt8 → Bool) (h : b.Ahead pos bytes) :
    b.sourceRunLength p pos = .ok (Scan.runLength p bytes) := by
  induction bytes generalizing pos with
  | nil =>
    rw [sourceRunLength, if_pos (h.end_iff.mpr rfl)]
    rfl
  | cons c rest ih =>
    rw [sourceRunLength, if_neg h.not_end, h.read_cons, ih h.tail]
    cases inside : p c <;> simp [Scan.runLength, inside]

theorem whitespaceLength_eq (h : b.Ahead pos bytes) :
    b.whitespaceLength pos = .ok (Scan.whitespaceLength bytes) := runLength_eq _ (by decide) h

theorem digitsLength_eq (h : b.Ahead pos bytes) : b.digitsLength pos = .ok (Scan.digitsLength bytes) :=
  runLength_eq _ (by decide) h

theorem charLength_eq (h : b.Ahead pos bytes) : b.charLength pos = .ok (Scan.charLength bytes) := by
  rw [charLength, h.isEnd, h.read]
  cases bytes with
  | nil => rfl
  | cons c rest =>
    have room : b.length - pos = (c :: rest).length := by
      have := h.length
      omega
    rw [room]
    exact congrArg Except.ok List.length_take.symm

end CssLex.Buffer
