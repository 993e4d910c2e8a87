import CssLex.Proofs.Byte.Classes
import CssLex.Text
import Mathlib.Data.List.Chain

namespace CssLex

private theorem isContinuation_ofNat : ∀ n < 0xC0, 0x80 ≤ n → Byte.isContinuation (.ofNat n) = true := by
  decide +kernel

theorem not_isContinuation_of_ascii : ∀ {c}, c < 0x80 → Byte.isContinuation c = false := by
  decide +kernel

theorem not_ascii_of_isContinuation : ∀ {c}, Byte.isContinuation c = true → ¬c < 0x80 := by
  decide +kernel

/-- The byte that begins a character beyond ASCII is above all continuation bytes. -/
private theorem not_isContinuation_ofNat : ∀ n < 0x100, 0xC0 ≤ n →
    Byte.isContinuation (.ofNat n) = false ∧ ¬UInt8.ofNat n < 0x80 := by
  decide +kernel

/-- The first byte of a character tells how many bytes it has. -/
private theorem width_ofNat : ∀ n < 0xF8, (n < 0xC0 → Byte.width (.ofNat n) = 1) ∧
    (0xC0 ≤ n → n < 0xE0 → Byte.width (.ofNat n) = 2) ∧ (0xE0 ≤ n → n < 0xF0 → Byte.width (.ofNat n) = 3) ∧
    (0xF0 ≤ n → Byte.width (.ofNat n) = 4) := by
  decide +kernel

theorem exists_utf8EncodeChar (c : Char) :
    ∃ lead rest, String.utf8EncodeChar c = lead :: rest ∧ Byte.isContinuation lead = false ∧
      (lead < 0x80 ↔ rest = []) ∧ Byte.width lead = rest.length + 1 ∧ ∀ b ∈ rest, Byte.isContinuation b = true := by
  unfold String.utf8EncodeChar
  dsimp only
  split
  · rename_i ascii
    have single : c.val.toNat.toUInt8 < 0x80 := by
      rw [UInt8.lt_iff_toNat_lt]
      exact Nat.lt_of_le_of_lt (Nat.mod_le _ _) (Nat.lt_succ_of_le ascii)
    refine ⟨_, _, rfl, not_isContinuation_of_ascii single, iff_of_true single rfl, ?_, by simp⟩
    exact (width_ofNat c.val.toNat (by omega)).1 (by omega)
  split
  · obtain ⟨first, beyond⟩ := not_isContinuation_ofNat (c.val.toNat / 64 % 0x20 + 0xC0) (by omega) (by omega)
    refine ⟨_, _, rfl, first, iff_of_false beyond (by simp), ?_, ?_⟩
    · exact (width_ofNat (c.val.toNat / 64 % 0x20 + 0xC0) (by omega)).2.1 (by omega) (by omega)
    simp only [List.mem_cons, List.not_mem_nil, or_false, forall_eq]
    exact isContinuation_ofNat _ (by omega) (by omega)
  split
  · obtain ⟨first, beyond⟩ := not_isContinuation_ofNat (c.val.toNat / 4096 % 0x10 + 0xE0) (by omega) (by omega)
    refine ⟨_, _, rfl, first, iff_of_false beyond (by simp), ?_, ?_⟩
    · exact (width_ofNat (c.val.toNat / 4096 % 0x10 + 0xE0) (by omega)).2.2.1 (by omega) (by omega)
    simp only [List.mem_cons, List.not_mem_nil, or_false, forall_eq_or_imp, forall_eq]
    exact ⟨isContinuation_ofNat _ (by omega) (by omega), isContinuation_ofNat _ (by omega) (by omega)⟩
  · obtain ⟨first, beyond⟩ := not_isContinuation_ofNat (c.val.toNat / 262144 % 0x08 + 0xF0) (by omega) (by omega)
    refine ⟨_, _, rfl, first, iff_of_false beyond (by simp), ?_, ?_⟩
    · exact (width_ofNat (c.val.toNat / 262144 % 0x08 + 0xF0) (by omega)).2.2.2 (by omega)
    simp only [List.mem_cons, List.not_mem_nil, or_false, forall_eq_or_imp, forall_eq]
    exact ⟨isContinuation_ofNat _ (by omega) (by omega), isContinuation_ofNat _ (by omega) (by omega),
      isContinuation_ofNat _ (by omega) (by omega)⟩

/-- The first byte of a text that begins with a character, and how the character goes on. -/
theorem exists_continued {char : Char} {c : UInt8} {rest more : Bytes}
    (same : c :: rest = String.utf8EncodeChar char ++ more) :
    ∃ continued, String.utf8EncodeChar char = c :: continued ∧ rest = continued ++ more ∧
      Byte.isContinuation c = false ∧ (c < 0x80 ↔ continued = []) ∧
      ∀ b ∈ continued, Byte.isContinuation b = true := by
  obtain ⟨lead, continued, encoded, first, single, -, later⟩ := exists_utf8EncodeChar char
  rw [encoded, List.cons_append, List.cons.injEq] at same
  obtain ⟨rfl, rfl⟩ := same
  exact ⟨continued, encoded, rfl, first, single, later⟩

/-- An ASCII byte is a character by itself. -/
theorem eq_of_ascii {char : Char} {c : UInt8} {rest more : Bytes}
    (same : c :: rest = String.utf8EncodeChar char ++ more) (ascii : c < 0x80) :
    String.utf8EncodeChar char = [c] ∧ rest = more := by
  obtain ⟨continued, encoded, rfl, -, single, -⟩ := exists_continued same
  obtain rfl := single.mp ascii
  exact ⟨encoded, List.nil_append more⟩

theorem utf8_eq_flatMap (s : String) : utf8 s = s.toList.flatMap String.utf8EncodeChar := by
  rw [utf8, ← String.utf8Encode_toList, List.utf8Encode, List.data_toByteArray]

/-- Characters do not begin with a continuation byte, and an ASCII byte is a character by itself. -/
theorem isChain_characters (chars : List Char) :
    (chars.flatMap String.utf8EncodeChar).IsChain (fun a b => a < 0x80 → Byte.isContinuation b = false) ∧
      ∀ b ∈ (chars.flatMap String.utf8EncodeChar).head?, Byte.isContinuation b = false := by
  induction chars with
  | nil => simp
  | cons c chars ih =>
    obtain ⟨lead, rest, encoded, first, single, -, more⟩ := exists_utf8EncodeChar c
    obtain ⟨chain, next⟩ := ih
    rw [List.flatMap_cons, encoded]
    refine ⟨List.IsChain.append ?_ chain fun a _ b follows _ => next b follows, by simpa using first⟩
    by_cases ascii : lead < 0x80
    · rw [single.mp ascii]
      exact .singleton lead
    · have beyond : ∀ b ∈ lead :: rest, ¬b < 0x80 := by
        simp only [List.mem_cons, forall_eq_or_imp]
        exact ⟨ascii, fun b member => not_ascii_of_isContinuation (more b member)⟩
      exact List.isChain_iff_getElem.mpr fun i inRange ascii => absurd ascii (beyond _ (List.getElem_mem _))

/-- Characters one after the other, none of them cut. -/
def IsUtf8 (bytes : Bytes) : Prop := ∃ chars : List Char, bytes = chars.flatMap String.utf8EncodeChar

theorem isUtf8_utf8 (s : String) : IsUtf8 (utf8 s) := ⟨s.toList, utf8_eq_flatMap s⟩

namespace IsUtf8

variable {c : UInt8} {rest u v : Bytes}

theorem exists_char (valid : IsUtf8 (c :: rest)) :
    ∃ char more, c :: rest = String.utf8EncodeChar char ++ more ∧ IsUtf8 more := by
  obtain ⟨chars, same⟩ := valid
  cases chars with
  | nil => simp at same
  | cons char chars => exact ⟨char, _, same, chars, rfl⟩

theorem not_isContinuation (valid : IsUtf8 (c :: rest)) : Byte.isContinuation c = false := by
  obtain ⟨char, more, same, -⟩ := valid.exists_char
  obtain ⟨continued, -, -, first, -⟩ := exists_continued same
  exact first

/-- Behind an ASCII byte there are whole characters. -/
theorem tail (valid : IsUtf8 (c :: rest)) (ascii : c < 0x80) : IsUtf8 rest := by
  obtain ⟨char, more, same, left⟩ := valid.exists_char
  rw [(eq_of_ascii same ascii).2]
  exact left

/-- From a byte that begins a character on there are whole characters. -/
theorem drop_to (valid : IsUtf8 (u ++ c :: rest)) (first : Byte.isContinuation c = false) : IsUtf8 (c :: rest) := by
  obtain ⟨chars, same⟩ := valid
  induction chars generalizing u with
  | nil => simp at same
  | cons char chars ih =>
    rw [List.flatMap_cons, List.append_eq_append_iff] at same
    rcases same with ⟨inside, encoded, left⟩ | ⟨more, rfl, left⟩
    · obtain ⟨lead, continued, single, -, -, -, later⟩ := exists_utf8EncodeChar char
      cases inside with
      | nil => exact ⟨chars, left⟩
      | cons d inside =>
        obtain ⟨rfl, left⟩ := List.cons.inj left
        rw [single] at encoded
        cases u with
        | nil =>
          rw [List.nil_append] at encoded
          exact ⟨char :: chars, by rw [List.flatMap_cons, single, encoded, left, List.cons_append]⟩
        | cons b u =>
          -- the byte would continue the character
          have member : c ∈ continued := by
            rw [(List.cons.inj encoded).2]
            simp
          rw [later c member] at first
          cases first
    · exact ih left.symm

theorem of_append (valid : IsUtf8 (u ++ v)) (ascii : ∀ c ∈ u, c < 0x80) : IsUtf8 v := by
  induction u with
  | nil => exact valid
  | cons c u ih =>
    rw [List.forall_mem_cons] at ascii
    exact ih (valid.tail ascii.1) ascii.2

end IsUtf8

namespace Text

/-- The offset after an ASCII byte of a string is between two characters. -/
theorem isBoundary_succ (s : String) {offset : Nat} {c : UInt8} (here : (utf8 s)[offset]? = some c)
    (ascii : c < 0x80) : (ofString s).isBoundary (offset + 1) = true := by
  have chain := (isChain_characters s.toList).1
  rw [← utf8_eq_flatMap, List.isChain_iff_getElem] at chain
  obtain ⟨inRange, rfl⟩ := List.getElem?_eq_some_iff.mp here
  rw [isBoundary]
  split
  · rename_i d next
    obtain ⟨more, rfl⟩ := Array.getElem?_eq_some_iff.mp next
    have first := chain offset more ascii
    simp only [Bool.or_eq_true, Bool.not_eq_true']
    exact .inr first
  · rename_i past
    have past : s.toByteArray.data.size ≤ offset + 1 := Array.getElem?_eq_none_iff.mp past
    have inside : offset < s.toByteArray.data.size := by simpa [utf8] using inRange
    have last : offset + 1 = (ofString s).size := Nat.le_antisymm inside past
    simp [last]

/-- The offset of a byte that continues no character is between two characters. -/
theorem isBoundary_of_ascii (t : Text) {offset : Nat} {c : UInt8} (here : t.bytes[offset]? = some c)
    (ascii : c < 0x80) : t.isBoundary offset = true := by
  simp [isBoundary, here, not_isContinuation_of_ascii ascii]

theorem isBoundary_zero (t : Text) : t.isBoundary 0 = true := by
  rw [isBoundary]
  split
  · rfl
  · rename_i empty
    have : t.bytes.size = 0 := Nat.le_zero.mp (Array.getElem?_eq_none_iff.mp empty)
    simp [size, this]

theorem isBoundary_size (t : Text) : t.isBoundary t.size = true := by
  simp [isBoundary, size]

theorem le_size_of_isBoundary {t : Text} {offset : Nat} (boundary : t.isBoundary offset = true) : offset ≤ t.size := by
  rw [isBoundary] at boundary
  split at boundary
  · rename_i b here
    exact Nat.le_of_lt (Array.getElem?_eq_some_iff.mp here).1
  · exact Nat.le_of_eq (eq_of_beq boundary)

/-- From every place between two characters the rest of a text can be cut out. -/
theorem slice?_size {t : Text} {offset : Nat} (boundary : t.isBoundary offset = true) :
    t.slice? offset t.size = some (t.toBytes.drop offset) := by
  have fits : (t.toBytes.drop offset).length ≤ t.size - offset := by rw [List.length_drop, length_toBytes]
  rw [slice?, boundary, isBoundary_size, if_pos (by simpa using le_size_of_isBoundary boundary), slice_eq,
    List.take_of_length_le fits]

end Text

end CssLex
