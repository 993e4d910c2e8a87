import CssLex.Proofs.Text.Characters
import CssLex.Text.Utf8
import Mathlib.Data.List.Forall2

/-!
The ranges that `following` gives are those of the encodings of characters, with overlong forms and surrogates left out
(`exists_following`, `exists_encoded`). So a sequence that is read whole is a character, one that is broken off is a
maximal subpart, and one that is cut begins a character that the input does not complete. The first error is found
where the longest well-formed start ends, and repair goes on behind the maximal subpart (`Error.locates`).
-/

namespace CssLex.Utf8

/-- The byte is in the range. -/
def Allows (range : Range) (b : UInt8) : Prop := range.1 ≤ b ∧ b ≤ range.2

/-- Each byte is in the range beside it. -/
abbrev Within (ranges : List Range) (bytes : Bytes) : Prop := List.Forall₂ Allows ranges bytes

/-- The second of three bytes: no fewer of them would do, and they are no surrogate. -/
def secondOfThree (lead : Nat) : Range :=
  (.ofNat (if lead = 0xE0 then 0xA0 else 0x80), .ofNat (if lead = 0xED then 0x9F else 0xBF))

/-- The second of four bytes: no fewer of them would do, and they are a code point. -/
def secondOfFour (lead : Nat) : Range :=
  (.ofNat (if lead = 0xF0 then 0x90 else 0x80), .ofNat (if lead = 0xF4 then 0x8F else 0xBF))

private theorem following_one : ∀ a ≤ 0x7F, following (.ofNat a) = some [] := by
  decide +kernel

private theorem following_two : ∀ a ≤ 0xDF, 0xC2 ≤ a → following (.ofNat a) = some [tail] := by
  decide +kernel

private theorem following_three : ∀ a ≤ 0xEF, 0xE0 ≤ a → following (.ofNat a) = some [secondOfThree a, tail] := by
  decide +kernel

private theorem following_four : ∀ a ≤ 0xF4, 0xF0 ≤ a → following (.ofNat a) = some [secondOfFour a, tail, tail] := by
  decide +kernel

/-- There are no other first bytes. -/
private theorem following_cases : ∀ a < 0x100, ∀ ranges ∈ following (.ofNat a),
    a ≤ 0x7F ∧ ranges = [] ∨ (0xC2 ≤ a ∧ a ≤ 0xDF) ∧ ranges = [tail] ∨
      (0xE0 ≤ a ∧ a ≤ 0xEF) ∧ ranges = [secondOfThree a, tail] ∨
      (0xF0 ≤ a ∧ a ≤ 0xF4) ∧ ranges = [secondOfFour a, tail, tail] := by
  decide +kernel

/-- No range is empty. -/
private theorem following_ordered {lead : UInt8} {ranges : List Range} (found : following lead = some ranges) :
    ∀ range ∈ ranges, range.1 ≤ range.2 := by
  have all : ∀ a < 0x100, (following (.ofNat a)).all (·.all fun range => decide (range.1 ≤ range.2)) = true := by
    decide +kernel
  have here := all lead.toNat lead.toNat_lt
  rw [lead.ofNat_toNat, found, Option.all_some, List.all_eq_true] at here
  exact fun range member => of_decide_eq_true (here range member)

private theorem allows_ofNat {least greatest n : Nat} (inByte : n < 0x100) (least_lt : least < 0x100)
    (greatest_lt : greatest < 0x100) :
    Allows (.ofNat least, .ofNat greatest) (.ofNat n) ↔ least ≤ n ∧ n ≤ greatest := by
  rw [Allows, UInt8.le_iff_toNat_le, UInt8.le_iff_toNat_le, UInt8.toNat_ofNat_of_lt' inByte,
    UInt8.toNat_ofNat_of_lt' least_lt, UInt8.toNat_ofNat_of_lt' greatest_lt]

section

variable {lead n : Nat} (inByte : n < 0x100)
include inByte

private theorem allows_tail : Allows tail (.ofNat n) ↔ 0x80 ≤ n ∧ n ≤ 0xBF := by
  change Allows (.ofNat 0x80, .ofNat 0xBF) (.ofNat n) ↔ _
  exact allows_ofNat inByte (by decide) (by decide)

private theorem allows_secondOfThree : Allows (secondOfThree lead) (.ofNat n) ↔
    (0x80 ≤ n ∧ n ≤ 0xBF) ∧ (lead = 0xE0 → 0xA0 ≤ n) ∧ (lead = 0xED → n ≤ 0x9F) := by
  rw [secondOfThree, allows_ofNat inByte (by split <;> decide) (by split <;> decide)]
  split <;> split <;> omega

private theorem allows_secondOfFour : Allows (secondOfFour lead) (.ofNat n) ↔
    (0x80 ≤ n ∧ n ≤ 0xBF) ∧ (lead = 0xF0 → 0x90 ≤ n) ∧ (lead = 0xF4 → n ≤ 0x8F) := by
  rw [secondOfFour, allows_ofNat inByte (by split <;> decide) (by split <;> decide)]
  split <;> split <;> omega

end

/-- The encoding of a character is a first byte and bytes that may follow it. -/
theorem exists_following (char : Char) :
    ∃ lead rest ranges, String.utf8EncodeChar char = lead :: rest ∧ following lead = some ranges ∧
      Within ranges rest := by
  have valid := char.valid
  rw [UInt32.isValidChar, Nat.isValidChar] at valid
  unfold String.utf8EncodeChar
  dsimp only
  generalize char.val.toNat = v at valid
  -- one case for each number of bytes; what the second byte is narrowed by are the bounds of the case and `valid`
  split
  · exact ⟨_, _, _, rfl, following_one v (by omega), .nil⟩
  split
  · refine ⟨_, _, _, rfl, following_two (v / 64 % 0x20 + 0xC0) (by omega) (by omega), .cons ?_ .nil⟩
    exact (allows_tail (by omega)).mpr (by omega)
  split
  · refine ⟨_, _, _, rfl, following_three (v / 4096 % 0x10 + 0xE0) (by omega) (by omega), .cons ?_ (.cons ?_ .nil)⟩
    · exact (allows_secondOfThree (by omega)).mpr (by omega)
    · exact (allows_tail (by omega)).mpr (by omega)
  · refine ⟨_, _, _, rfl, following_four (v / 262144 % 0x08 + 0xF0) (by omega) (by omega),
      .cons ?_ (.cons ?_ (.cons ?_ .nil))⟩
    · exact (allows_secondOfFour (by omega)).mpr (by omega)
    · exact (allows_tail (by omega)).mpr (by omega)
    · exact (allows_tail (by omega)).mpr (by omega)

private theorem exists_scalar {v : Nat} (valid : v < 0xD800 ∨ 0xDFFF < v ∧ v < 0x110000) :
    ∃ char : Char, char.val.toNat = v :=
  ⟨Char.ofNatAux v valid, rfl⟩

private theorem encode_one {a : Nat} (lead : a ≤ 0x7F) : ∃ char, String.utf8EncodeChar char = [.ofNat a] := by
  obtain ⟨char, value⟩ := exists_scalar (v := a) (by omega)
  refine ⟨char, ?_⟩
  rw [String.utf8EncodeChar, value]
  exact if_pos lead

private theorem encode_two {a b : Nat} (lead : 0xC2 ≤ a ∧ a ≤ 0xDF) (second : 0x80 ≤ b ∧ b ≤ 0xBF) :
    ∃ char, String.utf8EncodeChar char = [.ofNat a, .ofNat b] := by
  obtain ⟨v, bits⟩ : ∃ v, v = (a - 0xC0) * 64 + (b - 0x80) := ⟨_, rfl⟩
  obtain ⟨char, value⟩ := exists_scalar (v := v) (by omega)
  have first : v / 64 % 0x20 + 0xC0 = a := by omega
  have last : v % 0x40 + 0x80 = b := by omega
  refine ⟨char, ?_⟩
  rw [String.utf8EncodeChar]
  simp only [value]
  rw [if_neg (by omega), if_pos (by omega), first, last]

/-- No three bytes for what two would do, and none for surrogates. -/
private theorem encode_three {a b c : Nat} (lead : 0xE0 ≤ a ∧ a ≤ 0xEF) (second : 0x80 ≤ b ∧ b ≤ 0xBF)
    (third : 0x80 ≤ c ∧ c ≤ 0xBF) (long : a = 0xE0 → 0xA0 ≤ b) (scalar : a = 0xED → b ≤ 0x9F) :
    ∃ char, String.utf8EncodeChar char = [.ofNat a, .ofNat b, .ofNat c] := by
  obtain ⟨v, bits⟩ : ∃ v, v = (a - 0xE0) * 4096 + (b - 0x80) * 64 + (c - 0x80) := ⟨_, rfl⟩
  obtain ⟨char, value⟩ := exists_scalar (v := v) (by omega)
  have first : v / 4096 % 0x10 + 0xE0 = a := by omega
  have next : v / 64 % 0x40 + 0x80 = b := by omega
  have last : v % 0x40 + 0x80 = c := by omega
  refine ⟨char, ?_⟩
  rw [String.utf8EncodeChar]
  simp only [value]
  rw [if_neg (by omega), if_neg (by omega), if_pos (by omega), first, next, last]

/-- No four bytes for what three would do, and none for what is no code point. -/
private theorem encode_four {a b c d : Nat} (lead : 0xF0 ≤ a ∧ a ≤ 0xF4) (second : 0x80 ≤ b ∧ b ≤ 0xBF)
    (third : 0x80 ≤ c ∧ c ≤ 0xBF) (fourth : 0x80 ≤ d ∧ d ≤ 0xBF) (long : a = 0xF0 → 0x90 ≤ b)
    (scalar : a = 0xF4 → b ≤ 0x8F) :
    ∃ char, String.utf8EncodeChar char = [.ofNat a, .ofNat b, .ofNat c, .ofNat d] := by
  obtain ⟨v, bits⟩ : ∃ v, v = (a - 0xF0) * 262144 + (b - 0x80) * 4096 + (c - 0x80) * 64 + (d - 0x80) := ⟨_, rfl⟩
  obtain ⟨char, value⟩ := exists_scalar (v := v) (by omega)
  have first : v / 262144 % 0x08 + 0xF0 = a := by omega
  have next : v / 4096 % 0x40 + 0x80 = b := by omega
  have next' : v / 64 % 0x40 + 0x80 = c := by omega
  have last : v % 0x40 + 0x80 = d := by omega
  refine ⟨char, ?_⟩
  rw [String.utf8EncodeChar]
  simp only [value]
  rw [if_neg (by omega), if_neg (by omega), if_neg (by omega), first, next, next', last]

/-- Bytes that may follow a first byte make a character with it. -/
theorem exists_encoded {lead : UInt8} {ranges : List Range} {rest : Bytes} (found : following lead = some ranges)
    (inside : Within ranges rest) : ∃ char, String.utf8EncodeChar char = lead :: rest := by
  have ofNat (b : UInt8) : ∃ n < 0x100, b = .ofNat n := ⟨b.toNat, b.toNat_lt, b.ofNat_toNat.symm⟩
  obtain ⟨a, inByte, rfl⟩ := ofNat lead
  rcases following_cases a inByte ranges found with
    ⟨ascii, rfl⟩ | ⟨two, rfl⟩ | ⟨three, rfl⟩ | ⟨four, rfl⟩
  · obtain rfl := List.forall₂_nil_left_iff.mp inside
    exact encode_one ascii
  · obtain ⟨b, _, second, none, rfl⟩ := List.forall₂_cons_left_iff.mp inside
    obtain rfl := List.forall₂_nil_left_iff.mp none
    obtain ⟨b, inByte, rfl⟩ := ofNat b
    exact encode_two two ((allows_tail inByte).mp second)
  · obtain ⟨b, _, second, more, rfl⟩ := List.forall₂_cons_left_iff.mp inside
    obtain ⟨c, _, third, none, rfl⟩ := List.forall₂_cons_left_iff.mp more
    obtain rfl := List.forall₂_nil_left_iff.mp none
    obtain ⟨b, inByte, rfl⟩ := ofNat b
    obtain ⟨c, inByte', rfl⟩ := ofNat c
    obtain ⟨second, long, scalar⟩ := (allows_secondOfThree inByte).mp second
    exact encode_three three second ((allows_tail inByte').mp third) long scalar
  · obtain ⟨b, _, second, more, rfl⟩ := List.forall₂_cons_left_iff.mp inside
    obtain ⟨c, _, third, more', rfl⟩ := List.forall₂_cons_left_iff.mp more
    obtain ⟨d, _, fourth, none, rfl⟩ := List.forall₂_cons_left_iff.mp more'
    obtain rfl := List.forall₂_nil_left_iff.mp none
    obtain ⟨b, inByte, rfl⟩ := ofNat b
    obtain ⟨c, inByte', rfl⟩ := ofNat c
    obtain ⟨d, inByte'', rfl⟩ := ofNat d
    obtain ⟨second, long, scalar⟩ := (allows_secondOfFour inByte).mp second
    exact encode_four four second ((allows_tail inByte').mp third) ((allows_tail inByte'').mp fourth) long scalar

/-- The bytes begin the encoding of a character. -/
def Begins (bytes : Bytes) : Prop := ∃ char more, String.utf8EncodeChar char = bytes ++ more

private theorem Begins.take {bytes : Bytes} (begins : Begins bytes) (n : Nat) : Begins (bytes.take n) := by
  obtain ⟨char, more, encoded⟩ := begins
  exact ⟨char, bytes.drop n ++ more, by rw [encoded, ← List.append_assoc, List.take_append_drop]⟩

/-- As far as there are bytes, each is in the range beside it. -/
def Fits : List Range → Bytes → Prop
  | _, [] => True
  | [], _ :: _ => False
  | range :: ranges, b :: rest => Allows range b ∧ Fits ranges rest

private theorem fits_iff {ranges : List Range} (ordered : ∀ range ∈ ranges, range.1 ≤ range.2) (bytes : Bytes) :
    Fits ranges bytes ↔ ∃ more, Within ranges (bytes ++ more) := by
  induction ranges generalizing bytes with
  | nil => cases bytes <;> simp [Fits]
  | cons range ranges ih =>
    obtain ⟨first, ordered⟩ := List.forall_mem_cons.mp ordered
    cases bytes with
    | nil =>
      obtain ⟨more, inside⟩ := (ih ordered []).mp (by simp [Fits])
      exact iff_of_true trivial ⟨range.1 :: more, .cons ⟨UInt8.le_refl _, first⟩ inside⟩
    | cons b rest => simp [Fits, ih ordered rest, List.forall₂_cons]

/-- What begins a character is a first byte with bytes that may follow it, as far as there are any. -/
private theorem begins_cons_iff (lead : UInt8) (rest : Bytes) :
    Begins (lead :: rest) ↔ ∃ ranges, following lead = some ranges ∧ Fits ranges rest := by
  constructor
  · rintro ⟨char, more, encoded⟩
    obtain ⟨lead', bytes, ranges, encoded', found, inside⟩ := exists_following char
    rw [encoded', List.cons_append, List.cons.injEq] at encoded
    obtain ⟨rfl, rfl⟩ := encoded
    exact ⟨ranges, found, (fits_iff (following_ordered found) rest).mpr ⟨more, inside⟩⟩
  · rintro ⟨ranges, found, fits⟩
    obtain ⟨more, inside⟩ := (fits_iff (following_ordered found) rest).mp fits
    obtain ⟨char, encoded⟩ := exists_encoded found inside
    exact ⟨char, more, encoded⟩

namespace Sequence

variable {ranges : List Range} {rest : Bytes} {read n : Nat}

private theorem follow_append (inside : Within ranges rest) (more : Bytes) (read : Nat) :
    follow ranges (rest ++ more) read = .whole (read + rest.length) := by
  induction inside generalizing read with
  | nil => simp [follow]
  | @cons range b ranges rest allowed _ ih =>
    obtain ⟨least, greatest⟩ := range
    have here : (least ≤ b && b ≤ greatest) = true := by simpa [Allows] using allowed
    rw [List.cons_append, follow, if_pos here, ih, List.length_cons, Nat.add_assoc, Nat.add_comm 1]

private theorem whole_of_follow (found : follow ranges rest read = .whole n) :
    ∃ inside more, rest = inside ++ more ∧ Within ranges inside ∧ n = read + inside.length := by
  induction ranges generalizing rest read with
  | nil =>
    obtain rfl := Sequence.whole.inj found
    exact ⟨[], rest, rfl, .nil, rfl⟩
  | cons range ranges ih =>
    obtain ⟨least, greatest⟩ := range
    cases rest with
    | nil => cases found
    | cons b rest =>
      rw [follow] at found
      split at found
      · rename_i allowed
        obtain ⟨inside, more, rfl, within, rfl⟩ := ih found
        refine ⟨b :: inside, more, rfl, .cons (by simpa [Allows] using allowed) within, ?_⟩
        rw [List.length_cons]
        omega
      · cases found

/-- A sequence is broken off behind the bytes that fit, and the next one does not fit. -/
private theorem broken_of_follow (found : follow ranges rest read = .broken n) :
    ∃ k < rest.length, n = read + k ∧ Fits ranges (rest.take k) ∧ ¬Fits ranges (rest.take (k + 1)) := by
  induction ranges generalizing rest read with
  | nil => cases found
  | cons range ranges ih =>
    obtain ⟨least, greatest⟩ := range
    cases rest with
    | nil => cases found
    | cons b rest =>
      rw [follow] at found
      split at found
      · rename_i allowed
        obtain ⟨k, inRange, rfl, fits, stops⟩ := ih found
        exact ⟨k + 1, Nat.succ_lt_succ inRange, by omega, ⟨by simpa [Allows] using allowed, fits⟩, fun more =>
          stops more.2⟩
      · rename_i refused
        obtain rfl := Sequence.broken.inj found
        exact ⟨0, Nat.succ_pos _, rfl, trivial, fun more => refused (by simpa [Allows] using more.1)⟩

private theorem fits_of_follow (found : follow ranges rest read = .cut) : Fits ranges rest := by
  induction ranges generalizing rest read with
  | nil => cases found
  | cons range ranges ih =>
    obtain ⟨least, greatest⟩ := range
    cases rest with
    | nil => trivial
    | cons b rest =>
      rw [follow] at found
      split at found
      · rename_i allowed
        exact ⟨by simpa [Allows] using allowed, ih found⟩
      · cases found

/-- A character is read whole. -/
theorem read_encoded {lead : UInt8} {char : Char} {more : Bytes}
    (same : lead :: rest = String.utf8EncodeChar char ++ more) :
    Sequence.read lead rest = .whole (String.utf8EncodeChar char).length := by
  obtain ⟨lead', bytes, ranges, encoded, found, inside⟩ := exists_following char
  rw [encoded, List.cons_append, List.cons.injEq] at same
  obtain ⟨rfl, rfl⟩ := same
  rw [Sequence.read, found, encoded, List.length_cons, Nat.add_comm]
  exact follow_append inside more 1

/-- Only characters are read whole. -/
theorem encoded_of_read {lead : UInt8} (found : Sequence.read lead rest = .whole n) :
    ∃ char more, lead :: rest = String.utf8EncodeChar char ++ more ∧ n = (String.utf8EncodeChar char).length := by
  rw [Sequence.read] at found
  split at found
  · rename_i ranges may
    obtain ⟨inside, more, rfl, within, rfl⟩ := whole_of_follow found
    obtain ⟨char, encoded⟩ := exists_encoded may within
    exact ⟨char, more, by rw [encoded, List.cons_append], by rw [encoded, List.length_cons, Nat.add_comm]⟩
  · cases found

end Sequence

/-- The maximal subpart at the front of ill-formed bytes: what begins a character, or one byte, and no longer front
begins one. -/
structure Subpart (bytes : Bytes) (n : Nat) : Prop where
  pos : 0 < n
  inRange : n ≤ bytes.length
  begins : n = 1 ∨ Begins (bytes.take n)
  longest : ∀ m ≤ bytes.length, n < m → ¬Begins (bytes.take m)

/-- What begins nothing with the byte behind it begins nothing with more of them. -/
private theorem Subpart.intro {bytes : Bytes} {n : Nat} (pos : 0 < n) (inRange : n ≤ bytes.length)
    (begins : n = 1 ∨ Begins (bytes.take n)) (stops : ¬Begins (bytes.take (n + 1))) : Subpart bytes n where
  pos := pos
  inRange := inRange
  begins := begins
  longest m inRange past more := by
    have shorter := more.take (n + 1)
    rw [List.take_take, Nat.min_eq_left past] at shorter
    exact stops shorter

/-- A sequence that is broken off ends a maximal subpart, and no input could have completed the bytes. -/
theorem Sequence.subpart_of_read {lead : UInt8} {rest : Bytes} {n : Nat}
    (found : Sequence.read lead rest = .broken n) : Subpart (lead :: rest) n ∧ ¬Begins (lead :: rest) := by
  rw [Sequence.read] at found
  split at found
  · rename_i ranges may
    obtain ⟨k, inRange, rfl, fits, stops⟩ := broken_of_follow found
    have begins : Begins ((lead :: rest).take (1 + k)) := by
      rw [Nat.add_comm, List.take_succ_cons, begins_cons_iff]
      exact ⟨ranges, may, fits⟩
    have stops : ¬Begins ((lead :: rest).take (1 + k + 1)) := by
      rw [Nat.add_comm 1, List.take_succ_cons, begins_cons_iff]
      rintro ⟨ranges', may', fits⟩
      obtain rfl := Option.some.inj (may.symm.trans may')
      exact stops fits
    have inRange : 1 + k ≤ (lead :: rest).length := by
      rw [List.length_cons]
      omega
    exact ⟨.intro (by omega) inRange (.inr begins) stops, fun whole => stops (whole.take _)⟩
  · rename_i refused
    obtain rfl := Sequence.broken.inj found
    have no (rest' : Bytes) : ¬Begins (lead :: rest') := by
      rw [begins_cons_iff, refused]
      simp
    exact ⟨.intro Nat.one_pos (by simp) (.inl rfl) (no _), no rest⟩

private theorem Sequence.begins_of_read {lead : UInt8} {rest : Bytes} (found : Sequence.read lead rest = .cut) :
    Begins (lead :: rest) := by
  rw [Sequence.read] at found
  split at found
  · rename_i ranges may
    exact (begins_cons_iff lead rest).mpr ⟨ranges, may, fits_of_follow found⟩
  · cases found

/-! ## The first error -/

/-- A character at the front is read and left as it is. -/
theorem check_encoded (offset : Nat) (char : Char) (more : Bytes) :
    check offset (String.utf8EncodeChar char ++ more) = check (offset + (String.utf8EncodeChar char).length) more := by
  obtain ⟨lead, rest, encoded, -⟩ := exists_utf8EncodeChar char
  have same : lead :: (rest ++ more) = String.utf8EncodeChar char ++ more := by rw [encoded, List.cons_append]
  have read := Sequence.read_encoded same
  rw [encoded, List.cons_append, check, read, encoded]
  simp

private theorem repair_encoded (char : Char) (more : Bytes) :
    repair (String.utf8EncodeChar char ++ more) = String.utf8EncodeChar char ++ repair more := by
  obtain ⟨lead, rest, encoded, -⟩ := exists_utf8EncodeChar char
  have same : lead :: (rest ++ more) = String.utf8EncodeChar char ++ more := by rw [encoded, List.cons_append]
  have read := Sequence.read_encoded same
  rw [encoded, List.cons_append, repair, read, encoded]
  simp

/-- Whole characters at the front are passed over. -/
theorem check_append {front : Bytes} (valid : IsUtf8 front) (offset : Nat) (more : Bytes) :
    check offset (front ++ more) = check (offset + front.length) more := by
  obtain ⟨chars, rfl⟩ := valid
  induction chars generalizing offset with
  | nil => rfl
  | cons char chars ih =>
    rw [List.flatMap_cons, List.append_assoc, check_encoded, ih, List.length_append, Nat.add_assoc]

private theorem repair_append {front : Bytes} (valid : IsUtf8 front) (more : Bytes) :
    repair (front ++ more) = front ++ repair more := by
  obtain ⟨chars, rfl⟩ := valid
  induction chars with
  | nil => rfl
  | cons char chars ih => rw [List.flatMap_cons, List.append_assoc, repair_encoded, ih, List.append_assoc]

/-- There is no character at the front. -/
def Stuck (bytes : Bytes) : Prop := ∀ char rest, bytes ≠ String.utf8EncodeChar char ++ rest

private theorem Stuck.not_whole {lead : UInt8} {rest : Bytes} (stuck : Stuck (lead :: rest)) (n : Nat) :
    Sequence.read lead rest ≠ .whole n := by
  intro read
  obtain ⟨char, more, same, -⟩ := Sequence.encoded_of_read read
  exact stuck char more same

/-- Every input is whole characters and then what begins with none. -/
private theorem exists_front (bytes : Bytes) : ∃ front more, bytes = front ++ more ∧ IsUtf8 front ∧ Stuck more := by
  induction length : bytes.length using Nat.strong_induction_on generalizing bytes with
  | _ length ih =>
    subst length
    by_cases first : ∃ char rest, bytes = String.utf8EncodeChar char ++ rest
    · obtain ⟨char, rest, rfl⟩ := first
      have nonempty : 0 < (String.utf8EncodeChar char).length :=
        List.length_pos_of_ne_nil String.utf8EncodeChar_ne_nil
      obtain ⟨front, more, rfl, ⟨chars, rfl⟩, stuck⟩ := ih rest.length (by rw [List.length_append]; omega) rest rfl
      exact ⟨_, more, (List.append_assoc ..).symm, ⟨char :: chars, rfl⟩, stuck⟩
    · exact ⟨[], bytes, rfl, ⟨[], rfl⟩, fun char rest same => first ⟨char, rest, same⟩⟩

/-- There is no error just in whole characters. -/
theorem check_eq_none_iff (offset : Nat) (bytes : Bytes) : check offset bytes = none ↔ IsUtf8 bytes := by
  constructor
  · intro passed
    obtain ⟨front, more, rfl, valid, stuck⟩ := exists_front bytes
    rw [check_append valid] at passed
    cases more with
    | nil => rwa [List.append_nil]
    | cons lead rest =>
      rw [check] at passed
      split at passed
      · rename_i n read
        exact absurd read (stuck.not_whole n)
      · cases passed
      · cases passed
  · intro valid
    have passed := check_append valid offset []
    rwa [List.append_nil, check] at passed

/-- Behind whole characters, whole characters remain. -/
theorem isUtf8_of_append {front more : Bytes} (whole : IsUtf8 (front ++ more)) (valid : IsUtf8 front) :
    IsUtf8 more := by
  rw [← check_eq_none_iff 0, check_append valid] at whole
  exact (check_eq_none_iff _ more).mp whole

/-- What is repaired is UTF-8. -/
theorem isUtf8_repair (bytes : Bytes) : IsUtf8 (repair bytes) := by
  have marked : replacement = String.utf8EncodeChar '\uFFFD' := by decide
  fun_induction repair bytes with
  | case1 => exact ⟨[], rfl⟩
  | case2 lead rest n read ih =>
    obtain ⟨chars, ih⟩ := ih
    obtain ⟨char, more, same, rfl⟩ := Sequence.encoded_of_read read
    obtain ⟨_, bytes, encoded, -⟩ := exists_utf8EncodeChar char
    rw [encoded, List.cons_append, List.cons.injEq] at same
    obtain ⟨rfl, rfl⟩ := same
    refine ⟨char :: chars, ?_⟩
    rw [List.flatMap_cons, ← ih, encoded]
    simp
  | case3 lead rest n _ ih =>
    obtain ⟨chars, ih⟩ := ih
    exact ⟨'\uFFFD' :: chars, by rw [ih, marked, List.flatMap_cons]⟩
  | case4 => exact ⟨['\uFFFD'], by rw [marked, List.flatMap_singleton]⟩

/-- UTF-8 is left as it is, and nothing else is. -/
theorem repair_eq_iff (bytes : Bytes) : repair bytes = bytes ↔ IsUtf8 bytes := by
  constructor
  · intro same
    rw [← same]
    exact isUtf8_repair bytes
  · intro valid
    have kept := repair_append valid []
    rwa [List.append_nil, repair, List.append_nil] at kept

/-- An error says where the longest well-formed start ends and how long the maximal subpart behind it is. One U+FFFD
stands for the maximal subpart, and the rest is repaired by itself. -/
structure Error.Locates (e : Error) (bytes : Bytes) : Prop where
  inside : e.validLength < bytes.length
  valid : IsUtf8 (bytes.take e.validLength)
  longest : ∀ n ≤ bytes.length, IsUtf8 (bytes.take n) → n ≤ e.validLength
  broken : ∀ n, e.brokenLength = some n → Subpart (bytes.drop e.validLength) n ∧ ¬Begins (bytes.drop e.validLength) ∧
    repair bytes = bytes.take e.validLength ++ replacement ++ repair (bytes.drop (e.validLength + n))
  /-- Input that ends inside a sequence is replaced to its end. -/
  cut : e.brokenLength = none → Begins (bytes.drop e.validLength) ∧
    repair bytes = bytes.take e.validLength ++ replacement

/-- No well-formed start reaches into what begins with no character. -/
private theorem Stuck.length_le {front more : Bytes} (stuck : Stuck more) (valid : IsUtf8 front) (n : Nat)
    (inRange : n ≤ (front ++ more).length) (whole : IsUtf8 ((front ++ more).take n)) : n ≤ front.length := by
  by_contra past
  obtain ⟨k, rfl⟩ : ∃ k, n = front.length + (k + 1) := ⟨n - front.length - 1, by omega⟩
  rw [List.take_length_add_append] at whole
  have behind := isUtf8_of_append whole valid
  cases more with
  | nil =>
    rw [List.append_nil] at inRange
    omega
  | cons lead rest =>
    rw [List.take_succ_cons] at behind
    obtain ⟨char, more, same, -⟩ := behind.exists_char
    refine stuck char (more ++ rest.drop k) ?_
    rw [← List.append_assoc, ← same, List.cons_append, List.take_append_drop]

theorem Error.locates {bytes : Bytes} {e : Error} (found : error? bytes = some e) : e.Locates bytes := by
  obtain ⟨front, more, rfl, valid, stuck⟩ := exists_front bytes
  have longest := stuck.length_le valid
  have repaired := repair_append valid more
  rw [error?, check_append valid, Nat.zero_add] at found
  cases more with
  | nil =>
    rw [check] at found
    cases found
  | cons lead rest =>
    rw [check] at found
    rw [repair] at repaired
    cases read : Sequence.read lead rest with
    | whole n => exact absurd read (stuck.not_whole n)
    | broken n =>
      rw [read] at found repaired
      obtain rfl := Option.some.inj found
      obtain ⟨subpart, not⟩ := Sequence.subpart_of_read read
      refine ⟨by simp, by simpa using valid, longest, ?_, by simp⟩
      intro m same
      obtain rfl := Option.some.inj same
      obtain ⟨k, rfl⟩ := Nat.exists_eq_succ_of_ne_zero subpart.pos.ne'
      refine ⟨by simpa using subpart, by simpa using not, ?_⟩
      dsimp only
      rw [List.take_left, List.drop_length_add_append]
      simpa using repaired
    | cut =>
      rw [read] at found repaired
      obtain rfl := Option.some.inj found
      refine ⟨by simp, by simpa using valid, longest, by simp, ?_⟩
      intro _
      exact ⟨by simpa using Sequence.begins_of_read read, by simpa using repaired⟩

end CssLex.Utf8
