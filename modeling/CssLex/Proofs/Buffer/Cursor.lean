import CssLex.Buffer.Cursor
import CssLex.Proofs.Buffer.Scanning
import CssLex.Proofs.Scan.Escapes
import CssLex.Proofs.Text.Characters
import Mathlib.Order.Bounds.Basic

/-!
The moves of a cursor rely on the zeros behind the source, on two searches side by side and on first bytes that tell
how long a character is. Each of them leads to the place that a search of the source byte by byte finds
(`Cursor.moves_in_source`).
-/

namespace CssLex

namespace Text

private theorem getElem?_drop (t : Text) (pos i : Nat) : (t.toBytes.drop pos)[i]? = t.bytes[pos + i]? := by
  rw [List.getElem?_drop, toBytes, Array.getElem?_toList]

/-- From `pos` on, `found` is the first place whose byte is in the class, or the end of the text if there is none. -/
structure FirstOf (t : Text) (p : UInt8 → Bool) (pos found : Nat) : Prop where
  notBefore : pos ≤ found
  inside : found ≤ t.size
  others : ∀ i c, pos ≤ i → i < found → t.bytes[i]? = some c → p c = false
  byte : ∀ c, t.bytes[found]? = some c → p c = true

private theorem firstOf_findIdx (t : Text) (p : UInt8 → Bool) {pos : Nat} (inRange : pos ≤ t.size) :
    t.FirstOf p pos (pos + (t.toBytes.drop pos).findIdx p) where
  notBefore := Nat.le_add_right ..
  inside := by
    have bound : (t.toBytes.drop pos).findIdx p ≤ (t.toBytes.drop pos).length := List.findIdx_le_length
    rw [List.length_drop, length_toBytes] at bound
    omega
  others i c after before here := by
    obtain ⟨k, rfl⟩ := Nat.exists_eq_add_of_le after
    have none := List.not_of_lt_findIdx (Nat.lt_of_add_lt_add_left before)
    rw [← getElem?_drop] at here
    obtain ⟨_, rfl⟩ := List.getElem?_eq_some_iff.mp here
    exact none
  byte c here := by
    rw [← getElem?_drop] at here
    obtain ⟨_, rfl⟩ := List.getElem?_eq_some_iff.mp here
    exact List.findIdx_getElem

end Text

namespace Scan

/-- The mark that ends a comment is at `i`, and all of it is there. -/
def MarkAt (bytes : Bytes) (i : Nat) : Prop := bytes[i]? = some Byte.asterisk ∧ bytes[i + 1]? = some Byte.solidus

private theorem markAt_zero (c : UInt8) (rest : Bytes) :
    MarkAt (c :: rest) 0 ↔ (c == Byte.asterisk && begins (· == Byte.solidus) rest) = true := by
  cases rest <;> simp [MarkAt, begins]

private theorem markAt_drop (bytes : Bytes) (pos i : Nat) : MarkAt (bytes.drop pos) i ↔ MarkAt bytes (pos + i) := by
  rw [MarkAt, MarkAt, List.getElem?_drop, List.getElem?_drop, Nat.add_assoc]

/-- The rest of a comment ends behind its first end mark. -/
private theorem commentRest_mark (bytes : Bytes) :
    (∃ i, MarkAt bytes i ∧ (∀ k < i, ¬MarkAt bytes k) ∧ commentRest bytes = i + 2) ∨
      (∀ i, ¬MarkAt bytes i) ∧ commentRest bytes = bytes.length := by
  induction bytes with
  | nil => exact .inr ⟨by simp [MarkAt], rfl⟩
  | cons c rest ih =>
    have here := markAt_zero c rest
    have later (i : Nat) : MarkAt (c :: rest) (i + 1) ↔ MarkAt rest i := Iff.rfl
    rw [commentRest]
    split
    · rename_i closing
      exact .inl ⟨0, here.mpr closing, by simp, rfl⟩
    · rename_i goesOn
      rw [← here] at goesOn
      rcases ih with ⟨i, mark, first, length⟩ | ⟨none, length⟩
      · refine .inl ⟨i + 1, mark, ?_, by rw [length]⟩
        intro k less
        cases k with
        | zero => exact goesOn
        | succ k => exact first k (Nat.lt_of_succ_lt_succ less)
      · refine .inr ⟨?_, by rw [length, List.length_cons]⟩
        intro i
        cases i with
        | zero => exact goesOn
        | succ i => exact none i

end Scan

namespace Text

/-- From `pos` on, `found` is the place behind the first end mark, or the end of the text if there is none. -/
def CommentEnd (t : Text) (pos found : Nat) : Prop :=
  (∃ i, IsLeast {i | pos ≤ i ∧ Scan.MarkAt t.toBytes i} i ∧ found = i + 2) ∨
    (∀ i, pos ≤ i → ¬Scan.MarkAt t.toBytes i) ∧ found = t.size

private theorem commentEnd_commentRest (t : Text) {pos : Nat} (inRange : pos ≤ t.size) :
    t.CommentEnd pos (pos + Scan.commentRest (t.toBytes.drop pos)) := by
  have mark := Scan.markAt_drop t.toBytes pos
  rcases Scan.commentRest_mark (t.toBytes.drop pos) with ⟨k, here, first, length⟩ | ⟨none, length⟩
  · refine .inl ⟨pos + k, ⟨⟨Nat.le_add_right .., (mark k).mp here⟩, ?_⟩, by rw [length, Nat.add_assoc]⟩
    rintro i ⟨after, marked⟩
    obtain ⟨j, rfl⟩ := Nat.exists_eq_add_of_le after
    by_contra before
    exact first j (by omega) ((mark j).mpr marked)
  · refine .inr ⟨?_, ?_⟩
    · intro i after marked
      obtain ⟨j, rfl⟩ := Nat.exists_eq_add_of_le after
      exact none j ((mark j).mpr marked)
    · rw [length, List.length_drop, length_toBytes]
      omega

end Text

/-- The place behind the first `n` characters. -/
def charOffset (chars : List Char) (n : Nat) : Nat := ((chars.take n).flatMap String.utf8EncodeChar).length

private theorem charOffset_add (chars : List Char) (n : Nat) :
    charOffset chars (n + 1) =
      charOffset chars n + Scan.charLength ((chars.flatMap String.utf8EncodeChar).drop (charOffset chars n)) := by
  have behind : (chars.flatMap String.utf8EncodeChar).drop (charOffset chars n) =
      (chars.drop n).flatMap String.utf8EncodeChar := by
    have parts : chars.flatMap String.utf8EncodeChar =
        (chars.take n).flatMap String.utf8EncodeChar ++ (chars.drop n).flatMap String.utf8EncodeChar := by
      rw [← List.flatMap_append, List.take_append_drop]
    rw [parts]
    exact List.drop_left
  rw [behind]
  cases left : chars.drop n with
  | nil =>
    have all := List.drop_eq_nil_iff.mp left
    rw [charOffset, charOffset, List.take_of_length_le all, List.take_of_length_le (by omega)]
    rfl
  | cons char more =>
    have next : chars.take (n + 1) = chars.take n ++ [char] := by
      have here := congrArg List.head? left
      rw [List.head?_drop, List.head?_cons] at here
      rw [List.take_add_one, here, Option.toList_some]
    rw [List.flatMap_cons, Scan.charLength_encoded, charOffset, next, List.flatMap_append, List.length_append,
      List.flatMap_singleton, charOffset]

private theorem charOffset_cons (char : Char) (chars : List Char) (n : Nat) :
    charOffset (char :: chars) (n + 1) = (String.utf8EncodeChar char).length + charOffset chars n := by
  rw [charOffset, List.take_succ_cons, List.flatMap_cons, List.length_append, charOffset]

/-- The places behind characters are the end and those in front of a byte that begins a character. -/
theorem exists_charOffset_iff (chars : List Char) (k : Nat) :
    (∃ n, charOffset chars n = k) ↔ k ≤ (chars.flatMap String.utf8EncodeChar).length ∧
      ∀ c, (chars.flatMap String.utf8EncodeChar)[k]? = some c → Byte.isContinuation c = false := by
  induction chars generalizing k with
  | nil =>
    have offset (n : Nat) : charOffset [] n = 0 := by simp [charOffset]
    simp only [offset, exists_const, List.flatMap_nil, List.length_nil, Nat.le_zero]
    constructor
    · rintro rfl
      exact ⟨rfl, by simp⟩
    · rintro ⟨rfl, -⟩
      rfl
  | cons char chars ih =>
    obtain ⟨lead, rest, encoded, first, -, -, later⟩ := exists_utf8EncodeChar char
    rw [List.flatMap_cons]
    rcases Nat.lt_or_ge k (String.utf8EncodeChar char).length with within | behind
    · rw [List.getElem?_append_left within, List.length_append]
      cases k with
      | zero => exact iff_of_true ⟨0, rfl⟩ ⟨Nat.zero_le _, by simpa [encoded] using first⟩
      | succ k =>
        -- the character would end where it goes on
        have inside : k < rest.length := by simpa [encoded] using within
        refine iff_of_false ?_ ?_
        · rintro ⟨n, same⟩
          cases n with
          | zero => simp [charOffset] at same
          | succ n =>
            rw [charOffset_cons] at same
            omega
        · rintro ⟨-, begins⟩
          have continued := later rest[k] (List.getElem_mem inside)
          rw [begins rest[k] (by simp [encoded, inside])] at continued
          cases continued
    · obtain ⟨j, rfl⟩ := Nat.exists_eq_add_of_le behind
      rw [List.getElem?_append_right behind, List.length_append, Nat.add_sub_cancel_left, Nat.add_le_add_iff_left,
        ← ih j]
      constructor
      · rintro ⟨n, same⟩
        cases n with
        | zero =>
          have start : charOffset (char :: chars) 0 = 0 := rfl
          rw [start, encoded, List.length_cons] at same
          omega
        | succ n => exact ⟨n, by rw [charOffset_cons] at same; omega⟩
      · rintro ⟨n, same⟩
        exact ⟨n + 1, by rw [charOffset_cons, same]⟩

/-- The places between characters are those behind the first few of them. -/
theorem Text.isBoundary_iff_charOffset (s : String) (k : Nat) :
    (Text.ofString s).isBoundary k = true ↔ ∃ n, charOffset s.toList n = k := by
  have bytes : (Text.ofString s).bytes[k]? = (utf8 s)[k]? := Array.getElem?_toList.symm
  have size : (Text.ofString s).size = (utf8 s).length := Array.length_toList.symm
  rw [exists_charOffset_iff, ← utf8_eq_flatMap, Text.isBoundary, bytes, size]
  cases here : (utf8 s)[k]? with
  | none =>
    have past := List.getElem?_eq_none_iff.mp here
    simp only [beq_iff_eq, reduceCtorEq, IsEmpty.forall_iff, implies_true, and_true]
    omega
  | some b =>
    obtain ⟨inRange, rfl⟩ := List.getElem?_eq_some_iff.mp here
    simp only [Bool.or_eq_true, beq_iff_eq, Bool.not_eq_true', Option.some.injEq, forall_eq', Nat.le_of_lt inRange,
      true_and, or_iff_right_iff_imp]
    rintro rfl
    obtain ⟨c, rest, same⟩ := List.exists_cons_of_length_pos inRange
    have valid := isUtf8_utf8 s
    rw [same] at valid
    simpa [same] using valid.not_isContinuation

/-- The offsets are all places between characters in order, and then the end of the text again and again. -/
structure Text.Walk (t : Text) (offsets : Nat → Nat) : Prop where
  start : offsets 0 = 0
  ascending : ∀ n, offsets n < t.size → offsets n < offsets (n + 1)
  still : ∀ n, offsets n = t.size → offsets (n + 1) = t.size
  boundaries : ∀ k, t.isBoundary k = true ↔ ∃ n, offsets n = k

private theorem Text.charOffset_next (s : String) (n : Nat) : charOffset s.toList (n + 1) =
    charOffset s.toList n + Scan.charLength ((Text.ofString s).toBytes.drop (charOffset s.toList n)) := by
  rw [charOffset_add, ← utf8_eq_flatMap]
  rfl

private theorem Text.walk_charOffset (s : String) : (Text.ofString s).Walk (charOffset s.toList) where
  start := rfl
  ascending n inside := by
    rw [Text.charOffset_next]
    cases left : (Text.ofString s).toBytes.drop (charOffset s.toList n) with
    | nil =>
      rw [List.drop_eq_nil_iff, Text.length_toBytes] at left
      omega
    | cons c rest =>
      have := Scan.charLength_pos c rest
      omega
  still n ended := by
    have none : (Text.ofString s).toBytes.drop (Text.ofString s).size = [] :=
      List.drop_eq_nil_iff.mpr (Nat.le_of_eq (Text.length_toBytes _))
    rw [Text.charOffset_next, ended, none]
    rfl
  boundaries := Text.isBoundary_iff_charOffset s

namespace Cursor

open Buffer (ahead_ofText isStringStop ok_bind)

section

variable {t : Text} {pos : Nat} (inRange : pos ≤ t.size)
include inRange

/-- Up to three bytes behind the source there are zeros. -/
theorem peek_ofText {k : Nat} (near : k ≤ 3) :
    (⟨.ofText t, pos⟩ : Cursor).peek k = .ok (t.bytes[pos + k]?.getD 0) := by
  rw [peek, (ahead_ofText t inRange).read_add (by omega), List.getD_eq_getElem?_getD, Text.getElem?_drop]

/-- Inside the source a run stops at the first byte that is not in the class. -/
theorem skipWhileInSource_ofText (p : UInt8 → Bool) : ∃ found, t.FirstOf (!p ·) pos found ∧
    (⟨.ofText t, pos⟩ : Cursor).skipWhileInSource p = .ok ⟨.ofText t, found⟩ := by
  have run : Scan.runLength p (t.toBytes.drop pos) = (t.toBytes.drop pos).findIdx (!p ·) := by
    rw [Scan.runLength, List.takeWhile_eq_take_findIdx_not, List.length_take]
    exact Nat.min_eq_left List.findIdx_le_length
  refine ⟨_, t.firstOf_findIdx (!p ·) inRange, ?_⟩
  rw [skipWhileInSource, Buffer.sourceRunLength_eq p (ahead_ofText t inRange), run]
  rfl

/-- A class without zero needs no test for the end of the source. -/
theorem skipWhile_ofText {p : UInt8 → Bool} (zero : p 0 = false) :
    (⟨.ofText t, pos⟩ : Cursor).skipWhile p = (⟨.ofText t, pos⟩ : Cursor).skipWhileInSource p := by
  rw [skipWhile, skipWhileInSource, Buffer.runLength_eq p zero (ahead_ofText t inRange),
    Buffer.sourceRunLength_eq p (ahead_ofText t inRange)]

/-- The nearer hit of two searches is the first byte that ends or interrupts a string. -/
theorem toStringStop_ofText (quote : UInt8) : ∃ found, t.FirstOf (isStringStop quote) pos found ∧
    (⟨.ofText t, pos⟩ : Cursor).toStringStop quote = .ok (⟨.ofText t, found⟩, t.bytes[found]?.getD 0) ∧
      (Buffer.ofText t).stringStopMerged quote pos = .ok (found - pos, t.bytes[found]?.getD 0) := by
  refine ⟨_, t.firstOf_findIdx (isStringStop quote) inRange, ?_, ?_⟩
  · rw [toStringStop, Buffer.stringStop_eq quote (ahead_ofText t inRange), ok_bind, List.getD_eq_getElem?_getD,
      Text.getElem?_drop]
    rfl
  · rw [Buffer.stringStopMerged_eq quote (ahead_ofText t inRange), List.getD_eq_getElem?_getD, Text.getElem?_drop,
      Nat.add_sub_cancel_left]

theorem skipComment_ofText : ∃ found, t.CommentEnd pos found ∧
    (⟨.ofText t, pos⟩ : Cursor).skipComment = .ok ⟨.ofText t, found⟩ := by
  refine ⟨_, t.commentEnd_commentRest inRange, ?_⟩
  rw [skipComment, Buffer.commentLength_eq (ahead_ofText t inRange)]
  rfl

end

/-- The moves of a cursor find what a search of the source byte by byte finds. -/
theorem moves_in_source (s : String) {pos : Nat} (inRange : pos ≤ (Text.ofString s).size) :
    let t := Text.ofString s
    let c : Cursor := ⟨.ofText t, pos⟩
    (∀ k ≤ 3, c.peek k = .ok (t.bytes[pos + k]?.getD 0)) ∧
      (∀ p : UInt8 → Bool, ∃ found, t.FirstOf (!p ·) pos found ∧
        c.skipWhileInSource p = .ok ⟨.ofText t, found⟩ ∧ (p 0 = false → c.skipWhile p = .ok ⟨.ofText t, found⟩)) ∧
      (∀ quote, ∃ found, t.FirstOf (isStringStop quote) pos found ∧
        c.toStringStop quote = .ok (⟨.ofText t, found⟩, t.bytes[found]?.getD 0) ∧
        c.buffer.stringStopMerged quote pos = .ok (found - pos, t.bytes[found]?.getD 0)) ∧
      (∃ found, t.CommentEnd pos found ∧ c.skipComment = .ok ⟨.ofText t, found⟩) ∧
      ∃ offsets, t.Walk offsets ∧
        ∀ n, (⟨.ofText t, offsets n⟩ : Cursor).skipChar = .ok ⟨.ofText t, offsets (n + 1)⟩ := by
  intro t c
  refine ⟨fun k near => peek_ofText inRange near, ?_, fun quote => toStringStop_ofText inRange quote,
    skipComment_ofText inRange, charOffset s.toList, Text.walk_charOffset s, ?_⟩
  · intro p
    obtain ⟨found, first, stopped⟩ := skipWhileInSource_ofText inRange p
    exact ⟨found, first, stopped, fun zero => (skipWhile_ofText inRange zero).trans stopped⟩
  · intro n
    have inside : charOffset s.toList n ≤ t.size :=
      Text.le_size_of_isBoundary ((Text.isBoundary_iff_charOffset s _).mpr ⟨n, rfl⟩)
    rw [skipChar, Buffer.charLength_eq (ahead_ofText t inside), Text.charOffset_next]
    rfl

/-- The asterisk at the end of `é*` ends no comment: the zero behind it is no solidus. -/
theorem moves_in_source_asterisk :
    let t := Text.ofString "é*"
    2 ≤ t.size ∧ (⟨.ofText t, 2⟩ : Cursor).peek 1 = .ok 0 ∧
      ∃ found, t.CommentEnd 2 found ∧ (⟨.ofText t, 2⟩ : Cursor).skipComment = .ok ⟨.ofText t, found⟩ := by
  intro t
  have inRange : 2 ≤ t.size := by decide +kernel
  have padding : t.bytes[3]?.getD 0 = 0 := by decide +kernel
  obtain ⟨reads, -, -, ended, -⟩ := moves_in_source "é*" inRange
  exact ⟨inRange, (reads 1 (by decide)).trans (congrArg Except.ok padding), ended⟩

end Cursor

end CssLex
