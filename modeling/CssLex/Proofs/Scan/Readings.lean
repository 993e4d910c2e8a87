import CssLex.Proofs.Scan.Escapes
import CssLex.Proofs.Text.Utf8

/-!
A text with escapes is read from left to right in pieces: a backslash with what belongs to it, or one character. Each
piece is as long as possible. What may belong to a backslash is not the same in strings and in urls, but in both the
scanner takes the longest of it (`Takes`), so it goes through the text piece by piece (`ReadTo.tail`).
-/

namespace CssLex.Scan

variable {bytes body rest : Bytes} {b c : UInt8} {char : Char} {Behind : Bytes → Prop} {taken : Bytes → Nat}
  {isStop : UInt8 → Bool} {piece : Bytes} {pieces : List Bytes}

/-- What is read as one, where `Behind` says what may belong to a backslash. A backslash to which nothing belongs is a
character like any other. -/
inductive Piece (Behind : Bytes → Prop) : Bytes → Prop where
  | backslash {body : Bytes} (behind : Behind body) : Piece Behind (Byte.reverseSolidus :: body)
  | character (char : Char) : Piece Behind (String.utf8EncodeChar char)

/-- A piece in front of `rest`, where no longer one begins in the same place. -/
structure Longest (Behind : Bytes → Prop) (piece rest : Bytes) : Prop where
  isPiece : Piece Behind piece
  longest : ∀ other, Piece Behind other → other <+: piece ++ rest → other.length ≤ piece.length

/-- One after the other, the pieces are read in front of `rest`. -/
inductive Reading (Behind : Bytes → Prop) (rest : Bytes) : List Bytes → Prop where
  | nil : Reading Behind rest []
  | cons {piece : Bytes} {pieces : List Bytes} (longest : Longest Behind piece (pieces.flatten ++ rest))
      (reading : Reading Behind rest pieces) : Reading Behind rest (piece :: pieces)

/-- The pieces in front of the first that is a stop by itself, or all pieces if there is none. -/
structure ReadTo (Behind : Bytes → Prop) (isStop : UInt8 → Bool) (pieces : List Bytes) (rest : Bytes) : Prop where
  reading : Reading Behind rest pieces
  first : ∀ b, isStop b = true → [b] ∉ pieces
  atStop : rest = [] ∨ begins isStop rest = true

/-- A character that begins with a backslash is a backslash. -/
private theorem eq_nil_of_backslash (same : String.utf8EncodeChar char = Byte.reverseSolidus :: body) : body = [] := by
  rw [← List.append_nil (String.utf8EncodeChar char)] at same
  exact (eq_of_ascii same.symm (by decide)).2

/-- Nothing longer than a character begins with its first byte, unless that is a backslash. -/
private theorem longest_character {continued : Bytes} (encoded : String.utf8EncodeChar char = c :: continued)
    (plain : c ≠ Byte.reverseSolidus) (rest : Bytes) : Longest Behind (c :: continued) rest := by
  constructor
  · rw [← encoded]
    exact .character char
  · intro other isPiece front
    cases isPiece with
    | backslash behind =>
      rw [List.cons_append, List.cons_prefix_cons] at front
      exact absurd front.1.symm plain
    | character other =>
      obtain ⟨more, same⟩ := front
      have length := charLength_encoded other more
      rw [same, ← encoded, charLength_encoded] at length
      rw [← encoded]
      exact Nat.le_of_eq length.symm

/-- A text begins with only one longest piece. -/
theorem Longest.length_eq {piece' rest' : Bytes} (longest : Longest Behind piece rest)
    (longest' : Longest Behind piece' rest') (same : piece ++ rest = piece' ++ rest') :
    piece.length = piece'.length := by
  apply Nat.le_antisymm
  · exact longest'.longest piece longest.isPiece (same ▸ List.prefix_append piece rest)
  · exact longest.longest piece' longest'.isPiece (same ▸ List.prefix_append piece' rest')

/-- In front of whole characters `taken` is the length of the longest text that may belong to a backslash. -/
structure Takes (Behind : Bytes → Prop) (taken : Bytes → Nat) : Prop where
  fits : ∀ rest, taken rest ≤ rest.length
  behind : ∀ rest, IsUtf8 rest → taken rest = 0 ∨ Behind (rest.take (taken rest))
  valid : ∀ rest, IsUtf8 rest → IsUtf8 (rest.drop (taken rest))
  whole : ∀ body rest, Behind body → body.length ≤ taken (body ++ rest)

namespace Takes

private theorem longest (takes : Takes Behind taken) (valid : IsUtf8 rest) :
    Longest Behind (Byte.reverseSolidus :: rest.take (taken rest)) (rest.drop (taken rest)) := by
  constructor
  · rcases takes.behind rest valid with none | behind
    · rw [none]
      exact .character '\\'
    · exact .backslash behind
  · intro other isPiece front
    rw [List.cons_append, List.take_append_drop] at front
    rw [List.length_cons, List.length_take, Nat.min_eq_left (takes.fits rest)]
    cases isPiece with
    | @backslash body behind =>
      obtain ⟨more, rfl⟩ := (List.cons_prefix_cons.mp front).2
      exact Nat.succ_le_succ (takes.whole body more behind)
    | character char =>
      obtain ⟨lead, continued, encoded, -⟩ := exists_utf8EncodeChar char
      rw [encoded, List.cons_prefix_cons] at front
      obtain ⟨rfl, -⟩ := front
      simp [encoded, eq_nil_of_backslash encoded]

private theorem length_eq (takes : Takes Behind taken) (longest : Longest Behind (Byte.reverseSolidus :: body) rest)
    (valid : IsUtf8 (body ++ rest)) : taken (body ++ rest) = body.length := by
  have same : Byte.reverseSolidus :: body ++ rest = Byte.reverseSolidus ::
      (body ++ rest).take (taken (body ++ rest)) ++ (body ++ rest).drop (taken (body ++ rest)) := by
    rw [List.cons_append, List.cons_append, List.take_append_drop]
  have length := longest.length_eq (takes.longest valid) same
  rw [List.length_cons, List.length_cons, List.length_take, Nat.min_eq_left (takes.fits _)] at length
  omega

end Takes

private theorem ReadTo.cons (longest : Longest Behind (c :: body) (pieces.flatten ++ rest)) (other : isStop c = false)
    (read : ReadTo Behind isStop pieces rest) : ReadTo Behind isStop ((c :: body) :: pieces) rest := by
  refine ⟨.cons longest read.reading, ?_, read.atStop⟩
  intro b stop member
  rcases List.mem_cons.mp member with same | member
  · obtain rfl : b = c := (List.cons.inj same).1
    rw [other] at stop
    cases stop
  · exact read.first b stop member

/-- Whole characters can be read. -/
theorem exists_readTo (takes : Takes Behind taken) (isStop : UInt8 → Bool) (valid : IsUtf8 bytes) :
    ∃ pieces rest, bytes = pieces.flatten ++ rest ∧ ReadTo Behind isStop pieces rest := by
  -- a piece may be of any length, so the induction is on how much is left
  induction length : bytes.length using Nat.strong_induction_on generalizing bytes with
  | _ n ih =>
    subst length
    cases bytes with
    | nil => exact ⟨[], [], rfl, .nil, fun _ _ => List.not_mem_nil, .inl rfl⟩
    | cons c more =>
      cases stop : isStop c with
      | true => exact ⟨[], c :: more, rfl, .nil, fun _ _ => List.not_mem_nil, .inr stop⟩
      | false =>
        obtain ⟨body, left, same, longest, valid⟩ : ∃ body left, more = body ++ left ∧
            Longest Behind (c :: body) left ∧ IsUtf8 left := by
          by_cases backslash : c = Byte.reverseSolidus
          · subst backslash
            have valid := valid.tail (by decide)
            exact ⟨_, _, (List.take_append_drop _ _).symm, takes.longest valid, takes.valid _ valid⟩
          · obtain ⟨char, left, same, behind⟩ := valid.exists_char
            obtain ⟨continued, encoded, same, -⟩ := exists_continued same
            exact ⟨continued, left, same, longest_character encoded backslash left, behind⟩
        have shorter : left.length < (c :: more).length := by
          rw [same, List.length_cons, List.length_append]
          omega
        obtain ⟨pieces, rest, rfl, read⟩ := ih _ shorter valid rfl
        refine ⟨(c :: body) :: pieces, rest, ?_, read.cons longest stop⟩
        rw [same, List.flatten_cons, List.cons_append, List.cons_append, List.append_assoc]

/-- What the scanner finds of one piece in front of `rest`: a backslash with all that it takes along, or a character of
which no byte is a stop. -/
inductive ScannedPiece (Behind : Bytes → Prop) (taken : Bytes → Nat) (isStop : UInt8 → Bool) (rest : Bytes) :
    Bytes → Prop where
  | backslash {body : Bytes} (behind : body = [] ∨ Behind body) (whole : taken (body ++ rest) = body.length) :
    ScannedPiece Behind taken isStop rest (Byte.reverseSolidus :: body)
  | character {char : Char}
    (plain : ∀ d ∈ String.utf8EncodeChar char, isStop d = false ∧ d ≠ Byte.reverseSolidus) :
    ScannedPiece Behind taken isStop rest (String.utf8EncodeChar char)

/-- The first piece is scanned as it is read, and from there the others are read. -/
theorem ReadTo.tail (takes : Takes Behind taken) (ascii : ∀ b, isStop b = true → b < 0x80)
    (read : ReadTo Behind isStop (piece :: pieces) rest) (valid : IsUtf8 ((piece :: pieces).flatten ++ rest)) :
    ScannedPiece Behind taken isStop (pieces.flatten ++ rest) piece ∧ ReadTo Behind isStop pieces rest ∧
      IsUtf8 (pieces.flatten ++ rest) := by
  obtain ⟨reading, first, atStop⟩ := read
  rw [List.flatten_cons, List.append_assoc] at valid
  cases reading with
  | cons longest reading =>
    have read : ReadTo Behind isStop pieces rest :=
      ⟨reading, fun b stop member => first b stop (List.mem_cons_of_mem _ member), atStop⟩
    have belongs : ∀ body, piece = Byte.reverseSolidus :: body → (body = [] ∨ Behind body) →
        ScannedPiece Behind taken isStop (pieces.flatten ++ rest) piece ∧ ReadTo Behind isStop pieces rest ∧
          IsUtf8 (pieces.flatten ++ rest) := by
      rintro body rfl behind
      rw [List.cons_append] at valid
      have valid := valid.tail (by decide)
      have whole := takes.length_eq longest valid
      have left := takes.valid _ valid
      rw [whole, List.drop_left] at left
      exact ⟨.backslash behind whole, read, left⟩
    cases longest.isPiece with
    | backslash behind => exact belongs _ rfl (.inr behind)
    | character char =>
      obtain ⟨lead, continued, encoded, -, single, -, wide⟩ := exists_utf8EncodeChar char
      by_cases isBackslash : lead = Byte.reverseSolidus
      · subst isBackslash
        exact belongs continued encoded (.inl (eq_nil_of_backslash encoded))
      · refine ⟨.character ?_, read, Utf8.isUtf8_of_append valid ⟨[char], (List.flatMap_singleton ..).symm⟩⟩
        rw [encoded, List.forall_mem_cons]
        refine ⟨⟨Bool.eq_false_iff.mpr fun stop => ?_, isBackslash⟩, fun d member => ?_⟩
        · rw [encoded, single.mp (ascii lead stop)] at first
          exact first lead stop List.mem_cons_self
        · have beyond := not_ascii_of_isContinuation (wide d member)
          refine ⟨Bool.eq_false_iff.mpr fun stop => beyond (ascii d stop), ?_⟩
          rintro rfl
          exact beyond (by decide)

theorem length_le_blankLength {blank : Bytes} (optional : Blank blank) (rest : Bytes) :
    blank.length ≤ blankLength (blank ++ rest) := by
  cases optional with
  | none => exact Nat.zero_le _
  | one white =>
    simp only [List.cons_append, List.nil_append, List.length_singleton, blankLength, white]
    split <;> simp
  | pair => simp [blankLength, begins]

/-- No escape is longer than what the scanner takes. -/
theorem Escaped.length_le (escaped : Escaped body) (rest : Bytes) : body.length ≤ escapeLength (body ++ rest) := by
  cases escaped with
  | character char plain => exact Nat.le_of_eq (escapeLength_character plain rest).symm
  | @hex digits blank some few all optional =>
    rw [List.append_assoc, escapeLength_digits some few all _ rfl, List.length_append]
    by_cases none : blank = []
    · subst none
      simp
      omega
    · have := length_le_blankLength optional rest
      rw [runLength_blank optional none, List.drop_zero]
      omega

end CssLex.Scan
