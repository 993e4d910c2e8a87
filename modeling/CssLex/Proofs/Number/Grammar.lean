import CssLex.Proofs.Byte.Classes
import CssLex.Proofs.Number.Literal
import Mathlib.Computability.Language

/-!
Numbers as languages of bytes, said without the functions that read them, and the ways to write a literal. A number is
written in one way only: the literal that is read from a text is the one that it writes (`ofBytes?_eq_some_iff`).
-/

namespace CssLex

open scoped Computability

namespace Grammar

variable {p : UInt8 → Bool} {text : Bytes}

/-- One byte of a class. -/
def oneOf (p : UInt8 → Bool) : Language UInt8 := {text | ∃ b, p b = true ∧ text = [b]}

/-- Digits, at least one: `[0-9]+`. -/
def digits : Language UInt8 := oneOf Byte.isDigit * (oneOf Byte.isDigit)∗

/-- A sign that may be missing: `[-+]?`. -/
def sign : Language UInt8 := 1 + oneOf Byte.isSign

/-- Digits, with a point in front of some of them or without a point: `digits | digits? '.' digits`. -/
def mantissa : Language UInt8 := digits + (1 + digits) * oneOf (· == Byte.fullStop) * digits

/-- An exponent that may be missing: `([eE][-+]?digits)?`. -/
def power : Language UInt8 := 1 + oneOf Byte.isExponentMark * sign * digits

/-- All numbers: `[-+]?(digits | digits? '.' digits)([eE][-+]?digits)?`. -/
def number : Language UInt8 := sign * mantissa * power

/-- Numbers without a point: `[-+]?digits([eE][-+]?digits)?`. -/
def integer : Language UInt8 := sign * digits * power

/-- Numbers with neither a point nor a minus sign in front: `[+]?digits([eE][-+]?digits)?`. -/
def positiveInteger : Language UInt8 := (1 + oneOf (· == Byte.plusSign)) * digits * power

theorem mem_oneOf : text ∈ oneOf p ↔ ∃ b, p b = true ∧ text = [b] := Iff.rfl

theorem mem_mul_mul {first second third : Language UInt8} :
    text ∈ first * second * third ↔ ∃ u ∈ first, ∃ v ∈ second, ∃ w ∈ third, text = u ++ (v ++ w) := by
  simp only [Language.mem_mul]
  constructor
  · rintro ⟨_, ⟨u, inFirst, v, inSecond, rfl⟩, w, inThird, rfl⟩
    exact ⟨u, inFirst, v, inSecond, w, inThird, List.append_assoc u v w⟩
  · rintro ⟨u, inFirst, v, inSecond, w, inThird, rfl⟩
    exact ⟨u ++ v, ⟨u, inFirst, v, inSecond, rfl⟩, w, inThird, List.append_assoc u v w⟩

/-- Any number of bytes of a class. -/
private theorem mem_kstar_oneOf : text ∈ (oneOf p)∗ ↔ ∀ b ∈ text, p b = true := by
  rw [Language.mem_kstar]
  constructor
  · rintro ⟨words, rfl, all⟩ b member
    obtain ⟨word, inWords, inWord⟩ := List.mem_flatten.mp member
    obtain ⟨c, inClass, rfl⟩ := mem_oneOf.mp (all word inWords)
    rwa [List.mem_singleton.mp inWord]
  · intro all
    refine ⟨text.map fun b => [b], ?_, ?_⟩
    · rw [← List.flatMap_def, List.flatMap_singleton']
    · simp only [List.mem_map]
      rintro _ ⟨b, member, rfl⟩
      exact mem_oneOf.mpr ⟨b, all b member, rfl⟩

/-- A byte of one class and then any number of another. -/
theorem mem_oneOf_mul_kstar {q : UInt8 → Bool} :
    text ∈ oneOf p * (oneOf q)∗ ↔ ∃ b rest, text = b :: rest ∧ p b = true ∧ ∀ c ∈ rest, q c = true := by
  rw [Language.mem_mul]
  constructor
  · rintro ⟨_, ⟨b, first, rfl⟩, rest, more, rfl⟩
    exact ⟨b, rest, rfl, first, mem_kstar_oneOf.mp more⟩
  · rintro ⟨b, rest, rfl, first, more⟩
    exact ⟨[b], ⟨b, first, rfl⟩, rest, mem_kstar_oneOf.mpr more, rfl⟩

theorem mem_digits : text ∈ digits ↔ text ≠ [] ∧ ∀ b ∈ text, Byte.isDigit b = true := by
  rw [digits, mem_oneOf_mul_kstar]
  constructor
  · rintro ⟨b, rest, rfl, first, more⟩
    exact ⟨List.cons_ne_nil b rest, List.forall_mem_cons.mpr ⟨first, more⟩⟩
  · rintro ⟨some, all⟩
    obtain ⟨b, rest, rfl⟩ := List.exists_cons_of_ne_nil some
    rw [List.forall_mem_cons] at all
    exact ⟨b, rest, rfl, all⟩

/-- Digits that may be missing. -/
theorem mem_one_add_digits : text ∈ 1 + digits ↔ ∀ b ∈ text, Byte.isDigit b = true := by
  rw [Language.mem_add, Language.mem_one, mem_digits]
  by_cases none : text = []
  · simp [none]
  · simp [none]

end Grammar

namespace Literal

open CssLex.Scan (begins)

variable {l : Literal} {text rest whole fraction digits : Bytes} {negative : Bool}

/-- A sign that may be missing, and whether it is a minus sign. -/
inductive Signed : Bool → Bytes → Prop where
  | none : Signed false []
  | plus : Signed false [Byte.plusSign]
  | minus : Signed true [Byte.hyphen]

/-- The digits before a point and those after it. Without a point there are none after it. -/
inductive Pointed : Bytes → Bytes → Bytes → Prop where
  | whole {whole : Bytes} (some : whole ∈ Grammar.digits) : Pointed whole [] whole
  | point {whole fraction : Bytes} (all : whole ∈ 1 + Grammar.digits) (some : fraction ∈ Grammar.digits) :
      Pointed whole fraction (whole ++ Byte.fullStop :: fraction)

/-- An exponent that may be missing, with its sign and its digits. -/
inductive Powered : Bool → Bytes → Bytes → Prop where
  | none : Powered false [] []
  | some {mark : UInt8} {negative : Bool} {sign digits : Bytes} (isMark : Byte.isExponentMark mark = true)
      (signed : Signed negative sign) (some : digits ∈ Grammar.digits) :
      Powered negative digits (mark :: (sign ++ digits))

/-- A text in which a literal is written. -/
inductive Written : Literal → Bytes → Prop where
  | intro {negative powerNegative : Bool} {whole fraction power sign mantissa exponent : Bytes}
      (signed : Signed negative sign) (pointed : Pointed whole fraction mantissa)
      (powered : Powered powerNegative power exponent) :
      Written ⟨negative, whole, fraction, powerNegative, power⟩ (sign ++ (mantissa ++ exponent))

/-! ## What is split off is written -/

private theorem eq_of_isSign : ∀ b, Byte.isSign b = true → b = Byte.plusSign ∨ b = Byte.hyphen := by decide +kernel

private theorem splitSign_signed (text : Bytes) :
    ∃ sign, Signed (splitSign text).1 sign ∧ text = sign ++ (splitSign text).2 := by
  cases text with
  | nil => exact ⟨[], .none, rfl⟩
  | cons b rest =>
    rw [splitSign]
    split
    · rename_i isSign
      rcases eq_of_isSign b isSign with rfl | rfl
      · exact ⟨_, .plus, rfl⟩
      · exact ⟨_, .minus, rfl⟩
    · exact ⟨[], .none, rfl⟩

private theorem digits_append_afterDigits (text : Bytes) : Literal.digits text ++ afterDigits text = text :=
  List.takeWhile_append_dropWhile

private theorem isDigit_of_mem_digits (text : Bytes) : ∀ b ∈ Literal.digits text, Byte.isDigit b = true :=
  List.all_eq_true.mp List.all_takeWhile

private theorem mem_digits_of_not_isEmpty (some : (!(Literal.digits text).isEmpty) = true) :
    Literal.digits text ∈ Grammar.digits := by
  rw [Grammar.mem_digits]
  exact ⟨by simpa using some, isDigit_of_mem_digits text⟩

private theorem splitFraction_cases (text : Bytes) : (splitFraction text).1 = [] ∧ (splitFraction text).2 = text ∨
    (splitFraction text).1 ∈ Grammar.digits ∧
      text = Byte.fullStop :: ((splitFraction text).1 ++ (splitFraction text).2) := by
  cases text with
  | nil => exact .inl ⟨rfl, rfl⟩
  | cons b rest =>
    rw [splitFraction]
    split
    · rename_i point
      rw [Bool.and_eq_true, beq_iff_eq] at point
      obtain ⟨rfl, some⟩ := point
      exact .inr ⟨mem_digits_of_not_isEmpty some, by rw [digits_append_afterDigits]⟩
    · exact .inl ⟨rfl, rfl⟩

private theorem splitPower_powered (text : Bytes) : ∃ exponent,
    Powered (splitPower text).1 (splitPower text).2.1 exponent ∧ text = exponent ++ (splitPower text).2.2 := by
  cases text with
  | nil => exact ⟨[], .none, rfl⟩
  | cons b rest =>
    obtain ⟨sign, signed, same⟩ := splitSign_signed rest
    rw [splitPower]
    dsimp only
    split
    · rename_i mark
      rw [Bool.and_eq_true] at mark
      refine ⟨_, .some mark.1 signed (mem_digits_of_not_isEmpty mark.2), ?_⟩
      rw [List.cons_append, List.append_assoc, digits_append_afterDigits, ← same]
    · exact ⟨[], .none, rfl⟩

/-- The digits and the fraction that are split off are a mantissa, if there are any digits at all. -/
private theorem splitFraction_pointed (text : Bytes)
    (some : ¬((Literal.digits text).isEmpty && (splitFraction (afterDigits text)).1.isEmpty) = true) :
    ∃ mantissa, Pointed (Literal.digits text) (splitFraction (afterDigits text)).1 mantissa ∧
      text = mantissa ++ (splitFraction (afterDigits text)).2 := by
  have whole := digits_append_afterDigits text
  rcases splitFraction_cases (afterDigits text) with ⟨none, left⟩ | ⟨fraction, left⟩
  · rw [none, List.isEmpty_nil, Bool.and_true] at some
    rw [none, left]
    exact ⟨_, .whole (mem_digits_of_not_isEmpty (by simpa using some)), whole.symm⟩
  · refine ⟨_, .point (Grammar.mem_one_add_digits.mpr (isDigit_of_mem_digits text)) fraction, ?_⟩
    rw [List.append_assoc, List.cons_append, ← left, whole]

/-- What is split off a text is written in front of it. -/
theorem written_of_split? (split : split? text = some (l, rest)) : ∃ front, Written l front ∧ text = front ++ rest := by
  obtain ⟨sign, signed, behindSign⟩ := splitSign_signed text
  unfold split? at split
  dsimp only at split
  split at split
  · cases split
  · rename_i some
    obtain ⟨mantissa, pointed, behindMantissa⟩ := splitFraction_pointed _ some
    obtain ⟨exponent, powered, behindPower⟩ := splitPower_powered (splitFraction (afterDigits (splitSign text).2)).2
    obtain ⟨rfl, rfl⟩ := Prod.mk.inj (Option.some.inj split)
    refine ⟨_, .intro signed pointed powered, ?_⟩
    rw [List.append_assoc, List.append_assoc, ← behindPower, ← behindMantissa, ← behindSign]

/-! ## What is written is split off -/

private theorem splitSign_append (signed : Signed negative digits) (stop : begins Byte.isSign rest = false) :
    splitSign (digits ++ rest) = (negative, rest) := by
  cases signed with
  | none =>
    cases rest with
    | nil => rfl
    | cons b rest => exact if_neg (Bool.eq_false_iff.mp stop)
  | plus => rfl
  | minus => rfl

/-- Digits go up to the first byte that is none. -/
private theorem split_digits (all : ∀ b ∈ digits, Byte.isDigit b = true) (stop : begins Byte.isDigit rest = false) :
    Literal.digits (digits ++ rest) = digits ∧ afterDigits (digits ++ rest) = rest := by
  have none : Literal.digits rest = [] := by simpa [stop] using isEmpty_digits rest
  have left := digits_append_afterDigits rest
  rw [none, List.nil_append] at left
  rw [Literal.digits, afterDigits, List.takeWhile_append_of_pos all, List.dropWhile_append_of_pos all]
  rw [Literal.digits] at none
  rw [afterDigits] at left
  rw [none, left, List.append_nil]
  exact ⟨rfl, rfl⟩

private theorem begins_digits (some : digits ∈ Grammar.digits) (rest : Bytes) :
    begins Byte.isDigit (digits ++ rest) = true ∧ begins Byte.isSign (digits ++ rest) = false := by
  obtain ⟨some, all⟩ := Grammar.mem_digits.mp some
  obtain ⟨b, more, rfl⟩ := List.exists_cons_of_ne_nil some
  have digit := all b List.mem_cons_self
  exact ⟨digit, Byte.isSign_of_isDigit digit⟩

/-- A mantissa is split in its parts where nothing goes on with it. -/
private theorem split_pointed (pointed : Pointed whole fraction text) (digit : begins Byte.isDigit rest = false)
    (point : begins (· == Byte.fullStop) rest = false) :
    Literal.digits (text ++ rest) = whole ∧ splitFraction (afterDigits (text ++ rest)) = (fraction, rest) := by
  cases pointed with
  | whole some =>
    obtain ⟨-, all⟩ := Grammar.mem_digits.mp some
    obtain ⟨front, behind⟩ := split_digits all digit
    rw [front, behind]
    refine ⟨rfl, ?_⟩
    cases rest with
    | nil => rfl
    | cons b rest =>
      have other : (b == Byte.fullStop) = false := point
      rw [splitFraction, other, Bool.false_and, if_neg Bool.false_ne_true]
  | point all some =>
    have stop : begins Byte.isDigit (Byte.fullStop :: (fraction ++ rest)) = false := rfl
    obtain ⟨front, behind⟩ := split_digits (Grammar.mem_one_add_digits.mp all) stop
    obtain ⟨inside, left⟩ := split_digits (Grammar.mem_digits.mp some).2 digit
    have more : (!(Literal.digits (fraction ++ rest)).isEmpty) = true := by
      rw [isEmpty_digits, Bool.not_not]
      exact (begins_digits some rest).1
    rw [List.append_assoc, List.cons_append, front, behind, splitFraction, beq_self_eq_true, Bool.true_and, if_pos more,
      inside, left]
    exact ⟨rfl, rfl⟩

private theorem splitPower_written (powered : Powered negative digits text) :
    splitPower text = (negative, digits, []) := by
  cases powered with
  | none => rfl
  | @some mark negative sign digits isMark signed some =>
    obtain ⟨first, unsigned⟩ := begins_digits some []
    have stop : begins Byte.isDigit [] = false := rfl
    obtain ⟨front, left⟩ := split_digits (Grammar.mem_digits.mp some).2 stop
    rw [List.append_nil] at first unsigned front left
    rw [splitPower, splitSign_append signed unsigned]
    dsimp only
    rw [isMark, isEmpty_digits, first, front, left]
    rfl

/-- No exponent begins with a digit or a point. -/
private theorem Powered.stop (powered : Powered negative digits text) :
    begins Byte.isDigit text = false ∧ begins (· == Byte.fullStop) text = false := by
  have other : ∀ b, Byte.isExponentMark b = true → Byte.isDigit b = false ∧ (b == Byte.fullStop) = false := by
    decide +kernel
  cases powered with
  | none => exact ⟨rfl, rfl⟩
  | @some mark _ _ _ isMark => exact other mark isMark

/-- A mantissa has digits and begins with no sign. -/
private theorem Pointed.unsigned (pointed : Pointed whole fraction text) (rest : Bytes) :
    begins Byte.isSign (text ++ rest) = false ∧ ¬(whole.isEmpty && fraction.isEmpty) = true := by
  cases pointed with
  | whole some =>
    have := (Grammar.mem_digits.mp some).1
    exact ⟨(begins_digits some rest).2, by simpa using this⟩
  | point all some =>
    have := (Grammar.mem_digits.mp some).1
    refine ⟨?_, by simp [this]⟩
    rcases (Language.mem_add _ _ _).mp all with none | digits
    · rw [(Language.mem_one _).mp none]
      rfl
    · rw [List.append_assoc]
      exact (begins_digits digits _).2

/-- What is written is split off as it is written. -/
theorem split?_of_written (written : Written l text) : split? text = some (l, []) := by
  cases written with
  | intro signed pointed powered =>
    obtain ⟨digit, point⟩ := powered.stop
    obtain ⟨unsigned, some⟩ := pointed.unsigned _
    obtain ⟨front, behind⟩ := split_pointed pointed digit point
    unfold split?
    rw [splitSign_append signed unsigned]
    dsimp only
    rw [front, behind]
    dsimp only
    rw [if_neg some, splitPower_written powered]

/-- The literal that is read from a text is the one that is written there. -/
theorem ofBytes?_eq_some_iff : ofBytes? text = some l ↔ Written l text := by
  rw [ofBytes?]
  constructor
  · intro read
    split at read
    · rename_i split
      obtain rfl := Option.some.inj read
      obtain ⟨front, written, same⟩ := written_of_split? split
      rwa [same, List.append_nil]
    · cases read
  · intro written
    rw [split?_of_written written]

/-- One literal only is written in a text. -/
theorem Written.unique {l' : Literal} (written : Written l text) (written' : Written l' text) : l = l' :=
  Option.some.inj ((ofBytes?_eq_some_iff.mpr written).symm.trans (ofBytes?_eq_some_iff.mpr written'))

theorem isNumber_iff_written : isNumber text = true ↔ ∃ l, Written l text := by
  rw [isNumber, Option.isSome_iff_exists]
  exact exists_congr fun l => ofBytes?_eq_some_iff

private theorem mem_sign : text ∈ Grammar.sign ↔ ∃ negative, Signed negative text := by
  rw [Grammar.sign, Language.mem_add, Language.mem_one, Grammar.mem_oneOf]
  constructor
  · rintro (rfl | ⟨b, isSign, rfl⟩)
    · exact ⟨false, .none⟩
    · rcases eq_of_isSign b isSign with rfl | rfl
      · exact ⟨false, .plus⟩
      · exact ⟨true, .minus⟩
  · rintro ⟨negative, signed⟩
    cases signed with
    | none => exact .inl rfl
    | plus => exact .inr ⟨_, by decide, rfl⟩
    | minus => exact .inr ⟨_, by decide, rfl⟩

private theorem mem_plus : text ∈ 1 + Grammar.oneOf (· == Byte.plusSign) ↔ Signed false text := by
  rw [Language.mem_add, Language.mem_one, Grammar.mem_oneOf]
  constructor
  · rintro (rfl | ⟨b, plus, rfl⟩)
    · exact .none
    · rw [beq_iff_eq] at plus
      rw [plus]
      exact .plus
  · intro signed
    cases signed with
    | none => exact .inl rfl
    | plus => exact .inr ⟨_, beq_self_eq_true _, rfl⟩

private theorem mem_power : text ∈ Grammar.power ↔ ∃ negative digits, Powered negative digits text := by
  rw [Grammar.power, Language.mem_add, Language.mem_one, Grammar.mem_mul_mul]
  constructor
  · rintro (rfl | ⟨_, ⟨mark, isMark, rfl⟩, sign, inSign, digits, some, rfl⟩)
    · exact ⟨false, [], .none⟩
    · obtain ⟨negative, signed⟩ := mem_sign.mp inSign
      exact ⟨negative, digits, .some isMark signed some⟩
  · rintro ⟨negative, digits, powered⟩
    cases powered with
    | none => exact .inl rfl
    | @some mark _ sign _ isMark signed some =>
      exact .inr ⟨[mark], ⟨mark, isMark, rfl⟩, sign, mem_sign.mpr ⟨negative, signed⟩, digits, some, rfl⟩

private theorem mem_mantissa : text ∈ Grammar.mantissa ↔ ∃ whole fraction, Pointed whole fraction text := by
  rw [Grammar.mantissa, Language.mem_add, Grammar.mem_mul_mul]
  constructor
  · rintro (some | ⟨whole, all, _, ⟨b, point, rfl⟩, fraction, some, rfl⟩)
    · exact ⟨text, [], .whole some⟩
    · rw [beq_iff_eq] at point
      rw [point]
      exact ⟨whole, fraction, .point all some⟩
  · rintro ⟨whole, fraction, pointed⟩
    cases pointed with
    | whole some => exact .inl some
    | point all some => exact .inr ⟨whole, all, _, ⟨_, beq_self_eq_true _, rfl⟩, fraction, some, rfl⟩

theorem mem_number : text ∈ Grammar.number ↔ ∃ l, Written l text := by
  rw [Grammar.number, Grammar.mem_mul_mul]
  constructor
  · rintro ⟨sign, inSign, mantissa, inMantissa, exponent, inPower, rfl⟩
    obtain ⟨negative, signed⟩ := mem_sign.mp inSign
    obtain ⟨whole, fraction, pointed⟩ := mem_mantissa.mp inMantissa
    obtain ⟨powerNegative, power, powered⟩ := mem_power.mp inPower
    exact ⟨_, .intro signed pointed powered⟩
  · rintro ⟨l, written⟩
    cases written with
    | intro signed pointed powered =>
      exact ⟨_, mem_sign.mpr ⟨_, signed⟩, _, mem_mantissa.mpr ⟨_, _, pointed⟩, _, mem_power.mpr ⟨_, _, powered⟩, rfl⟩

/-- Numbers without a point, with some of the signs. -/
private theorem mem_unpointed {signs : Language UInt8} (isMinus : Bool → Prop)
    (signed : ∀ sign, sign ∈ signs ↔ ∃ negative, Signed negative sign ∧ isMinus negative) :
    text ∈ signs * Grammar.digits * Grammar.power ↔
      ∃ l, Written l text ∧ l.isInteger = true ∧ isMinus l.negative := by
  rw [Grammar.mem_mul_mul]
  constructor
  · rintro ⟨sign, inSigns, whole, some, exponent, inPower, rfl⟩
    obtain ⟨negative, inSign, minus⟩ := (signed sign).mp inSigns
    obtain ⟨powerNegative, power, powered⟩ := mem_power.mp inPower
    exact ⟨_, .intro inSign (.whole some) powered, rfl, minus⟩
  · rintro ⟨l, written, unpointed, minus⟩
    cases written with
    | intro inSign pointed powered =>
      rw [isInteger, List.isEmpty_iff] at unpointed
      dsimp only at unpointed minus
      cases pointed with
      | whole some => exact ⟨_, (signed _).mpr ⟨_, inSign, minus⟩, _, some, _, mem_power.mpr ⟨_, _, powered⟩, rfl⟩
      | point all some => exact absurd unpointed (Grammar.mem_digits.mp some).1

theorem mem_integer : text ∈ Grammar.integer ↔ ∃ l, Written l text ∧ l.isInteger = true := by
  rw [Grammar.integer, mem_unpointed fun _ => True]
  · simp only [and_true]
  · simp only [and_true]
    exact fun sign => mem_sign

theorem mem_positiveInteger :
    text ∈ Grammar.positiveInteger ↔ ∃ l, Written l text ∧ l.isInteger = true ∧ l.negative = false := by
  refine mem_unpointed (· = false) fun sign => ?_
  simp only [exists_eq_right]
  exact mem_plus

end Literal
end CssLex
