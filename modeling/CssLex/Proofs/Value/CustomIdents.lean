import CssLex.Proofs.Number.Grammar
import CssLex.Proofs.Value.Recognition

/-!
A custom identifier is told by the form of its text and not by its token. The form is that of some identifiers, but also
of a hyphen by itself and of negative numbers without a point or a plus sign, so these are recognised too
(`run_customIdent_iff`).
-/

namespace CssLex

open scoped Computability

namespace Grammar

/-- The form of a custom identifier: `[a-zA-Z_-][a-zA-Z0-9_$-]*`. -/
def customIdent : Language UInt8 := oneOf Recognizer.beginsCustomIdent * (oneOf Recognizer.continuesCustomIdent)∗

/-- An exponent without a plus sign, which may be missing: `([eE]-?digits)?`. -/
def plainPower : Language UInt8 := 1 + oneOf Byte.isExponentMark * (1 + oneOf (· == Byte.hyphen)) * digits

/-- Negative numbers with neither a point nor a plus sign: `-digits([eE]-?digits)?`. -/
def negativeInteger : Language UInt8 := oneOf (· == Byte.hyphen) * digits * plainPower

end Grammar

namespace Recognizer

open CssLex.Literal

variable {text rest digits : Bytes} {b c : UInt8} {negative : Bool}

theorem isCustomIdent_iff : isCustomIdent text = true ↔ text ∈ Grammar.customIdent ∧
    ∀ keyword ∈ ["unset", "initial", "inherit", "default"], (utf8 keyword).equalIgnoringCase text = false := by
  rw [Grammar.customIdent, Grammar.mem_oneOf_mul_kstar]
  cases text with
  | nil => simp [isCustomIdent]
  | cons b rest => simp [isCustomIdent, reservedIdents, and_assoc]

/-- No keyword begins with a hyphen. -/
private theorem isCustomIdent_hyphen (rest : Bytes) :
    isCustomIdent (Byte.hyphen :: rest) = true ↔ ∀ b ∈ rest, continuesCustomIdent b = true := by
  have free : (reservedIdents.any fun keyword => (utf8 keyword).equalIgnoringCase (Byte.hyphen :: rest)) = false := by
    have first : ∀ keyword ∈ reservedIdents,
        Scan.begins (· == Byte.hyphen) ((utf8 keyword).map Byte.lower) = false := by decide +kernel
    rw [List.any_eq_false]
    intro keyword member same
    rw [Bytes.equalIgnoringCase, beq_iff_eq] at same
    have hyphen := first keyword member
    rw [same] at hyphen
    cases hyphen
  have begun : beginsCustomIdent Byte.hyphen = true := by decide
  rw [isCustomIdent, free, begun, Bool.true_and, Bool.not_false, Bool.and_true, List.all_eq_true]

/-- The first byte in front decides against a text. -/
private theorem not_isCustomIdent_of_first (first : beginsCustomIdent c = false) (front : text <+: c :: rest) :
    isCustomIdent text = false := by
  cases text with
  | nil => rfl
  | cons b more =>
    obtain ⟨rfl, -⟩ := List.cons_prefix_cons.mp front
    rw [isCustomIdent, first, Bool.false_and, Bool.false_and]

private theorem continues_of_begins (begun : beginsCustomIdent b = true) : continuesCustomIdent b = true := by
  rw [continuesCustomIdent, begun, Bool.true_or, Bool.true_or]

/-- A byte that is not of the form decides against a text wherever it stands. -/
private theorem not_isCustomIdent_of_mem (other : continuesCustomIdent b = false) (member : b ∈ text) :
    isCustomIdent text = false := by
  refine Bool.eq_false_iff.mpr fun shape => ?_
  obtain ⟨shape, -⟩ := isCustomIdent_iff.mp shape
  obtain ⟨c, rest, rfl, first, more⟩ := Grammar.mem_oneOf_mul_kstar.mp shape
  rcases List.mem_cons.mp member with rfl | behind
  · rw [continues_of_begins first] at other
    cases other
  · rw [more b behind] at other
    cases other

private theorem continues_of_digits (some : digits ∈ Grammar.digits) : ∀ b ∈ digits, continuesCustomIdent b = true := by
  have digit : ∀ b, Byte.isDigit b = true → continuesCustomIdent b = true := by decide +kernel
  exact fun b member => digit b ((Grammar.mem_digits.mp some).2 b member)

private theorem mem_optional_hyphen : text ∈ 1 + Grammar.oneOf (· == Byte.hyphen) ↔
    (∃ negative, Signed negative text) ∧ ∀ b ∈ text, continuesCustomIdent b = true := by
  have plus : continuesCustomIdent Byte.plusSign = false := by decide
  have hyphen : continuesCustomIdent Byte.hyphen = true := by decide
  rw [Language.mem_add, Language.mem_one, Grammar.mem_oneOf]
  constructor
  · rintro (rfl | ⟨b, isHyphen, rfl⟩)
    · exact ⟨⟨false, .none⟩, nofun⟩
    · rw [beq_iff_eq] at isHyphen
      rw [isHyphen, List.forall_mem_singleton]
      exact ⟨⟨true, .minus⟩, hyphen⟩
  · rintro ⟨⟨negative, signed⟩, all⟩
    cases signed with
    | none => exact .inl rfl
    | plus =>
      rw [List.forall_mem_singleton, plus] at all
      cases all
    | minus => exact .inr ⟨_, beq_self_eq_true _, rfl⟩

/-- In an exponent only a plus sign is not of the form. -/
private theorem mem_plainPower : text ∈ Grammar.plainPower ↔
    (∃ negative digits, Powered negative digits text) ∧ ∀ b ∈ text, continuesCustomIdent b = true := by
  have mark : ∀ b, Byte.isExponentMark b = true → continuesCustomIdent b = true := by decide +kernel
  rw [Grammar.plainPower, Language.mem_add, Language.mem_one, Grammar.mem_mul_mul]
  constructor
  · rintro (rfl | ⟨_, ⟨b, isMark, rfl⟩, sign, optional, digits, some, rfl⟩)
    · exact ⟨⟨false, [], .none⟩, nofun⟩
    · obtain ⟨⟨negative, signed⟩, all⟩ := mem_optional_hyphen.mp optional
      refine ⟨⟨negative, digits, .some isMark signed some⟩, ?_⟩
      rw [List.forall_mem_append, List.forall_mem_singleton, List.forall_mem_append]
      exact ⟨mark b isMark, all, continues_of_digits some⟩
  · rintro ⟨⟨negative, digits, powered⟩, all⟩
    cases powered with
    | none => exact .inl rfl
    | @some b _ sign _ isMark signed some =>
      rw [List.forall_mem_cons, List.forall_mem_append] at all
      exact .inr ⟨[b], ⟨b, isMark, rfl⟩, sign, mem_optional_hyphen.mpr ⟨⟨_, signed⟩, all.2.1⟩, digits, some, rfl⟩

/-- No number of the form goes without a sign. -/
private theorem not_isCustomIdent_pointed {whole fraction mantissa : Bytes} (pointed : Pointed whole fraction mantissa)
    (rest : Bytes) : isCustomIdent (mantissa ++ rest) = false := by
  have digit : ∀ b, Byte.isDigit b = true → beginsCustomIdent b = false := by decide +kernel
  have ofDigits {digits : Bytes} (some : digits ∈ Grammar.digits) (rest : Bytes) :
      isCustomIdent (digits ++ rest) = false := by
    obtain ⟨some, all⟩ := Grammar.mem_digits.mp some
    obtain ⟨b, more, rfl⟩ := List.exists_cons_of_ne_nil some
    exact not_isCustomIdent_of_first (digit b (all b List.mem_cons_self)) (List.prefix_refl _)
  cases pointed with
  | whole some => exact ofDigits some rest
  | point all some =>
    rcases (Language.mem_add _ _ _).mp all with none | digits
    · rw [(Language.mem_one _).mp none]
      rfl
    · rw [List.append_assoc]
      exact ofDigits digits _

/-- The numbers of the form are those with a minus sign in front and neither a point nor a plus sign. -/
private theorem mem_negativeInteger :
    text ∈ Grammar.negativeInteger ↔ isCustomIdent text = true ∧ Literal.isNumber text = true := by
  rw [Grammar.negativeInteger, Grammar.mem_mul_mul, isNumber_iff_written]
  constructor
  · rintro ⟨_, ⟨b, isHyphen, rfl⟩, whole, some, exponent, plain, rfl⟩
    obtain ⟨⟨powerNegative, power, powered⟩, all⟩ := mem_plainPower.mp plain
    rw [beq_iff_eq] at isHyphen
    rw [isHyphen]
    refine ⟨(isCustomIdent_hyphen (whole ++ exponent)).mpr ?_, _, .intro .minus (.whole some) powered⟩
    rw [List.forall_mem_append]
    exact ⟨continues_of_digits some, all⟩
  · rintro ⟨shape, l, written⟩
    cases written with
    | @intro negative powerNegative whole fraction power sign mantissa exponent signed pointed powered =>
      cases signed with
      | none =>
        rw [List.nil_append, not_isCustomIdent_pointed pointed] at shape
        cases shape
      | plus => cases shape
      | minus =>
        have all := (isCustomIdent_hyphen (mantissa ++ exponent)).mp shape
        rw [List.forall_mem_append] at all
        cases pointed with
        | whole some =>
          exact ⟨_, ⟨_, beq_self_eq_true _, rfl⟩, _, some, _, mem_plainPower.mpr ⟨⟨_, _, powered⟩, all.2⟩, rfl⟩
        | point _ _ =>
          have point := all.1 Byte.fullStop (List.mem_append_right _ List.mem_cons_self)
          cases point

end Recognizer

namespace Scan

variable {c : UInt8}

/-- A name that is no identifier has a parenthesis in it. -/
private theorem mem_take_identLike {bytes : Bytes} (other : (identLike bytes).kind ≠ .ident) :
    Byte.leftParenthesis ∈ bytes.take (identLike bytes).length := by
  rw [identLike, Token.extend_kind] at other
  rw [identLike, Token.extend_length, Nat.add_comm, List.take_add]
  refine List.mem_append_right _ ?_
  cases left : bytes.drop (nameLength bytes) with
  | nil =>
    rw [left] at other
    exact absurd rfl other
  | cons b rest =>
    rw [left, nameWith] at other
    rw [nameWith]
    split at other
    · exact absurd rfl other
    · rename_i parenthesis
      rw [if_neg parenthesis]
      rw [bne_iff_ne, Decidable.not_not] at parenthesis
      rw [parenthesis]
      split <;> exact List.mem_cons_self

/-- A number comes first in the text of its token. -/
private theorem take_splitAt_numeric {bytes : Bytes} (number : beginsNumber bytes = true) :
    let text := bytes.take (numeric bytes).length
    text.take (Stream.splitAt (numeric bytes).kind text) = text.take (Literal.length text) ∧
      Literal.isNumber (text.take (Literal.length text)) = true := by
  intro text
  have least := numberLength_le_numeric bytes
  have split : Stream.splitAt (numeric bytes).kind text = numberLength bytes := splitAt_numeric number
  have length : Literal.length text = numberLength bytes := Literal.length_take number least
  rw [split, length, List.take_take, Nat.min_eq_left least]
  exact ⟨rfl, Literal.isNumber_take number⟩

/-- Where a custom identifier can begin, there is a name, or else a number, a mark or a delimiter behind a hyphen. -/
private theorem next_of_beginsCustomIdent (begun : Recognizer.beginsCustomIdent c = true) (rest : Bytes) :
    next (c :: rest) = identLike (c :: rest) ∨ c = Byte.hyphen ∧
      (beginsNumber (c :: rest) = true ∧ next (c :: rest) = numeric (c :: rest) ∨
        (utf8 "->") <+: rest ∧ next (c :: rest) = ⟨.commentClose, 3⟩ ∨ next (c :: rest) = ⟨.delim, 1⟩) := by
  by_cases hyphen : c = Byte.hyphen
  · rw [hyphen, next_hyphen]
    split
    · rename_i number
      exact .inr ⟨rfl, .inl ⟨number, rfl⟩⟩
    split
    · rename_i mark
      exact .inr ⟨rfl, .inr (.inl ⟨List.isPrefixOf_iff_prefix.mp mark, rfl⟩)⟩
    split
    · exact .inl rfl
    · have single : charLength (Byte.hyphen :: rest) = 1 := by
        rw [charLength, width_of_ascii (by decide)]
        rfl
      rw [single]
      exact .inr ⟨rfl, .inr (.inr rfl)⟩
  · have start : ∀ b, Recognizer.beginsCustomIdent b = true → b ≠ Byte.hyphen → Byte.isNameStart b = true := by
      decide +kernel
    exact .inl (next_nameStart rest (start c begun hyphen))

end Scan

namespace Recognizer

open CssLex.Scan CssLex.Stream

variable {c : UInt8} {rest text : Bytes} {kind : Kind}

/-- The tokens that count as custom identifiers, by their kinds and texts. -/
inductive CountsAsIdent : Kind → Bytes → Prop where
  /-- Identifiers of the form, other than the reserved keywords in whatever case. -/
  | ident {text : Bytes} (shape : text ∈ Grammar.customIdent)
      (free : ∀ keyword ∈ ["unset", "initial", "inherit", "default"], (utf8 keyword).equalIgnoringCase text = false) :
      CountsAsIdent .ident text
  | hyphen : CountsAsIdent .delim [Byte.hyphen]
  /-- Numbers of the form, also with a unit or a percent sign. -/
  | negative {kind : Kind} {text : Bytes} (numeric : kind = .dimension ∨ kind = .percentage ∨ kind = .number)
      (number : text.take (Literal.length text) ∈ Grammar.negativeInteger) : CountsAsIdent kind text

/-- Of the names only identifiers are of the form: the others have a parenthesis in them. -/
theorem ident_of_isCustomIdent {bytes : Bytes} (ofKind : kind = (identLike bytes).kind)
    (ofText : text = bytes.take (identLike bytes).length)
    (shape : isCustomIdent (text.take (splitAt kind text)) = true) : kind = .ident ∧ isCustomIdent text = true := by
  have whole : text.take (splitAt kind text) = text := by
    rcases identLike_kind bytes with same | same | same | same <;> rw [ofKind, same] <;> exact List.take_length
  rw [whole] at shape
  refine ⟨?_, shape⟩
  by_contra other
  rw [ofKind] at other
  rw [ofText, not_isCustomIdent_of_mem (by decide) (mem_take_identLike other)] at shape
  cases shape

/-- A token whose first component is a custom identifier counts as one. -/
theorem CountsAsIdent.of_isCustomIdent (ofKind : kind = (next (c :: rest)).kind)
    (ofText : text = (c :: rest).take (next (c :: rest)).length)
    (shape : isCustomIdent (text.take (splitAt kind text)) = true) : CountsAsIdent kind text := by
  have begun : beginsCustomIdent c = true := by
    by_contra other
    have front : text.take (splitAt kind text) <+: c :: rest :=
      (List.take_prefix _ _).trans (ofText ▸ List.take_prefix _ _)
    rw [not_isCustomIdent_of_first (Bool.eq_false_iff.mpr other) front] at shape
    cases shape
  rcases next_of_beginsCustomIdent begun rest with name | ⟨hyphen, ⟨number, same⟩ | ⟨mark, same⟩ | same⟩
  · rw [name] at ofKind ofText
    obtain ⟨rfl, whole⟩ := ident_of_isCustomIdent ofKind ofText shape
    obtain ⟨form, free⟩ := isCustomIdent_iff.mp whole
    exact .ident form free
  · obtain ⟨split, isNumber⟩ := take_splitAt_numeric number
    rw [← same, ← ofText] at split isNumber
    rw [ofKind, split] at shape
    refine .negative ?_ (mem_negativeInteger.mpr ⟨shape, isNumber⟩)
    rw [ofKind, same]
    exact numeric_kind _
  · obtain ⟨more, rfl⟩ := mark
    rw [same] at ofKind ofText
    -- only the last byte of the mark is not of the form
    have greater : Byte.greaterThan ∈ text.take (splitAt kind text) := by
      rw [ofKind, ofText]
      exact List.mem_cons_of_mem _ (List.mem_cons_of_mem _ List.mem_cons_self)
    rw [not_isCustomIdent_of_mem (by decide) greater] at shape
    cases shape
  · rw [same] at ofKind ofText
    rw [ofKind, ofText, hyphen]
    exact .hyphen

/-- The first component of a token is a custom identifier just if the token counts as one. -/
theorem isCustomIdent_take_iff (ofKind : kind = (next (c :: rest)).kind)
    (ofText : text = (c :: rest).take (next (c :: rest)).length) :
    isCustomIdent (text.take (splitAt kind text)) = true ↔ CountsAsIdent kind text := by
  refine ⟨.of_isCustomIdent ofKind ofText, fun counts => ?_⟩
  cases counts with
  | ident shape free =>
    have whole : text.take (splitAt .ident text) = text := List.take_length
    rw [whole]
    exact isCustomIdent_iff.mpr ⟨shape, free⟩
  | hyphen => decide +kernel
  | negative numeric number =>
    rw [ofKind] at numeric
    obtain ⟨begun, same⟩ := numeric_of_kind numeric
    obtain ⟨split, -⟩ := take_splitAt_numeric begun
    rw [← same, ← ofKind, ← ofText] at split
    rw [split]
    exact (mem_negativeInteger.mp number).1

/-- From each place of the cursor in a string the texts are found, and among their components a custom identifier is
recognised just if the first token that is neither whitespace nor a comment counts as one. A component counts both as a
custom identifier and as a number just if it is a number with a minus sign in front and neither a point nor a plus
sign. -/
theorem run_customIdent_iff {s : Stream} {source : String} (reachable : s.Reachable)
    (same : s.source = Text.ofString source) :
    (∃ texts, ValueTexts.ofStream? s = some texts ∧
      ((customIdent.run (ComponentInput.ofList texts.components)).1 = true ↔
        ∃ r, s.firstValue? = some r ∧ CountsAsIdent r.kind (s.textOf r))) ∧
    ∀ {σ : Type} [Input σ] {input : σ} {c : Component}, Input.peek? input 0 = some c →
      ((customIdent.run input).1 = true ∧ (number.run input).1 = true ↔ c.text ∈ Grammar.negativeInteger) := by
  constructor
  · obtain ⟨texts, cut, holds⟩ := ValueTexts.ofStream?_eq reachable same
    refine ⟨texts, cut, ?_⟩
    rw [run_ofList, claim?, holds.components]
    cases found : s.firstValue? with
    | none => simp [components_none found, claimOne]
    | some r =>
      obtain ⟨c, rest, kind, text, ⟨first, here, head⟩, -, -⟩ := components_found reachable found
      simp only [Option.some.injEq, exists_eq_left', here, claimOne_isSome, head, isCustomIdent_take_iff kind text]
  · intro σ _ input c next
    rw [run_fst, run_fst, claim?, claim?, next, claimOne_isSome, claimOne_isSome, mem_negativeInteger]

/-- In `a/**/ -1px` a custom identifier is recognised behind the comment. It is the number of a dimension. -/
theorem run_customIdent_iff_negative :
    let source := "a/**/ -1px"
    let s := (Stream.ofString source).next
    s.Reachable ∧ s.source = Text.ofString source ∧ s.firstValue? = some ⟨.dimension, 6, 10, 3⟩ ∧
      s.textOf ⟨.dimension, 6, 10, 3⟩ = utf8 "-1px" ∧
      ∃ texts, ValueTexts.ofStream? s = some texts ∧
        (customIdent.run (ComponentInput.ofList texts.components)).1 = true ∧
        ∃ c, Input.peek? (ComponentInput.ofList texts.components) 0 = some c ∧ c.text ∈ Grammar.negativeInteger := by
  intro source s
  have reachable : s.Reachable := .next (.ofText _)
  have same : s.source = Text.ofString source := by rw [next_source, ofString, source_ofText]
  have found : s.firstValue? = some ⟨.dimension, 6, 10, 3⟩ := by decide +kernel
  have text : s.textOf ⟨.dimension, 6, 10, 3⟩ = utf8 "-1px" := by decide +kernel
  have front : (utf8 "-1px").take (Literal.length (utf8 "-1px")) = utf8 "-1" := by decide +kernel
  let negative : ValueTexts := ⟨#[utf8 "-1", utf8 "px"], #[true, false]⟩
  have all : ValueTexts.ofStream? s = some negative := by decide +kernel
  have next : Input.peek? (ComponentInput.ofList negative.components) 0 = some (.ofText (utf8 "-1") true) := by
    decide +kernel
  obtain ⟨⟨texts, cut, recognised⟩, both⟩ := run_customIdent_iff reachable same
  obtain rfl := Option.some.inj (all.symm.trans cut)
  refine ⟨reachable, same, found, text, _, cut, recognised.mpr ⟨_, found, .negative (.inl rfl) ?_⟩, _, next, ?_⟩
  · rw [text, front]
    exact mem_negativeInteger.mpr (by decide +kernel)
  · exact (both next).mp ⟨by decide +kernel, by decide +kernel⟩

/-- In `-1` a number is recognised as a custom identifier, in `-` a delimiter. -/
theorem run_customIdent_not_ident :
    let recognised := fun (r : Recognizer) (texts : ValueTexts) => (r.run (ComponentInput.ofList texts.components)).1
    let isIdent := fun (s : Stream) => ∃ r, s.firstValue? = some r ∧ r.kind = .ident ∧
      s.textOf r ∈ Grammar.customIdent ∧
      ∀ keyword ∈ ["unset", "initial", "inherit", "default"], (utf8 keyword).equalIgnoringCase (s.textOf r) = false
    (∀ source ∈ ["-1", "-"], (Stream.ofString source).Reachable ∧
      ∃ texts, ValueTexts.ofStream? (Stream.ofString source) = some texts ∧
        ¬(recognised customIdent texts = true ↔ isIdent (Stream.ofString source))) ∧
    ∃ texts, ValueTexts.ofStream? (Stream.ofString "-1") = some texts ∧
      recognised customIdent texts = true ∧ recognised number texts = true := by
  intro recognised isIdent
  have shape : ∀ source ∈ ["-1", "-"],
      ValueTexts.ofStream? (Stream.ofString source) = some ⟨#[utf8 source], #[false]⟩ ∧
        recognised customIdent ⟨#[utf8 source], #[false]⟩ = true ∧
        (Stream.ofString source).firstValue?.any (fun r => r.kind == .ident) = false := by decide +kernel
  refine ⟨fun source member => ?_, ⟨#[utf8 "-1"], #[false]⟩, by decide +kernel, by decide +kernel, by decide +kernel⟩
  obtain ⟨cut, accepted, other⟩ := shape source member
  refine ⟨.ofText _, _, cut, fun claim => ?_⟩
  obtain ⟨r, found, kind, -⟩ := claim.mp accepted
  rw [found, Option.any_some, kind] at other
  cases other

end Recognizer
end CssLex
