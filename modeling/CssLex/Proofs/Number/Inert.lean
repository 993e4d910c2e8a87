import CssLex.Proofs.Scan.Settled

/-!
Some bytes belong to no number, whatever stands in front of them: names that could not be taken for an exponent, percent
signs, whitespace. In front of them a number is as long as by itself (`numberLength_inert`), and with a unit it makes
one token (`numeric_unit`).
-/

namespace CssLex.Scan

variable {u v : Bytes}

/-- No number goes on with these bytes. -/
structure Inert (v : Bytes) : Prop where
  digit : begins Byte.isDigit v = false
  sign : begins Byte.isSign v = false
  point : begins (· == Byte.fullStop) v = false
  /-- An exponent mark has no exponent behind it. -/
  exponent : exponentLength v = 0

private theorem begins_inert {p : UInt8 → Bool} (not : begins p v = false) (u : Bytes) :
    begins p (u ++ v) = begins p u := by
  cases u with
  | nil => exact not
  | cons c rest => rfl

private theorem runLength_inert {p : UInt8 → Bool} (not : begins p v = false) (u : Bytes) :
    runLength p (u ++ v) = runLength p u := by
  induction u with
  | nil =>
    cases v with
    | nil => rfl
    | cons c rest =>
      rw [begins] at not
      simp [runLength, not]
  | cons c rest ih =>
    unfold runLength at ih ⊢
    rw [List.cons_append, List.takeWhile_cons, List.takeWhile_cons]
    split
    · rw [List.length_cons, List.length_cons, ih]
    · rfl

private theorem signLength_inert (inert : Inert v) (u : Bytes) : signLength (u ++ v) = signLength u := by
  rw [signLength, signLength, begins_inert inert.sign]

private theorem fractionLength_inert (inert : Inert v) (u : Bytes) : fractionLength (u ++ v) = fractionLength u := by
  cases u with
  | nil =>
    cases v with
    | nil => rfl
    | cons c rest =>
      have point : (c == Byte.fullStop) = false := inert.point
      simp [fractionLength, point]
  | cons c rest =>
    rw [List.cons_append, fractionLength, fractionLength, begins_inert inert.digit, digitsLength,
      runLength_inert inert.digit, ← digitsLength]

private theorem exponentLength_inert (inert : Inert v) (u : Bytes) : exponentLength (u ++ v) = exponentLength u := by
  cases u with
  | nil => exact inert.exponent
  | cons c rest =>
    rw [List.cons_append, exponentLength, exponentLength, signLength_inert inert,
      List.drop_append_of_le_length (signLength_le rest), begins_inert inert.digit, digitsLength,
      runLength_inert inert.digit, ← digitsLength]

/-- Two lengths that add up stay the same if each of them does. -/
private theorem add_inert {first second : Bytes → Nat} (bound : ∀ bytes, first bytes ≤ bytes.length)
    (one : ∀ u, first (u ++ v) = first u) (two : ∀ u, second (u ++ v) = second u) (u : Bytes) :
    first (u ++ v) + second ((u ++ v).drop (first (u ++ v))) = first u + second (u.drop (first u)) := by
  rw [one, List.drop_append_of_le_length (bound u), two]

private theorem wholeLength_inert (inert : Inert v) : ∀ u, wholeLength (u ++ v) = wholeLength u :=
  add_inert signLength_le (signLength_inert inert) (runLength_inert inert.digit)

private theorem mantissaLength_inert (inert : Inert v) : ∀ u, mantissaLength (u ++ v) = mantissaLength u :=
  add_inert wholeLength_le (wholeLength_inert inert) (fractionLength_inert inert)

/-- No number in front goes on. -/
theorem numberLength_inert (inert : Inert v) : ∀ u, numberLength (u ++ v) = numberLength u :=
  add_inert mantissaLength_le (mantissaLength_inert inert) (exponentLength_inert inert)

/-- The percent sign, or letters that no number could have in its exponent. -/
def isUnit (u : Bytes) : Bool :=
  u == [Byte.percentSign] ||
    (!u.isEmpty && u.all Byte.isLetter && (!begins Byte.isExponentMark u || begins Byte.isLetter (u.drop 1)))

theorem isUnit_iff : isUnit u = true ↔ u = [Byte.percentSign] ∨
    u ≠ [] ∧ (∀ c ∈ u, Byte.isLetter c = true) ∧
      (begins Byte.isExponentMark u = true → begins Byte.isLetter (u.drop 1) = true) := by
  cases mark : begins Byte.isExponentMark u <;> simp [isUnit, mark, and_assoc]

private theorem begins_map (p : UInt8 → Bool) (f : UInt8 → UInt8) (u : Bytes) :
    begins p (u.map f) = begins (fun c => p (f c)) u := by
  cases u <;> rfl

/-- Case makes no difference to a unit. -/
theorem isUnit_of_lower (unit : isUnit (u.map Byte.lower) = true) : isUnit u = true := by
  have sign : ∀ {c}, Byte.lower c = Byte.percentSign → c = Byte.percentSign := by decide +kernel
  have letter : ∀ c, Byte.isLetter (Byte.lower c) = Byte.isLetter c := by decide +kernel
  have mark : ∀ c, Byte.isExponentMark (Byte.lower c) = Byte.isExponentMark c := by decide +kernel
  rw [isUnit_iff] at unit ⊢
  rcases unit with percent | ⟨some, all, behind⟩
  · obtain ⟨c, rfl, same⟩ := List.map_eq_singleton_iff.mp percent
    exact .inl (by rw [sign same])
  · rw [begins_map, ← List.map_drop, begins_map] at behind
    simp only [letter, mark] at behind
    refine .inr ⟨by simpa using some, fun c member => ?_, behind⟩
    rw [← letter]
    exact all _ (List.mem_map_of_mem member)

private theorem not_part_of_letter : ∀ {c}, Byte.isLetter c = true →
    Byte.isDigit c = false ∧ Byte.isSign c = false ∧ (c == Byte.fullStop) = false := by decide +kernel

private theorem inert_of_isUnit (unit : isUnit u = true) (v : Bytes) : Inert (u ++ v) := by
  rcases isUnit_iff.mp unit with rfl | ⟨some, all, mark⟩
  · exact ⟨rfl, rfl, rfl, rfl⟩
  · cases u with
    | nil => exact absurd rfl some
    | cons c rest =>
      obtain ⟨digit, sign, point⟩ := not_part_of_letter (all c List.mem_cons_self)
      refine ⟨digit, sign, point, ?_⟩
      rw [List.cons_append, exponentLength]
      by_cases isMark : Byte.isExponentMark c = true
      · cases rest with
        | nil => cases mark isMark
        | cons d more =>
          -- behind the mark comes a letter, so there is neither a sign nor a digit
          obtain ⟨digit, sign, -⟩ := not_part_of_letter (mark isMark)
          simp [signLength, begins, digit, sign]
      · simp [isMark]

/-- Name bytes in front are part of a name. -/
theorem nameLength_names (all : ∀ c ∈ u, Byte.isName c = true) (v : Bytes) :
    nameLength (u ++ v) = u.length + nameLength v := by
  induction u with
  | nil => simp
  | cons c rest ih =>
    rw [List.forall_mem_cons] at all
    rw [List.cons_append, nameLength, if_pos all.1, ih all.2, List.length_cons]
    omega

/-- Name bytes in front are all of a name if nothing behind them goes on with it. -/
theorem nameLength_of_all (all : ∀ c ∈ u, Byte.isName c = true) (stop : beginsNameItem v = false) :
    nameLength (u ++ v) = u.length := by
  have none := mt beginsNameItem_of_nameLength_pos (Bool.eq_false_iff.mp stop)
  rw [nameLength_names all, Nat.eq_zero_of_not_pos none, Nat.add_zero]

/-- A number and a unit directly behind it are one token, if nothing goes on with the unit. -/
theorem numeric_unit {number unit : Bytes} (whole : numberLength number = number.length) (unital : isUnit unit = true)
    (stop : beginsNameItem v = false) :
    numberLength (number ++ unit ++ v) = number.length ∧
      (numeric (number ++ unit ++ v)).length = (number ++ unit).length := by
  have same : numberLength (number ++ unit ++ v) = number.length := by
    rw [List.append_assoc, numberLength_inert (inert_of_isUnit unital v), whole]
  refine ⟨same, ?_⟩
  rw [numeric, same, List.append_assoc, List.drop_left, List.length_append]
  rcases isUnit_iff.mp unital with rfl | ⟨some, all, -⟩
  · rfl
  · have ident : beginsIdent (unit ++ v) = true := by
      cases unit with
      | nil => exact absurd rfl some
      | cons c rest =>
        have start := Byte.isNameStart_of_isLetter (all c List.mem_cons_self)
        rw [List.cons_append, beginsIdent, Byte.not_hyphen_of_isNameStart start, start]
        rfl
    have names : ∀ c ∈ unit, Byte.isName c = true := fun c member =>
      Byte.isName_of_isNameStart (Byte.isNameStart_of_isLetter (all c member))
    rw [if_pos ident, nameLength_of_all names stop]

end CssLex.Scan
