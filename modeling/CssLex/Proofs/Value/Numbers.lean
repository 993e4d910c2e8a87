import CssLex.Proofs.Number.Grammar
import CssLex.Value.Recognizer

namespace CssLex

namespace Literal

open CssLex.Scan

variable {front text : Bytes}

theorem isNumber_iff_mem : isNumber text = true ↔ text ∈ Grammar.number := by
  rw [isNumber_iff_written, mem_number]

private theorem length_le (text : Bytes) : length text ≤ text.length := by
  have fits := numberLength_le text
  rw [length_eq]
  split <;> omega

/-- No number in front of a text is longer than the one that is read. -/
theorem length_le_of_front (number : isNumber front = true) (inFront : front <+: text) :
    front.length ≤ length text := by
  obtain ⟨rest, rfl⟩ := inFront
  obtain ⟨begun, whole⟩ := isNumber_iff.mp number
  rw [length_eq, if_pos (beginsNumber_append begun rest)]
  by_contra shorter
  -- a number that ends inside of the first text would also end there without what follows
  have same := numberLength_of_append (Nat.le_of_lt (Nat.not_le.mp shorter))
  omega

/-- Where a number is in front, what is read is a number. -/
theorem isNumber_take_length (number : isNumber front = true) (inFront : front <+: text) :
    isNumber (text.take (length text)) = true := by
  obtain ⟨rest, rfl⟩ := inFront
  have begun := beginsNumber_append (isNumber_iff.mp number).1 rest
  rw [length_eq, if_pos begun]
  exact isNumber_take begun

private theorem length_of_no_front (none : ∀ front, isNumber front = true → ¬front <+: text) : length text = 0 := by
  rw [length_eq]
  split
  · rename_i begun
    exact absurd (List.take_prefix _ text) (none _ (isNumber_take begun))
  · rfl

private theorem acceptsLiteral_iff {accept : Literal → Bool} :
    Recognizer.acceptsLiteral accept text = true ↔ ∃ l, Written l text ∧ accept l = true := by
  simp only [Recognizer.acceptsLiteral, Option.any_eq_true, ofBytes?_eq_some_iff]

/-- What is read at the front of a text is the longest number there, nothing if there is none; a text is a number just
if it is one of the grammar, and where it comes next, it is recognised as an integer and as a positive integer just if
it is one of theirs. -/
theorem length_longest (text : Bytes) :
    ((∃ front ∈ Grammar.number, front <+: text) →
        IsGreatest {n | ∃ front ∈ Grammar.number, front <+: text ∧ front.length = n} (length text)) ∧
      ((∀ front ∈ Grammar.number, ¬front <+: text) → length text = 0) ∧
      (isNumber text = true ↔ text ∈ Grammar.number) ∧
      ∀ {σ : Type} [Input σ] {input : σ} {c : Component}, Input.peek? input 0 = some c → c.text = text →
        ((Recognizer.integer.run input).1 = true ↔ text ∈ Grammar.integer) ∧
          ((Recognizer.positiveInteger.run input).1 = true ↔ text ∈ Grammar.positiveInteger) := by
  refine ⟨?_, ?_, isNumber_iff_mem, ?_⟩
  · rintro ⟨front, number, inFront⟩
    rw [← isNumber_iff_mem] at number
    constructor
    · refine ⟨_, isNumber_iff_mem.mp (isNumber_take_length number inFront), List.take_prefix _ _, ?_⟩
      rw [List.length_take, Nat.min_eq_left (length_le text)]
    · rintro _ ⟨front, number, inFront, rfl⟩
      exact length_le_of_front (isNumber_iff_mem.mpr number) inFront
  · intro none
    exact length_of_no_front fun front number => none front (isNumber_iff_mem.mp number)
  · rintro σ _ input c next rfl
    simp only [Recognizer.run_fst, next, Recognizer.claim?, Recognizer.claimOne_isSome, acceptsLiteral_iff, mem_integer,
      mem_positiveInteger, Bool.and_eq_true, Bool.not_eq_true', and_self]

/-- In `+1e5e` the last byte does not belong to the number, and `+1e5` is a positive integer that has an exponent. -/
theorem length_longest_exponent :
    let c := Component.ofText (utf8 "+1e5") false
    (∃ front ∈ Grammar.number, front <+: utf8 "+1e5e") ∧
      IsGreatest {n | ∃ front ∈ Grammar.number, front <+: utf8 "+1e5e" ∧ front.length = n} 4 ∧
      Input.peek? (ComponentInput.ofList [c]) 0 = some c ∧ c.text ∈ Grammar.positiveInteger := by
  intro c
  obtain ⟨greatest, -⟩ := length_longest (utf8 "+1e5e")
  obtain ⟨-, -, number, integers⟩ := length_longest (utf8 "+1e5")
  have front : ∃ front ∈ Grammar.number, front <+: utf8 "+1e5e" :=
    ⟨utf8 "+1e5", number.mp (by decide +kernel), ⟨utf8 "e", by decide⟩⟩
  have length : length (utf8 "+1e5e") = 4 := by decide +kernel
  have next : Input.peek? (ComponentInput.ofList [c]) 0 = some c := rfl
  refine ⟨front, length ▸ greatest front, next, (integers next rfl).2.mp ?_⟩
  decide +kernel

end Literal
end CssLex
