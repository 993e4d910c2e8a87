import CssLex.Value.Recognizer

/-!
A recognizer that fails leaves its input as it is. One that succeeds takes as many components as its type of value is
made of, all of which are there, and it never looks behind the next two (`runAll_atomic`).
-/

namespace CssLex

/-- What a grammar does with its input, one step at a time. -/
inductive Action where
  /-- One component is taken, whatever it is. -/
  | take
  /-- What the recognizer claims is taken. -/
  | recognise (r : Recognizer)
  deriving DecidableEq, Repr

namespace Action

/-- The answer of a step, if it asks for a recognizer's, and the input behind it. -/
def run {σ : Type} [Input σ] : Action → σ → Option Bool × σ
  | take, input => (none, Input.take input)
  | recognise r, input => (some (r.run input).1, (r.run input).2)

/-- The answers of a sequence of steps, and the input behind all of them. -/
def runAll {σ : Type} [Input σ] : List Action → σ → List (Option Bool) × σ
  | [], input => ([], input)
  | action :: actions, input =>
    ((action.run input).1 :: (runAll actions (action.run input).2).1, (runAll actions (action.run input).2).2)

end Action

namespace ComponentInput

variable {input : ComponentInput} {components : List Component}

private theorem peek?_eq (input : ComponentInput) (offset : Nat) :
    Input.peek? input offset = input.remaining[offset]? :=
  List.getElem?_drop.symm

private theorem length_remaining (input : ComponentInput) :
    input.remaining.length = input.components.length - input.taken := List.length_drop

/-- Where there are components enough, all that are asked for are taken. -/
private theorem takeMany_eq {count : Nat} (enough : count ≤ input.remaining.length) :
    Input.takeMany count input = { input with taken := input.taken + count } := by
  induction count generalizing input with
  | zero => rfl
  | succ count ih =>
    rw [length_remaining] at enough
    have one : Input.take input = { input with taken := input.taken + 1 } := if_pos (by omega)
    have fewer : count ≤ (Input.take input).remaining.length := by
      rw [one, length_remaining]
      dsimp only
      omega
    rw [Input.takeMany, ih fewer, one, Nat.add_assoc, Nat.add_comm 1 count]

/-- The components are these, and no more of them are taken than there are. -/
structure Within (components : List Component) (input : ComponentInput) : Prop where
  same : input.components = components
  fits : input.taken ≤ components.length

private theorem Within.take (within : Within components input) : Within components (Input.take input) := by
  obtain ⟨rfl, fits⟩ := within
  change Within input.components (if input.taken < input.components.length then _ else _)
  split
  · exact ⟨rfl, by assumption⟩
  · exact ⟨rfl, fits⟩

private theorem Within.takeMany (within : Within components input) (count : Nat) :
    Within components (Input.takeMany count input) := by
  induction count generalizing input with
  | zero => exact within
  | succ count ih => exact ih within.take

end ComponentInput

namespace Recognizer

variable {input : ComponentInput} {first second : Option Component} {count : Nat}

theorem claimOne_eq_some {accept : Bytes → Bool} (claim : claimOne accept first = some count) :
    count = 1 ∧ first.isSome = true := by
  unfold claimOne at claim
  split at claim
  · split at claim
    · exact ⟨(Option.some.inj claim).symm, rfl⟩
    · cases claim
  · cases claim

private theorem claimDimension_eq_some {units : UnitSet} (claim : claimDimension units first second = some count) :
    count = 2 ∧ first.isSome = true ∧ second.isSome = true := by
  unfold claimDimension at claim
  split at claim
  · split at claim
    · exact ⟨(Option.some.inj claim).symm, rfl, rfl⟩
    · cases claim
  · cases claim

private theorem claimHexColor_eq_some (claim : claimHexColor first second = some count) : count = 0 := by
  unfold claimHexColor at claim
  split at claim
  · split at claim
    · exact (Option.some.inj claim).symm
    · cases claim
  · cases claim

private theorem claimNode_eq_some {accept : Node → Bool} (claim : claimNode accept first = some count) : count = 0 := by
  unfold claimNode at claim
  split at claim
  · exact (Option.some.inj claim).symm
  · cases claim

/-- On a list the claim is about what remains of it. -/
theorem run_list (r : Recognizer) (input : ComponentInput) :
    r.run input = match r.claim? input.remaining[0]? input.remaining[1]? with
      | some count => (true, Input.takeMany count input)
      | none => (false, input) := by
  have peek := ComponentInput.peek?_eq input
  cases claim : r.claim? input.remaining[0]? input.remaining[1]? <;> rw [run, peek, peek, claim]

/-- How many components a value of the type is made of. A zero without a unit is a value only where there is no
dimension. -/
def share (input : ComponentInput) : Recognizer → Nat
  | number | numberZeroOne | numberOneOrGreater | integer | positiveInteger | customIdent => 1
  | dimension _ => 2
  | zeroUnitlessDimension units => if ((dimension units).run input).1 then 2 else 1
  | hexColor | node _ | attr | unsupported _ => 0

private theorem isSome_remaining {k : Nat} (some : input.remaining[k]?.isSome = true) :
    k + 1 ≤ input.remaining.length := by
  obtain ⟨c, here⟩ := Option.isSome_iff_exists.mp some
  exact (List.getElem?_eq_some_iff.mp here).1

/-- What is claimed is the share of the type, and it is there. -/
theorem share_of_claim {r : Recognizer} (claim : r.claim? input.remaining[0]? input.remaining[1]? = some count) :
    count = r.share input ∧ count ≤ input.remaining.length := by
  have single {accept} (claim : claimOne accept input.remaining[0]? = some count) :
      count = 1 ∧ count ≤ input.remaining.length := by
    obtain ⟨rfl, first⟩ := claimOne_eq_some claim
    exact ⟨rfl, isSome_remaining first⟩
  have pair {units} (claim : claimDimension units input.remaining[0]? input.remaining[1]? = some count) :
      count = 2 ∧ count ≤ input.remaining.length := by
    obtain ⟨rfl, -, second⟩ := claimDimension_eq_some claim
    exact ⟨rfl, isSome_remaining second⟩
  have none {n : Nat} (zero : n = 0) : n = 0 ∧ n ≤ input.remaining.length := ⟨zero, zero ▸ Nat.zero_le _⟩
  cases r with
  | dimension units => exact pair claim
  | zeroUnitlessDimension units =>
    rw [claim?] at claim
    rw [share, run_list, claim?]
    cases both : claimDimension units input.remaining[0]? input.remaining[1]? with
    | some _ =>
      rw [both, Option.some_or] at claim
      exact pair (both.trans claim)
    | none =>
      rw [both, Option.none_or] at claim
      exact single claim
  | hexColor => exact none (claimHexColor_eq_some claim)
  | node kind => exact none (claimNode_eq_some claim)
  | attr => exact none (claimNode_eq_some claim)
  | unsupported name => cases claim
  | _ => exact single claim

/-- Recognition takes all of a value or nothing, and does not see behind the next two components. -/
structure Atomic (r : Recognizer) (input : ComponentInput) : Prop where
  /-- A failure takes nothing. -/
  failed : (r.run input).1 = false → (r.run input).2 = input
  /-- A success takes the share of the type, which is there. -/
  matched : (r.run input).1 = true →
    (r.run input).2 = { input with taken := input.taken + r.share input } ∧ r.share input ≤ input.remaining.length
  /-- A type that is known by name only is not recognised. -/
  unsupported : ∀ name, r = .unsupported name → (r.run input).1 = false
  /-- Where the next two components are the same, so is the answer and how many are taken. -/
  ahead : ∀ other : ComponentInput, other.remaining.take 2 = input.remaining.take 2 →
    (r.run other).1 = (r.run input).1 ∧
      ∃ count, (r.run other).2 = { other with taken := other.taken + count } ∧
        (r.run input).2 = { input with taken := input.taken + count }

theorem run_of_claim {r : Recognizer} (claim : r.claim? input.remaining[0]? input.remaining[1]? = some count) :
    r.run input = (true, { input with taken := input.taken + count }) := by
  rw [run_list, claim]
  dsimp only
  rw [ComponentInput.takeMany_eq (share_of_claim claim).2]

private theorem run_of_no_claim {r : Recognizer} (claim : r.claim? input.remaining[0]? input.remaining[1]? = none) :
    r.run input = (false, input) := by
  rw [run_list, claim]

theorem atomic (r : Recognizer) (input : ComponentInput) : r.Atomic input := by
  have seen (other : ComponentInput) (alike : other.remaining.take 2 = input.remaining.take 2) {k : Nat} (near : k < 2) :
      other.remaining[k]? = input.remaining[k]? := by
    rw [← List.getElem?_take_of_lt near, alike, List.getElem?_take_of_lt near]
  cases claim : r.claim? input.remaining[0]? input.remaining[1]? with
  | none =>
    have run := run_of_no_claim claim
    refine ⟨fun _ => by rw [run], fun matched => by simp [run] at matched, fun _ _ => by rw [run], ?_⟩
    intro other alike
    rw [← seen other alike (by decide), ← seen other alike (by decide)] at claim
    rw [run, run_of_no_claim claim]
    exact ⟨rfl, 0, rfl, rfl⟩
  | some count =>
    obtain ⟨share, fits⟩ := share_of_claim claim
    have run := run_of_claim claim
    refine ⟨fun failed => by simp [run] at failed, fun _ => ?_, ?_, ?_⟩
    · rw [run, ← share]
      exact ⟨rfl, fits⟩
    · rintro name rfl
      cases claim
    · intro other alike
      rw [← seen other alike (by decide), ← seen other alike (by decide)] at claim
      rw [run, run_of_claim claim]
      exact ⟨rfl, count, rfl, rfl⟩

end Recognizer

namespace Action

open ComponentInput

variable {components : List Component} {input : ComponentInput}

/-- No step takes more than there is. -/
private theorem within_run (within : Within components input) (action : Action) :
    Within components (action.run input).2 := by
  cases action with
  | take => exact within.take
  | recognise r =>
    rw [run, Recognizer.run_list]
    split
    · exact within.takeMany _
    · exact within

private theorem within_runAll (within : Within components input) (actions : List Action) :
    Within components (runAll actions input).2 := by
  induction actions generalizing input with
  | nil => exact within
  | cons action actions ih => exact ih (within_run within action)

/-- Whatever was taken and recognised before, the list is the same, no more of it is taken than there is, and the next
recognizer takes all that its type of value is made of, or nothing. -/
theorem runAll_atomic (components : List Component) (actions : List Action) (r : Recognizer) :
    (runAll actions (ofList components)).2.components = components ∧
      (runAll actions (ofList components)).2.taken ≤ components.length ∧
      (runAll actions (ofList components)).2.remaining =
        components.drop (runAll actions (ofList components)).2.taken ∧
      r.Atomic (runAll actions (ofList components)).2 := by
  have start : Within components (ofList components) := ⟨rfl, Nat.zero_le _⟩
  obtain ⟨same, fits⟩ := within_runAll start actions
  refine ⟨same, fits, ?_, r.atomic _⟩
  rw [remaining, same]

end Action
end CssLex
