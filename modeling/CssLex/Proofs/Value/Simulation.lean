import CssLex.Proofs.Stream.Cursor
import CssLex.Proofs.Value.Consumption

/-!
Recognition on a stream goes on like recognition on the list of the components that the stream shows ahead, step by
step and up to the end of both (`runAll_peeked`). The two do not show the same: the current token of a stream is never
spaced, while in the list a component stays as it was read. No recognizer looks at this mark.
-/

namespace CssLex

/-- A component without the mark of what stands before it. -/
def Component.unspaced (c : Component) : Component := { c with spaced := false }

/-- Whether the next component is spaced makes no difference to what is claimed. -/
theorem Recognizer.claim?_congr {first other : Option Component}
    (same : first.map Component.unspaced = other.map Component.unspaced) (r : Recognizer) (second : Option Component) :
    r.claim? first second = r.claim? other second := by
  cases first with
  | none =>
    cases other with
    | none => rfl
    | some b => simp at same
  | some a =>
    cases other with
    | none => simp at same
    | some b =>
      obtain ⟨text, node⟩ : a.text = b.text ∧ a.node = b.node := by simpa [Component.unspaced] using same
      cases second <;> cases r <;> simp [claim?, claimOne, claimDimension, claimHexColor, claimNode, text, node]

namespace Stream

variable {start s : Stream} {input : ComponentInput}

theorem component?_eq (s : Stream) (k : Nat) : s.component? k = (s.records[s.index + k]?).map fun r =>
    Component.ofText (s.textOf r)
      (decide (0 < k) && (((s.records[s.index + (k - 1)]?).map Record.kind).getD .eof).isTrivia) := rfl

/-- There is a component for each token ahead. -/
private theorem isSome_component? {k : Nat} : (s.component? k).isSome = true ↔ s.index + k < s.count := by
  rw [component?_eq, Option.isSome_map, isSome_getElem?]
  rfl

/-- The components from offset `k` on, read one after the other until there is none. -/
def peekFrom (s : Stream) (k : Nat) : List Component :=
  match here : s.component? k with
  | none => []
  | some c => c :: s.peekFrom (k + 1)
termination_by s.count - (s.index + k)
decreasing_by
  have inRange := isSome_component?.mp (Option.isSome_of_eq_some here)
  omega

/-- All components ahead. -/
def peeked (s : Stream) : List Component := s.peekFrom 0

private theorem getElem?_peekFrom (s : Stream) (k i : Nat) : (s.peekFrom k)[i]? = s.component? (k + i) := by
  induction i generalizing k with
  | zero =>
    rw [peekFrom]
    split
    · rename_i none
      exact none.symm
    · rename_i some
      exact some.symm
  | succ i ih =>
    rw [peekFrom]
    split
    · rename_i none
      have past : ¬s.index + k < s.count := by simp [← isSome_component?, none]
      have still : ¬(s.component? (k + (i + 1))).isSome = true := by
        rw [isSome_component?]
        omega
      exact (Option.not_isSome_iff_eq_none.mp still).symm
    · rw [List.getElem?_cons_succ, ih, Nat.add_right_comm, Nat.add_assoc]

private theorem getElem?_peeked (s : Stream) (k : Nat) : s.peeked[k]? = Input.peek? s k := by
  rw [peeked, getElem?_peekFrom, Nat.zero_add]
  rfl

private theorem lt_length_peeked {k : Nat} : k < s.peeked.length ↔ s.index + k < s.count := by
  have here : s.peeked[k]?.isSome = true ↔ k < s.peeked.length := by simp
  rw [← here, getElem?_peeked, ← isSome_component?]
  rfl

/-- A stream that was at `start`, and the list of what was ahead there, with the same components passed. -/
structure Abreast (start s : Stream) (input : ComponentInput) : Prop where
  source : s.source = start.source
  table : s.table = start.table
  placed : s.Placed
  components : input.components = start.peeked
  index : s.index = start.index + input.taken

namespace Abreast

private theorem refl (placed : s.Placed) : Abreast s s (.ofList s.peeked) := ⟨rfl, rfl, placed, rfl, rfl⟩

/-- The list shows what the stream showed at first. -/
private theorem peek?_input (abreast : Abreast start s input) (k : Nat) :
    Input.peek? input k = start.component? (input.taken + k) := by
  change input.components[input.taken + k]? = _
  rw [abreast.components, getElem?_peeked]
  rfl

/-- Behind the next component both show the same. -/
private theorem peek?_succ (abreast : Abreast start s input) (k : Nat) :
    Input.peek? s (k + 1) = Input.peek? input (k + 1) := by
  rw [abreast.peek?_input]
  change s.component? (k + 1) = _
  have far : start.index + (input.taken + (k + 1) - 1) = s.index + (k + 1 - 1) := by
    have := abreast.index
    omega
  have near : start.index + (input.taken + (k + 1)) = s.index + (k + 1) := by
    have := abreast.index
    omega
  have behind : 0 < input.taken + (k + 1) := Nat.succ_pos _
  rw [component?_eq, component?_eq, far, near]
  simp [records, textOf, abreast.table, abreast.source, behind]

/-- The next component is the same but for its mark. -/
private theorem peek?_zero (abreast : Abreast start s input) :
    (Input.peek? s 0).map Component.unspaced = (Input.peek? input 0).map Component.unspaced := by
  rw [abreast.peek?_input]
  change (s.component? 0).map _ = _
  have same : start.index + (input.taken + 0) = s.index + 0 := abreast.index.symm
  rw [component?_eq, component?_eq, same, Option.map_map, Option.map_map]
  simp [records, textOf, abreast.table, abreast.source, Function.comp_def, Component.unspaced, Component.ofText]

/-- Taking a component keeps them abreast, also at the end, where there is none to take. -/
theorem take (abreast : Abreast start s input) : Abreast start (Input.take s) (Input.take input) := by
  obtain ⟨source, table, placed, components, index⟩ := abreast
  have count : s.count = start.count := congrArg Table.size table
  have moved : s.next.index = start.index + (Input.take input).taken := by
    change _ = start.index + (if input.taken < input.components.length then _ else input).taken
    have inRange := placed.inRange
    rw [placed.index_next, components]
    split
    · rename_i more
      rw [lt_length_peeked] at more
      dsimp only
      omega
    · rename_i last
      rw [lt_length_peeked] at last
      omega
  have left : (Input.take input).components = start.peeked := by
    change (if input.taken < input.components.length then _ else input).components = _
    split <;> exact components
  exact ⟨(next_source s).trans source, (next_table s).trans table, placed.next, left, moved⟩

private theorem takeMany (abreast : Abreast start s input) (count : Nat) :
    Abreast start (Input.takeMany count s) (Input.takeMany count input) := by
  induction count generalizing s input with
  | zero => exact abreast
  | succ count ih => exact ih abreast.take

private theorem claim?_eq (abreast : Abreast start s input) (r : Recognizer) :
    r.claim? (Input.peek? s 0) (Input.peek? s 1) = r.claim? (Input.peek? input 0) (Input.peek? input 1) := by
  rw [abreast.peek?_succ 0]
  exact Recognizer.claim?_congr abreast.peek?_zero r _

end Abreast

end Stream

namespace Action

open CssLex.Stream

variable {start s : Stream} {input : ComponentInput}

/-- Each step gives the same answer on both and leaves them abreast. -/
theorem run_abreast (abreast : Abreast start s input) (action : Action) :
    (action.run s).1 = (action.run input).1 ∧ Abreast start (action.run s).2 (action.run input).2 := by
  cases action with
  | take => exact ⟨rfl, abreast.take⟩
  | recognise r =>
    rw [run, run, Recognizer.run, Recognizer.run, abreast.claim?_eq]
    split
    · exact ⟨rfl, abreast.takeMany _⟩
    · exact ⟨rfl, abreast⟩

theorem runAll_abreast (abreast : Abreast start s input) (actions : List Action) :
    (runAll actions s).1 = (runAll actions input).1 ∧
      Abreast start (runAll actions s).2 (runAll actions input).2 := by
  induction actions generalizing s input with
  | nil => exact ⟨rfl, abreast⟩
  | cons action actions ih =>
    obtain ⟨answer, after⟩ := run_abreast abreast action
    obtain ⟨answers, last⟩ := ih after
    rw [runAll, runAll, answer, answers]
    exact ⟨rfl, last⟩

/-- The same steps have the same answers on a stream and on the list of all components that it shows ahead, and after
each of them the cursor has passed as many tokens as components are taken from the list. -/
theorem runAll_peeked (reachable : s.Reachable) (actions : List Action) :
    (∀ k, s.peeked[k]? = Input.peek? s k) ∧
      (runAll actions s).1 = (runAll actions (ComponentInput.ofList s.peeked)).1 ∧
      ∀ k, (runAll (actions.take k) s).2.index =
        s.index + (runAll (actions.take k) (ComponentInput.ofList s.peeked)).2.taken := by
  have start := Abreast.refl reachable.placed
  refine ⟨getElem?_peeked s, (runAll_abreast start actions).1, ?_⟩
  intro k
  exact (runAll_abreast start (actions.take k)).2.index

/-- In `a 1 0` the last component is spaced where it is read from behind the `a`, but not when the cursor is on it. -/
theorem runAll_peeked_spaced : (Stream.ofString "a 1 0").next.next.Reachable ∧
    (runAll [.recognise .integer, .take, .recognise (.zeroUnitlessDimension .length), .take]
      (Stream.ofString "a 1 0").next.next).1 = [some true, none, some true, none] ∧
    (runAll [.recognise .integer, .take, .recognise (.zeroUnitlessDimension .length), .take]
      (ComponentInput.ofList (Stream.ofString "a 1 0").next.next.peeked)).1 = [some true, none, some true, none] ∧
    (runAll [.recognise .integer, .take, .recognise (.zeroUnitlessDimension .length), .take]
      (Stream.ofString "a 1 0").next.next).2.index = 5 := by
  have reachable : (Stream.ofString "a 1 0").next.next.Reachable := (Reachable.ofText _).next.next
  obtain ⟨-, answers, index⟩ := runAll_peeked reachable
    [.recognise .integer, .take, .recognise (.zeroUnitlessDimension .length), .take]
  have onList : runAll [.recognise .integer, .take, .recognise (.zeroUnitlessDimension .length), .take]
      (ComponentInput.ofList (Stream.ofString "a 1 0").next.next.peeked) =
      ([some true, none, some true, none], ⟨(Stream.ofString "a 1 0").next.next.peeked, 3⟩) := by decide +kernel
  have first : (Stream.ofString "a 1 0").next.next.index = 2 := by decide +kernel
  have last := index 4
  rw [List.take_of_length_le (by decide), first, onList] at last
  rw [onList] at answers
  exact ⟨reachable, answers, by rw [onList], last⟩

end Action
end CssLex
