import CssLex.Proofs.Stream.Lookahead
import CssLex.Proofs.Stream.RegionEnd
import CssLex.Proofs.Value.Consumption

namespace CssLex

namespace Stream

variable {s : Stream}

/-- From the first token the cursor can be put anywhere. -/
private theorem Reachable.seek (reachable : s.Reachable) (index : Nat) : (s.seek index).Reachable := by
  have first : s.reset.Placed := placed_seek s 0
  have start : s.reset.index = 0 := by
    rw [Stream.reset, seek_index]
    exact Nat.zero_min _
  have same : s.reset.skip index = s.seek index := by
    rw [first.skip_eq, start, Nat.zero_add]
    exact seek_seek s 0 index
  rw [← same]
  exact reachable.reset.skip index

private theorem Reachable.skipBy (reachable : s.Reachable) (n : UInt64) : (s.skipBy n).Reachable := by
  unfold Stream.skipBy
  split
  · exact reachable
  · exact reachable.seek _

private theorem skipBy_source (s : Stream) (n : UInt64) : (s.skipBy n).source = s.source := by
  unfold skipBy
  split
  · rfl
  · exact seek_source _ _

/-- Skipping up to an index leads there, unless it is behind the cursor or past the end. -/
private theorem Placed.index_skipBy_to (placed : s.Placed) (few : s.count < UInt64.size) {stop : Nat}
    (inWord : stop < UInt64.size) :
    (s.skipBy (.ofNat (stop - s.index))).index = max s.index (min stop s.count) := by
  have inRange := placed.inRange
  rw [skipBy_eq placed few, UInt64.toNat_ofNat_of_lt' (by omega), placed.index_skip]
  omega

/-- The end of a region is a place of the cursor, or the start itself if that is past the last token. -/
theorem Reachable.exists_regionEnd? (reachable : s.Reachable) (start : Nat) (mode : Region.Mode) :
    ∃ stop, s.regionEnd? start mode = some stop ∧ stop ≤ max start s.count := by
  rcases Nat.lt_or_ge s.count start with past | inRange
  · exact ⟨start, regionEnd?_past past, Nat.le_max_left _ _⟩
  · obtain ⟨stop, found, -, -, stopInRange⟩ := regionEnd?_eq_some reachable inRange mode
    exact ⟨stop, found, Nat.le_trans stopInRange (Nat.le_max_right _ _)⟩

end Stream

/-- Something that moves the cursor of a stream. -/
inductive Move where
  | next
  | skip (n : UInt64)
  | reset
  | skipWhitespace
  | skipTrivia
  /-- A skip to the end of the raw region that starts at an index. -/
  | skipRegion (start : UInt64) (mode : Region.Mode)
  /-- A component is taken or a value is recognised. -/
  | act (action : Action)

namespace Move

variable {s : Stream}

/-- The stream after a move; none if the region to be skipped has no end. -/
def run? : Move → Stream → Option Stream
  | next, s => some s.next
  | skip n, s => some (s.skipBy n)
  | reset, s => some s.reset
  | skipWhitespace, s => some s.skipWhitespace
  | skipTrivia, s => some s.skipTrivia
  | skipRegion start mode, s => (s.regionLength? start.toNat mode).map fun length => s.skipBy (.ofNat length)
  | act action, s => some (action.run s).2

def runAll? : List Move → Stream → Option Stream
  | [], s => some s
  | move :: moves, s => (move.run? s).bind (runAll? moves)

private theorem takeMany_reachable (reachable : s.Reachable) (count : Nat) :
    (Input.takeMany count s).Reachable ∧ (Input.takeMany count s).source = s.source := by
  induction count generalizing s with
  | zero => exact ⟨reachable, rfl⟩
  | succ count ih =>
    obtain ⟨reachable', same⟩ := ih reachable.next
    exact ⟨reachable', same.trans (Stream.next_source s)⟩

private theorem action_reachable (reachable : s.Reachable) (action : Action) :
    (action.run s).2.Reachable ∧ (action.run s).2.source = s.source := by
  cases action with
  | take => exact ⟨reachable.next, Stream.next_source s⟩
  | recognise r =>
    rw [Action.run, Recognizer.run]
    split
    · exact takeMany_reachable reachable _
    · exact ⟨reachable, rfl⟩

/-- A skip to the end of a region leads there, or stays where it is if that is behind the cursor. -/
theorem run?_skipRegion (reachable : s.Reachable) (start : UInt64) (mode : Region.Mode) :
    ∃ stop, s.regionEnd? start.toNat mode = some stop ∧ stop ≤ max start.toNat s.count ∧
      (skipRegion start mode).run? s = some (s.skipBy (.ofNat (stop - s.index))) := by
  obtain ⟨stop, found, le⟩ := reachable.exists_regionEnd? start.toNat mode
  refine ⟨stop, found, le, ?_⟩
  rw [run?, Stream.regionLength?, found]
  rfl

/-- Each move leads to a stream of the same source. -/
theorem run?_reachable (reachable : s.Reachable) (move : Move) :
    ∃ s', move.run? s = some s' ∧ s'.Reachable ∧ s'.source = s.source := by
  cases move with
  | next => exact ⟨_, rfl, reachable.next, Stream.next_source s⟩
  | skip n => exact ⟨_, rfl, reachable.skipBy n, Stream.skipBy_source s n⟩
  | reset => exact ⟨_, rfl, reachable.reset, Stream.seek_source s 0⟩
  | skipWhitespace => exact ⟨_, rfl, reachable.skipWhitespace, Stream.stepWhile_source _ _ _⟩
  | skipTrivia => exact ⟨_, rfl, reachable.skipTrivia, Stream.stepWhile_source _ _ _⟩
  | skipRegion start mode =>
    obtain ⟨stop, -, -, run⟩ := run?_skipRegion reachable start mode
    exact ⟨_, run, reachable.skipBy _, Stream.skipBy_source s _⟩
  | act action =>
    obtain ⟨reachable', same⟩ := action_reachable reachable action
    exact ⟨_, rfl, reachable', same⟩

theorem runAll?_reachable (reachable : s.Reachable) (moves : List Move) :
    ∃ s', runAll? moves s = some s' ∧ s'.Reachable ∧ s'.source = s.source := by
  induction moves generalizing s with
  | nil => exact ⟨s, rfl, reachable, rfl⟩
  | cons move moves ih =>
    obtain ⟨s', run, reachable', same⟩ := run?_reachable reachable move
    obtain ⟨last, runs, reachableLast, sameLast⟩ := ih reachable'
    refine ⟨last, ?_, reachableLast, sameLast.trans same⟩
    rw [runAll?, run, Option.bind_some, runs]

/-- Whatever moves the cursor, it stays on a token of the source or at its end, the current text and the text from any
token before it can be cut out, and, unless the source is too long for a stream, the end of every raw region can be
skipped to. -/
theorem runAll?_placed (source : String) (moves : List Move) :
    ∃ s, runAll? moves (Stream.ofString source) = some s ∧ s.source = Text.ofString source ∧
      s.records = (Stream.ofString source).records ∧ s.Placed ∧ s.source.slice? s.start s.stop = some s.text ∧
      (∀ i ≤ s.index, s.textFrom? (s.offset i) =
        some (((s.records.toList.drop i).take (s.index - i)).map s.textOf).flatten) ∧
      ∀ start mode, ∃ stop s', s.regionEnd? start.toNat mode = some stop ∧ (skipRegion start mode).run? s = some s' ∧
        ((Text.ofString source).size ≤ Text.sizeLimit → s'.index = max s.index (min stop s.count)) := by
  obtain ⟨s, run, reachable, same⟩ := runAll?_reachable (.ofText (Text.ofString source)) moves
  rw [Stream.source_ofText] at same
  have placed := reachable.placed
  refine ⟨s, run, same, ?_, placed, ?_, ?_, ?_⟩
  · rw [Stream.records, reachable.table_eq, same, Stream.records, Stream.ofString, Stream.table_ofText]
  · rw [Stream.text, placed.start_eq, reachable.stop_eq]
    exact reachable.slice?_offset same (Nat.le_succ _)
  · intro i before
    rw [Stream.textFrom?, placed.start_eq, reachable.slice?_offset same before,
      reachable.slice_offset before placed.inRange]
  · intro start mode
    obtain ⟨stop, found, le, run⟩ := run?_skipRegion reachable start mode
    refine ⟨stop, _, found, run, fun fits => ?_⟩
    have few := reachable.count_lt (same ▸ fits)
    have word : start.toNat < UInt64.size := start.toNat_lt
    exact placed.index_skipBy_to few (by omega)

/-- In `a{b}c` the greatest word leads to the end of input, from where a region that starts at the first token leads no
further, nor does one that starts at the greatest word. -/
theorem runAll?_placed_greatest :
    let source := "a\x7bb\x7dc"
    let moves := [act .take, skip Word.greatest]
    (Text.ofString source).size ≤ Text.sizeLimit ∧
      ∃ s, runAll? moves (Stream.ofString source) = some s ∧ s.Placed ∧ s.index = 5 ∧
        ∀ start ∈ [0, Word.greatest], ∃ stop s', s.regionEnd? start.toNat .enclosing = some stop ∧
          (skipRegion start .enclosing).run? s = some s' ∧ s'.index = max s.index (min stop s.count) := by
  intro source moves
  have fits : (Text.ofString source).size ≤ Text.sizeLimit := by decide +kernel
  obtain ⟨s, run, -, -, placed, -, -, regions⟩ := runAll?_placed source moves
  have last : (runAll? moves (Stream.ofString source)).map Stream.index = some 5 := by decide +kernel
  rw [run] at last
  refine ⟨fits, s, run, placed, Option.some.inj last, fun start _ => ?_⟩
  obtain ⟨stop, s', found, region, index⟩ := regions start .enclosing
  exact ⟨stop, s', found, region, index fits⟩

end Move
end CssLex
