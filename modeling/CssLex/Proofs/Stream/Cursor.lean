import CssLex.Proofs.Stream.Reachable
import CssLex.Proofs.Stream.Records

namespace CssLex

namespace Stream

variable {s : Stream}

/-- The cursor is on a token, or at the end of input behind all of them. -/
structure Placed (s : Stream) : Prop where
  inRange : s.index ≤ s.count
  onToken : ∀ r, s.records[s.index]? = some r →
    s.atEnd = false ∧ s.kind = r.kind ∧ s.start = r.start ∧ s.stop = r.stop
  atEnd : s.index = s.count → s.atEnd = true ∧ s.kind = .eof ∧ s.start = s.source.size ∧ s.stop = s.source.size

/-- Wherever the cursor is put, it is placed. -/
theorem placed_seek (s : Stream) (index : Nat) : (s.seek index).Placed := by
  unfold seek
  split
  · rename_i r here
    have before : index < s.count := (Array.getElem?_eq_some_iff.mp here).1
    refine ⟨Nat.le_of_lt before, ?_, fun last => absurd last (Nat.ne_of_lt before)⟩
    intro other same
    obtain rfl := Option.some.inj (here.symm.trans same)
    exact ⟨rfl, rfl, rfl, rfl⟩
  · refine ⟨Nat.le_refl _, ?_, fun _ => ⟨rfl, rfl, rfl, rfl⟩⟩
    intro r same
    exact absurd (Array.getElem?_eq_some_iff.mp same).1 (Nat.lt_irrefl _)

theorem Placed.atEnd_iff (placed : s.Placed) : s.atEnd = true ↔ s.index = s.count := by
  constructor
  · intro ended
    rcases Nat.lt_or_eq_of_le placed.inRange with before | last
    · have on := (placed.onToken _ (Array.getElem?_eq_getElem before)).1
      simp [on] at ended
    · exact last
  · intro last
    exact (placed.atEnd last).1

theorem Placed.index_next (placed : s.Placed) : s.next.index = min (s.index + 1) s.count := by
  have inRange := placed.inRange
  rw [Stream.next]
  split
  · rename_i ended
    have last := placed.atEnd_iff.mp ended
    omega
  · exact seek_index s _

theorem Placed.next (placed : s.Placed) : s.next.Placed := by
  unfold Stream.next
  split
  · exact placed
  · exact placed_seek _ _

private theorem Placed.stepWhile (placed : s.Placed) (p : Kind → Bool) (limit : Nat) :
    (stepWhile p limit s).Placed := by
  induction limit generalizing s with
  | zero => exact placed
  | succ limit ih =>
    rw [Stream.stepWhile]
    split
    · exact ih placed.next
    · exact placed

theorem Reachable.placed (reachable : s.Reachable) : s.Placed := by
  induction reachable with
  | ofText t => exact placed_seek _ _
  | next _ ih => exact ih.next
  | @skip s _ n ih =>
    unfold Stream.skip
    split
    · exact ih
    · exact placed_seek _ _
  | reset _ ih => exact placed_seek _ _
  | skipWhitespace _ ih => exact ih.stepWhile _ _
  | skipTrivia _ ih => exact ih.stepWhile _ _

/-- Where the token at an index starts; the end of the source if there is none. -/
def offset (s : Stream) (index : Nat) : Nat := (s.records[index]?.map Record.start).getD s.source.size

/-- A token starts where the tokens before it end. -/
theorem Reachable.offset_eq (reachable : s.Reachable) (index : Nat) :
    s.offset index = Token.total ((Scan.tokens s.source.toBytes).take index) := by
  rw [offset, records, reachable.table_eq]
  cases here : (Table.ofText s.source).records[index]? with
  | some r =>
    obtain ⟨token, -, -, start, -⟩ := Table.record_ofText here
    exact start
  | none =>
    have past := Array.getElem?_eq_none_iff.mp here
    have all : (Scan.tokens s.source.toBytes).length ≤ index := (Table.size_ofText s.source).symm.trans_le past
    rw [List.take_of_length_le all, Scan.total_tokens, Text.length_toBytes]
    rfl

private theorem Reachable.offset_mono (reachable : s.Reachable) {i j : Nat} (le : i ≤ j) : s.offset i ≤ s.offset j := by
  rw [reachable.offset_eq, reachable.offset_eq]
  exact Token.total_take_mono _ le

theorem Placed.start_eq (placed : s.Placed) : s.start = s.offset s.index := by
  rw [offset]
  cases here : s.records[s.index]? with
  | some r => exact (placed.onToken r here).2.2.1
  | none =>
    have past : s.count ≤ s.index := Array.getElem?_eq_none_iff.mp here
    exact (placed.atEnd (Nat.le_antisymm placed.inRange past)).2.2.1

theorem Reachable.stop_eq (reachable : s.Reachable) : s.stop = s.offset (s.index + 1) := by
  cases here : s.records[s.index]? with
  | some r =>
    rw [(reachable.placed.onToken r here).2.2.2, reachable.offset_eq]
    rw [records, reachable.table_eq] at here
    obtain ⟨token, -, -, -, stop⟩ := Table.record_ofText here
    exact stop
  | none =>
    have past : s.count ≤ s.index := Array.getElem?_eq_none_iff.mp here
    have none : s.records[s.index + 1]? = none := Array.getElem?_eq_none_iff.mpr (Nat.le_succ_of_le past)
    rw [(reachable.placed.atEnd (Nat.le_antisymm reachable.placed.inRange past)).2.2.2, offset, none]
    rfl

/-- From the start of one token to the start of another stand the texts of the tokens in between. -/
theorem Reachable.slice_offset (reachable : s.Reachable) {i j : Nat} (le : i ≤ j) (inRange : j ≤ s.count) :
    s.source.slice (s.offset i) (s.offset j) = (((s.records.toList.drop i).take (j - i)).map s.textOf).flatten := by
  have size : s.records.toList.length = s.count := Array.length_toList
  have length : ((s.records.toList.drop i).take (j - i)).length = j - i := by
    rw [List.length_take, List.length_drop, size]
    omega
  have gapless := Record.gapless_of_offsets (fun k => s.offset (i + k)) ((s.records.toList.drop i).take (j - i)) ?_
  · rw [length, Nat.add_sub_cancel' le] at gapless
    exact (gapless.flatten_slice s.source).symm
  · intro k r here
    rw [List.getElem?_take, List.getElem?_drop, Array.getElem?_toList] at here
    split at here
    · rw [records, reachable.table_eq] at here
      obtain ⟨token, atK, -, start, stop⟩ := Table.record_ofText here
      have long := Scan.length_pos_of_mem_tokens (List.mem_of_getElem? atK)
      rw [reachable.offset_eq, reachable.offset_eq, start, stop, Token.total_take_succ atK, ← Nat.add_assoc,
        Token.total_take_succ atK]
      exact ⟨rfl, rfl, by omega⟩
    · cases here

/-- No token of a string starts inside a character. -/
theorem Reachable.isBoundary_offset (reachable : s.Reachable) {source : String} (same : s.source = Text.ofString source)
    (index : Nat) : s.source.isBoundary (s.offset index) = true := by
  cases index with
  | zero =>
    rw [reachable.offset_eq]
    exact Text.isBoundary_zero _
  | succ k =>
    rcases Nat.lt_or_ge k (Scan.tokens s.source.toBytes).length with isToken | past
    · rw [reachable.offset_eq, same]
      rw [same] at isToken
      have boundary := Text.isBoundary_tokens source (Nat.zero_le _) isToken
      rwa [Nat.zero_add] at boundary
    · rw [reachable.offset_eq, List.take_of_length_le (Nat.le_succ_of_le past), Scan.total_tokens, Text.length_toBytes]
      exact Text.isBoundary_size _

theorem Reachable.slice?_offset (reachable : s.Reachable) {source : String} (same : s.source = Text.ofString source)
    {i j : Nat} (le : i ≤ j) :
    s.source.slice? (s.offset i) (s.offset j) = some (s.source.slice (s.offset i) (s.offset j)) := by
  rw [Text.slice?, reachable.isBoundary_offset same, reachable.isBoundary_offset same,
    decide_eq_true (reachable.offset_mono le)]
  rfl

end Stream
end CssLex
