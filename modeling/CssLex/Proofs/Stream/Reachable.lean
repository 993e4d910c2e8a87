import CssLex.Proofs.Bracket.Balance
import CssLex.Stream.Motion

namespace CssLex

/-- The records of a text are linked. -/
theorem Table.balanced_ofText (t : Text) : (Table.ofText t).Balanced :=
  balanced_link ((unlinked_empty _).append _ _)

theorem Table.points_ofText {t : Text} {k : Nat} {r : Record} (here : (ofText t).records[k]? = some r) :
    Bracket.Points (ofText t).kinds (ofText t).size k r.balance := by
  have balance : (ofText t).balance? k = some r.balance := by rw [balance?, here, Option.map_some]
  exact ((balanced_ofText t k r.balance).mp balance).2

namespace Stream

/-- The streams that a text and motions of the cursor lead to. -/
inductive Reachable : Stream → Prop where
  | ofText (t : Text) : Reachable (ofText t)
  | next {s : Stream} (h : Reachable s) : Reachable s.next
  | skip {s : Stream} (h : Reachable s) (n : Nat) : Reachable (s.skip n)
  | reset {s : Stream} (h : Reachable s) : Reachable s.reset
  | skipWhitespace {s : Stream} (h : Reachable s) : Reachable s.skipWhitespace
  | skipTrivia {s : Stream} (h : Reachable s) : Reachable s.skipTrivia

/-- No index is sought behind the end of input. -/
theorem seek_index (s : Stream) (index : Nat) : (s.seek index).index = min index s.count := by
  unfold seek
  split
  · rename_i r here
    exact (Nat.min_eq_left (Nat.le_of_lt (Array.getElem?_eq_some_iff.mp here).1)).symm
  · rename_i past
    exact (Nat.min_eq_right (Array.getElem?_eq_none_iff.mp past)).symm

/-- A stream begins at its first token. -/
theorem index_ofText (t : Text) : (ofText t).index = 0 := by
  rw [ofText, seek_index, Nat.zero_min]

@[simp] theorem next_source (s : Stream) : s.next.source = s.source := by
  unfold next
  split <;> simp

@[simp] theorem next_table (s : Stream) : s.next.table = s.table := by
  unfold next
  split <;> simp

@[simp] theorem skip_source (s : Stream) (n : Nat) : (s.skip n).source = s.source := by
  unfold skip
  split <;> simp

@[simp] theorem skip_table (s : Stream) (n : Nat) : (s.skip n).table = s.table := by
  unfold skip
  split <;> simp

@[simp] theorem stepWhile_source (p : Kind → Bool) (limit : Nat) (s : Stream) :
    (stepWhile p limit s).source = s.source := by
  induction limit generalizing s with
  | zero => rfl
  | succ limit ih =>
    rw [stepWhile]
    split
    · rw [ih, next_source]
    · rfl

@[simp] theorem stepWhile_table (p : Kind → Bool) (limit : Nat) (s : Stream) :
    (stepWhile p limit s).table = s.table := by
  induction limit generalizing s with
  | zero => rfl
  | succ limit ih =>
    rw [stepWhile]
    split
    · rw [ih, next_table]
    · rfl

/-- The records are those of the source, wherever the cursor is. -/
theorem Reachable.table_eq {s : Stream} (h : s.Reachable) : s.table = Table.ofText s.source := by
  induction h with
  | ofText t => simp [Stream.ofText]
  | next _ ih => simpa using ih
  | skip _ n ih => simpa using ih
  | reset _ ih => simpa [Stream.reset] using ih
  | skipWhitespace _ ih => simpa [Stream.skipWhitespace] using ih
  | skipTrivia _ ih => simpa [Stream.skipTrivia] using ih

theorem Reachable.balanced {s : Stream} (h : s.Reachable) : s.table.Balanced := by
  rw [h.table_eq]
  exact Table.balanced_ofText s.source

end Stream
end CssLex
