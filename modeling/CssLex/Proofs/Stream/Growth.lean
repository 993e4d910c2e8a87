import CssLex.Proofs.Buffer.Scanning
import CssLex.Proofs.Stream.Records
import Mathlib.Algebra.Group.Nat.Defs
import Mathlib.Order.Bounds.Basic

namespace CssLex

namespace Table

/-- How many of some tokens find the table full when they are added in order. -/
def growths (t : Table) (offset : Nat) : List Token → Nat
  | [] => 0
  | token :: tokens =>
    (if t.size = t.capacity then 1 else 0) +
      growths (t.push token.kind offset (offset + token.length)) (offset + token.length) tokens

/-- The table began with room for `room` records and has been doubled `doublings` times, which is as seldom as the
records that it holds allow. -/
structure Grown (room doublings : Nat) (t : Table) : Prop where
  room_pos : 0 < room
  capacity : t.capacity = room * 2 ^ doublings
  fits : t.size ≤ room * 2 ^ doublings
  needed : ∀ k, t.size ≤ room * 2 ^ k → doublings ≤ k

variable {room doublings : Nat} {t : Table}

private theorem grown_empty (capacity : Nat) : Grown (max capacity 1) 0 (empty capacity) where
  room_pos := Nat.le_max_right capacity 1
  capacity := (Nat.mul_one (max capacity 1)).symm
  fits := Nat.zero_le _
  needed := fun k _ => Nat.zero_le k

namespace Grown

theorem isLeast (h : Grown room doublings t) : IsLeast {k | t.size ≤ room * 2 ^ k} doublings :=
  ⟨h.fits, h.needed⟩

/-- A record that finds room leaves the capacity as it is. -/
private theorem push_of_room (h : Grown room doublings t) (notFull : t.size ≠ t.capacity) (kind : Kind)
    (start stop : Nat) : Grown room doublings (t.push kind start stop) := by
  have free : t.size < room * 2 ^ doublings := Nat.lt_of_le_of_ne h.fits (h.capacity ▸ notFull)
  refine ⟨h.room_pos, (if_neg notFull).trans h.capacity, ?_, ?_⟩
  · rw [size_push]
    exact free
  · intro k enough
    rw [size_push] at enough
    exact h.needed k (Nat.le_of_succ_le enough)

/-- A record that finds the table full doubles it, and with this record no fewer doublings would do. -/
private theorem push_of_full (h : Grown room doublings t) (full : t.size = t.capacity) (kind : Kind)
    (start stop : Nat) : Grown room (doublings + 1) (t.push kind start stop) := by
  have taken : t.size = room * 2 ^ doublings := full.trans h.capacity
  have positive : 0 < room * 2 ^ doublings := Nat.mul_pos h.room_pos (Nat.two_pow_pos doublings)
  have double : room * 2 ^ (doublings + 1) = 2 * (room * 2 ^ doublings) := by
    rw [Nat.pow_succ, ← Nat.mul_assoc, Nat.mul_comm]
  refine ⟨h.room_pos, ?_, ?_, ?_⟩
  · rw [double, ← h.capacity]
    exact if_pos full
  · rw [size_push, taken, double]
    omega
  · intro k enough
    rw [size_push, taken] at enough
    -- with fewer doublings there would be room for the old records at most, and there is one more now
    by_contra fewer
    have few : 2 ^ k ≤ 2 ^ doublings := Nat.pow_le_pow_right (by decide) (by omega)
    have := Nat.mul_le_mul_left room few
    omega

theorem push (h : Grown room doublings t) (kind : Kind) (start stop : Nat) :
    Grown room (doublings + if t.size = t.capacity then 1 else 0) (t.push kind start stop) := by
  by_cases full : t.size = t.capacity
  · rw [if_pos full]
    exact h.push_of_full full kind start stop
  · rw [if_neg full]
    exact h.push_of_room full kind start stop

/-- A run of tokens doubles the table as often as one of them finds it full. -/
theorem append (h : Grown room doublings t) (offset : Nat) (tokens : List Token) :
    Grown room (doublings + t.growths offset tokens) (t.append offset tokens) := by
  induction tokens generalizing t doublings offset with
  | nil => exact h
  | cons token rest ih =>
    have pushed := ih (h.push token.kind offset (offset + token.length)) (offset + token.length)
    rwa [Nat.add_assoc] at pushed

/-- Linking changes neither the number of records nor the capacity. -/
theorem link (h : Grown room doublings t) : Grown room doublings t.link := by
  refine ⟨h.room_pos, h.capacity, ?_, ?_⟩
  · rw [size_link]
    exact h.fits
  · rw [size_link]
    exact h.needed

end Grown

private theorem grown_ofText (t : Text) :
    Grown (initialCapacity t.size) ((empty (initialCapacity t.size)).growths 0 (Scan.tokens t.toBytes)) (ofText t) := by
  have begun := grown_empty (initialCapacity t.size)
  have notZero : 1 ≤ initialCapacity t.size := Nat.le_add_left 1 _
  rw [Nat.max_eq_left notZero] at begun
  have grown := (begun.append 0 (Scan.tokens t.toBytes)).link
  rwa [Nat.zero_add] at grown

/-- Doubled twice, the estimate for a source has room for as many records as there are bytes. -/
theorem le_initialCapacity (size : Nat) : size ≤ initialCapacity size * 2 ^ 2 := by
  unfold initialCapacity bytesPerToken leastCapacity
  omega

end Table

namespace Stream

/-- The table of a string holds what the checked scanner finds, in order, each token from where those before it end to
where it ends itself. The capacity is the estimate for the length of the string, doubled by each token that found the
table full: as seldom as there is room for all tokens, and twice at most. -/
theorem ofString_grown (s : String) :
    ∃ tokens, (Buffer.ofText (Text.ofString s)).tokens 0 = .ok tokens ∧
      (ofString s).records.toList.map Record.token = tokens ∧
      (∀ k r, (ofString s).records[k]? = some r →
        r.start = Token.total (tokens.take k) ∧ r.stop = Token.total (tokens.take (k + 1))) ∧
      ∃ doublings ≤ 2,
        (ofString s).table.capacity = Table.initialCapacity (Text.ofString s).size * 2 ^ doublings ∧
        IsLeast {k | (ofString s).count ≤ Table.initialCapacity (Text.ofString s).size * 2 ^ k} doublings ∧
        (Table.empty (Table.initialCapacity (Text.ofString s).size)).growths 0 tokens = doublings := by
  have table : (ofString s).table = Table.ofText (Text.ofString s) := table_ofText _
  have grown := Table.grown_ofText (Text.ofString s)
  have enough := Nat.le_trans (Table.size_ofText_le (Text.ofString s)) (Table.le_initialCapacity _)
  refine ⟨Scan.tokens (Text.ofString s).toBytes, Buffer.tokens_ofText _ (Nat.zero_le _), ?_, ?_,
    _, grown.needed 2 enough, ?_, ?_, rfl⟩
  · rw [records, table]
    exact Table.tokens_ofText _
  · intro k r here
    rw [records, table] at here
    obtain ⟨token, -, -, start, stop⟩ := Table.record_ofText here
    exact ⟨start, stop⟩
  · rw [table]
    exact grown.capacity
  · rw [count, table]
    exact grown.isLeast

/-- Twenty-one tokens fill their table and leave it as it is, one more doubles it, and sixty-five double it twice. -/
example :
    (ofString (String.ofList (List.replicate 21 ','))).table.capacity = 21 ∧
      (ofString (String.ofList (List.replicate 22 ','))).table.capacity = 42 ∧
      (ofString (String.ofList (List.replicate 65 ','))).table.capacity = 128 := by
  decide +kernel

end Stream
end CssLex
