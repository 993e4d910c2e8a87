import CssLex.Proofs.Stream.RegionEnd
import Mathlib.Data.Nat.Find
import Mathlib.Order.Bounds.Basic
import Mathlib.Order.Monotone.Basic

/-!
Where a region ends early another can begin, and from there the group around them ends where it did before. So regions
that end behind a semicolon, each of which begins where the one before it ends, divide what is left of that group among
themselves (`regionEnds?_divides`).
-/

namespace CssLex

namespace Region

open CssLex.Bracket

variable {t : Table} {text : Record → Bytes} {mode : Mode} {start stop last k : Nat}

private theorem verdict_enclosing (kind : Kind) (bytes : Bytes) : Mode.enclosing.verdict kind bytes = .inside := by
  cases kind <;> rfl

private theorem verdict_semicolonIncluded (kind : Kind) (bytes : Bytes) :
    Mode.semicolonIncluded.verdict kind bytes ≠ .stopBefore := by
  cases kind <;> simp [Mode.verdict]

private theorem boundary_enclosing_iff : Boundary t text .enclosing start k ↔
    k = t.size ∨ Exposed t.kinds start k ∧ ∃ i, Matched t.kinds i k ∧ i < start := by
  constructor
  · intro boundary
    cases boundary with
    | input => exact .inl rfl
    | enclosing exposed isMatched early => exact .inr ⟨exposed, _, isMatched, early⟩
    | before exposed judged =>
      obtain ⟨r, -, verdict⟩ := judged
      simp [verdict_enclosing] at verdict
    | after exposed judged =>
      obtain ⟨r, -, verdict⟩ := judged
      simp [verdict_enclosing] at verdict
  · rintro (rfl | ⟨exposed, i, isMatched, early⟩)
    · exact .input
    · exact .enclosing exposed isMatched early

/-- Where the group around a region ends, the region ends in every mode. -/
private theorem Boundary.of_enclosing (boundary : Boundary t text .enclosing start k) (mode : Mode) :
    Boundary t text mode start k := by
  rcases boundary_enclosing_iff.mp boundary with rfl | ⟨exposed, i, isMatched, early⟩
  · exact .input
  · exact .enclosing exposed isMatched early

/-- Pairs that a region has in it hide nothing behind its end. -/
private theorem exposed_stop_iff (least : IsLeast {k | Boundary t text mode start k} stop) (le : start ≤ stop)
    (behind : stop ≤ k) : Exposed t.kinds stop k ↔ Exposed t.kinds start k := by
  constructor
  · intro exposed
    refine ⟨Nat.le_trans le behind, ?_⟩
    intro i j isMatched after inside
    by_cases early : i < stop
    · have := ((pair_in_iff least isMatched).mp ⟨after, early⟩).2
      omega
    · exact exposed.past i j isMatched (by omega) inside
  · intro exposed
    refine ⟨behind, ?_⟩
    intro i j isMatched after inside
    exact exposed.past i j isMatched (by omega) inside

/-- Groups that are open at the end of a region were open at its start, and those that were open still are. -/
private theorem open_stop_iff (least : IsLeast {k | Boundary t text mode start k} stop) (le : start ≤ stop)
    (behind : stop ≤ k) {i : Nat} (isMatched : Matched t.kinds i k) : i < stop ↔ i < start := by
  constructor
  · intro early
    by_contra after
    have := ((pair_in_iff least isMatched).mp ⟨by omega, early⟩).2
    omega
  · intro early
    omega

private theorem boundary_stop_iff (least : IsLeast {k | Boundary t text mode start k} stop) (le : start ≤ stop)
    (behind : stop ≤ k) : Boundary t text .enclosing stop k ↔ Boundary t text .enclosing start k := by
  rw [boundary_enclosing_iff, boundary_enclosing_iff, exposed_stop_iff least le behind]
  refine or_congr_right (and_congr_right fun _ => exists_congr fun i => and_congr_right fun isMatched => ?_)
  exact open_stop_iff least le behind isMatched

/-- A region that begins where another ends has the same group around it, which ends in the same place. -/
theorem isLeast_stop (least : IsLeast {k | Boundary t text mode start k} stop) (le : start ≤ stop)
    (whole : IsLeast {k | Boundary t text .enclosing start k} last) :
    IsLeast {k | Boundary t text .enclosing stop k} last := by
  have behind : stop ≤ last := least.2 (whole.1.of_enclosing mode)
  constructor
  · exact (boundary_stop_iff least le behind).mpr whole.1
  · intro k boundary
    by_cases early : stop ≤ k
    · exact whole.2 ((boundary_stop_iff least le early).mp boundary)
    · -- the input is the only end that can lie in front of a start
      rcases boundary_enclosing_iff.mp boundary with rfl | ⟨exposed, -⟩
      · exact whole.2 .input
      · exact absurd exposed.le early

/-- A region that ends behind a semicolon has a token in it, unless the group around it ends at once. -/
private theorem Boundary.enclosing_of_empty (boundary : Boundary t text .semicolonIncluded start stop)
    (empty : stop = start) : Boundary t text .enclosing start stop := by
  cases boundary with
  | input => exact .input
  | enclosing exposed isMatched early => exact .enclosing exposed isMatched early
  | before exposed judged =>
    obtain ⟨r, -, verdict⟩ := judged
    exact absurd verdict (verdict_semicolonIncluded _ _)
  | after exposed judged =>
    have := exposed.le
    omega

/-- The tokens from `start` up to `last` are cut into pieces that leave no gap and do not overlap. -/
structure Divides (cuts : Nat → Nat) (start last : Nat) : Prop where
  first : cuts 0 = start
  /-- Until the last token is in a piece, each piece has one. -/
  increasing : ∀ n, cuts n < last → cuts n < cuts (n + 1)
  /-- From then on the pieces are empty. -/
  settled : ∀ n, cuts n = last → cuts (n + 1) = last
  reached : ∃ n, cuts n = last
  within : ∀ n, start ≤ cuts n ∧ cuts n ≤ last
  /-- Each token is in exactly one piece. -/
  piece : ∀ k, start ≤ k → k < last → ∃! n, cuts n ≤ k ∧ k < cuts (n + 1)

/-- What is in one piece is not in an earlier one. -/
private theorem le_of_piece {cuts : Nat → Nat} (monotone : Monotone cuts) {m n : Nat} (below : cuts m ≤ k)
    (above : k < cuts (n + 1)) : m ≤ n := by
  by_contra later
  have : cuts (n + 1) ≤ cuts m := monotone (Nat.not_le.mp later)
  omega

/-- Cuts that move on until they are at the last one leave nothing out. -/
theorem divides_of_step {cuts : Nat → Nat} (first : cuts 0 = start) (within : ∀ n, cuts n ≤ last)
    (increasing : ∀ n, cuts n < last → cuts n < cuts (n + 1)) (settled : ∀ n, cuts n = last → cuts (n + 1) = last) :
    Divides cuts start last := by
  have monotone : Monotone cuts := by
    refine monotone_nat_of_le_succ fun n => ?_
    rcases Nat.lt_or_eq_of_le (within n) with before | same
    · exact Nat.le_of_lt (increasing n before)
    · rw [settled n same, same]
  have advanced : ∀ n, cuts n = last ∨ start + n ≤ cuts n := by
    intro n
    induction n with
    | zero => exact .inr (Nat.le_of_eq first.symm)
    | succ n ih =>
      rcases Nat.lt_or_eq_of_le (within n) with before | same
      · have := increasing n before
        omega
      · exact .inl (settled n same)
  have reached : cuts (last - start) = last := by
    have := within (last - start)
    have := advanced (last - start)
    have := monotone (Nat.zero_le (last - start))
    omega
  refine ⟨first, increasing, settled, ⟨_, reached⟩, ?_, ?_⟩
  · intro n
    exact ⟨first ▸ monotone (Nat.zero_le n), within n⟩
  · intro k after before
    have beyond : ∃ n, k < cuts n := ⟨_, reached.symm ▸ before⟩
    have above : k < cuts (Nat.find beyond) := Nat.find_spec beyond
    cases found : Nat.find beyond with
    | zero =>
      rw [found, first] at above
      omega
    | succ n =>
      rw [found] at above
      have below : cuts n ≤ k := Nat.not_lt.mp (Nat.find_min beyond (by omega))
      refine ⟨n, ⟨below, above⟩, ?_⟩
      rintro m ⟨below', above'⟩
      exact Nat.le_antisymm (le_of_piece monotone below' above) (le_of_piece monotone below above')

end Region

namespace Stream

variable {s : Stream} {start : Nat} {mode : Region.Mode}

/-- Where the regions end that follow each other from `start` on, each of which begins where the one before it ends. -/
def regionEnds? (s : Stream) (mode : Region.Mode) (start : Nat) : Nat → Option Nat
  | 0 => some start
  | n + 1 => (s.regionEnds? mode start n).bind (s.regionEnd? · mode)

/-- The group around a region ends behind it, and in the same place for a region that begins there. -/
theorem regionEnd?_resumed (reached : s.Reachable) (inRange : start ≤ s.count) (mode : Region.Mode) :
    ∃ stop last, s.regionEnd? start mode = some stop ∧ s.regionEnd? start .enclosing = some last ∧ start ≤ stop ∧
      stop ≤ last ∧ last ≤ s.count ∧ s.regionEnd? stop .enclosing = some last := by
  obtain ⟨stop, found, least, le, stopInRange⟩ := regionEnd?_eq_some reached inRange mode
  obtain ⟨last, foundLast, whole, -, lastInRange⟩ := regionEnd?_eq_some reached inRange .enclosing
  obtain ⟨again, foundAgain, leastAgain, -⟩ := regionEnd?_eq_some reached stopInRange .enclosing
  have same : again = last := leastAgain.unique (Region.isLeast_stop least le whole)
  exact ⟨stop, last, found, foundLast, le, least.2 (whole.1.of_enclosing mode), lastInRange, same ▸ foundAgain⟩

/-- Until the group around it ends, a region that ends behind a semicolon has a token in it. -/
theorem regionEnd?_advances (reached : s.Reachable) (inRange : start ≤ s.count) {stop last : Nat}
    (found : s.regionEnd? start .semicolonIncluded = some stop) (foundLast : s.regionEnd? start .enclosing = some last)
    (before : start < last) : start < stop := by
  obtain ⟨stop', found', least, le, -⟩ := regionEnd?_eq_some reached inRange .semicolonIncluded
  obtain ⟨last', foundLast', whole, -⟩ := regionEnd?_eq_some reached inRange .enclosing
  obtain rfl := Option.some.inj (found.symm.trans found')
  obtain rfl := Option.some.inj (foundLast.symm.trans foundLast')
  by_contra still
  have empty : stop = start := by omega
  have := whole.2 (least.1.enclosing_of_empty empty)
  omega

/-- Each of the regions begins in the group of the first. -/
private theorem regionEnds?_eq_some (reached : s.Reachable) (inRange : start ≤ s.count) {last : Nat}
    (foundLast : s.regionEnd? start .enclosing = some last) (mode : Region.Mode) (n : Nat) :
    ∃ cut, s.regionEnds? mode start n = some cut ∧ cut ≤ last ∧ last ≤ s.count ∧
      s.regionEnd? cut .enclosing = some last := by
  induction n with
  | zero =>
    obtain ⟨stop, last', -, foundLast', le, inside, lastInRange, -⟩ := regionEnd?_resumed reached inRange .enclosing
    obtain rfl := Option.some.inj (foundLast.symm.trans foundLast')
    exact ⟨start, rfl, Nat.le_trans le inside, lastInRange, foundLast⟩
  | succ n ih =>
    obtain ⟨cut, ends, inside, lastInRange, foundLast⟩ := ih
    obtain ⟨stop, last', found, foundLast', -, inside', -, again⟩ :=
      regionEnd?_resumed reached (Nat.le_trans inside lastInRange) mode
    obtain rfl := Option.some.inj (foundLast.symm.trans foundLast')
    refine ⟨stop, ?_, inside', lastInRange, again⟩
    rw [regionEnds?, ends, Option.bind_some, found]

/-- A region in any mode is the first part of the region of the group around it, and the rest is a region that begins
where it ends. Regions that end behind a semicolon, taken one after the other, divide the whole. -/
theorem regionEnds?_divides (reached : s.Reachable) (inRange : start ≤ s.count) (mode : Region.Mode) :
    ∃ stop last, s.regionEnd? start mode = some stop ∧ s.regionEnd? start .enclosing = some last ∧ stop ≤ last ∧
      s.regionEnd? stop .enclosing = some last ∧
      ∃ cuts : Nat → Nat, (∀ n, s.regionEnds? .semicolonIncluded start n = some (cuts n)) ∧
        Region.Divides cuts start last := by
  obtain ⟨stop, last, found, foundLast, -, inside, -, again⟩ := regionEnd?_resumed reached inRange mode
  refine ⟨stop, last, found, foundLast, inside, again, ?_⟩
  choose cuts ends within lastInRange resumed using
    regionEnds?_eq_some reached inRange foundLast .semicolonIncluded
  have step : ∀ n, s.regionEnd? (cuts n) .semicolonIncluded = some (cuts (n + 1)) := by
    intro n
    have next := ends (n + 1)
    rwa [regionEnds?, ends n, Option.bind_some] at next
  refine ⟨cuts, ends, Region.divides_of_step ?_ within ?_ ?_⟩
  · exact (Option.some.inj (ends 0)).symm
  · intro n before
    exact regionEnd?_advances reached (Nat.le_trans (within n) (lastInRange n)) (step n) (resumed n) before
  · intro n atEnd
    obtain ⟨stop', last', found', foundLast', le, -⟩ :=
      regionEnd?_resumed reached (Nat.le_trans (within n) (lastInRange n)) .semicolonIncluded
    obtain rfl := Option.some.inj ((step n).symm.trans found')
    have := within (n + 1)
    omega

/-- In `{a;(;)b;c}` the region from the second token on is cut behind the first and the last semicolon, but not inside
the parentheses. -/
theorem regionEnds?_divides_nested :
    let s := ofString "\x7ba;(;)b;c\x7d"
    s.Reachable ∧ 1 ≤ s.count ∧ s.regionEnd? 1 .leftCurlyOrSemicolon = some 2 ∧ s.regionEnd? 2 .enclosing = some 9 ∧
      ∃ cuts : Nat → Nat, (∀ n, s.regionEnds? .semicolonIncluded 1 n = some (cuts n)) ∧ Region.Divides cuts 1 9 ∧
        cuts 1 = 3 ∧ cuts 2 = 8 ∧ cuts 3 = 9 := by
  intro s
  have reached : s.Reachable := .ofText _
  have inRange : 1 ≤ s.count := by decide +kernel
  obtain ⟨stop, last, found, foundLast, -, again, cuts, ends, divides⟩ :=
    regionEnds?_divides reached inRange .leftCurlyOrSemicolon
  obtain rfl : 2 = stop := Option.some.inj (Eq.trans (by decide +kernel) found)
  obtain rfl : 9 = last := Option.some.inj (Eq.trans (by decide +kernel) foundLast)
  have cut : ∀ n k, s.regionEnds? .semicolonIncluded 1 n = some k → cuts n = k := by
    intro n k same
    exact Option.some.inj ((ends n).symm.trans same)
  exact ⟨reached, inRange, found, again, cuts, ends, divides, cut 1 3 (by decide +kernel), cut 2 8 (by decide +kernel),
    cut 3 9 (by decide +kernel)⟩

end Stream
end CssLex
