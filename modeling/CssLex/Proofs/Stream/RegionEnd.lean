import CssLex.Proofs.Region.Boundary
import CssLex.Proofs.Stream.Reachable

namespace CssLex.Stream

open CssLex.Bracket (Matched)

variable {s : Stream} {start : Nat} {mode : Region.Mode}

theorem regionEnd?_eq_some (reached : s.Reachable) (inRange : start ≤ s.count) (mode : Region.Mode) :
    ∃ stop, s.regionEnd? start mode = some stop ∧
      IsLeast {k | Region.Boundary s.table s.textOf mode start k} stop ∧ start ≤ stop ∧ stop ≤ s.count := by
  obtain ⟨stop, walked, least⟩ :=
    Region.walk_isLeast reached.balanced inRange (Region.exposed_start _ start) Region.reaches_start
  exact ⟨stop, walked, least, Region.le_of_reaches Region.reaches_start inRange least.1, least.2 .input⟩

theorem regionEnd?_past (past : s.count < start) : s.regionEnd? start mode = some start :=
  Region.walk_end (Array.getElem?_eq_none_iff.mpr (Nat.le_of_lt past))

/-- A region ends at the first boundary from its start on, and so has both brackets of a matched pair in it or neither;
past the last token it is empty. -/
theorem regionEnd?_isLeast (reached : s.Reachable) (start : Nat) (mode : Region.Mode) :
    ∃ stop, s.regionEnd? start mode = some stop ∧ (s.count < start → stop = start) ∧
      (start ≤ s.count → IsLeast {k | Region.Boundary s.table s.textOf mode start k} stop ∧
        start ≤ stop ∧ stop ≤ s.count ∧
        ∀ i j, Matched s.table.kinds i j → ((start ≤ i ∧ i < stop) ↔ (start ≤ j ∧ j < stop))) := by
  rcases Nat.lt_or_ge s.count start with past | inRange
  · refine ⟨start, regionEnd?_past past, fun _ => rfl, ?_⟩
    intro inRange
    omega
  · obtain ⟨stop, found, least, le, stopInRange⟩ := regionEnd?_eq_some reached inRange mode
    refine ⟨stop, found, fun past => by omega, fun _ => ⟨least, le, stopInRange, ?_⟩⟩
    intro i j isMatched
    exact Region.pair_in_iff least isMatched

/-- In `{a(;)}` the region from the second token on passes the function as a whole and ends before the brace. -/
theorem regionEnd?_isLeast_nested :
    let s := (ofString "\x7ba(;)\x7d").next
    s.Reachable ∧ s.regionEnd? 1 .semicolonIncluded = some 4 ∧
      ∃ stop, s.regionEnd? 1 .semicolonIncluded = some stop ∧ (s.count < 1 → stop = 1) ∧
        (1 ≤ s.count → IsLeast {k | Region.Boundary s.table s.textOf .semicolonIncluded 1 k} stop ∧
          1 ≤ stop ∧ stop ≤ s.count ∧
          ∀ i j, Matched s.table.kinds i j → ((1 ≤ i ∧ i < stop) ↔ (1 ≤ j ∧ j < stop))) := by
  intro s
  have reached : s.Reachable := .next (.ofText _)
  exact ⟨reached, by decide +kernel, regionEnd?_isLeast reached 1 .semicolonIncluded⟩

end CssLex.Stream
