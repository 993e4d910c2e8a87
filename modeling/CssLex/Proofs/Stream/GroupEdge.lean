import CssLex.Proofs.Region.Boundary
import CssLex.Proofs.Stream.Cursor
import CssLex.Stream.Lookahead

namespace CssLex

open CssLex.Bracket (Matched Points)

private theorem Kind.isClose_of_closingPair? {kind closer : Kind} (pair : kind.closingPair? = some closer) :
    closer.isClose = true := by
  cases kind <;> simp [closingPair?] at pair <;> subst pair <;> rfl

private theorem Bracket.Matched.isClose {kinds : List Kind} {i j : Nat} {kind : Kind} (isMatched : Matched kinds i j)
    (here : kinds[j]? = some kind) : kind.isClose = true := by
  obtain ⟨closer, opens, closes, -⟩ := isMatched
  obtain rfl := Option.some.inj (closes.symm.trans here)
  obtain ⟨opener, -, pair⟩ := Option.bind_eq_some_iff.mp opens
  exact Kind.isClose_of_closingPair? pair

namespace Stream

variable {s : Stream} {i j : Nat}

/-- The current token closes the group of the brackets at `i` and `j` or one around it. At the end of input every group
is closed. -/
def Closes (s : Stream) (i j : Nat) : Prop :=
  s.atEnd = true ∨ s.index = j ∨ ∃ o, Matched s.table.kinds o s.index ∧ o < i ∧ j < s.index

/-- The current token is balanced as the matched pairs say. -/
private theorem Reachable.points_current (reached : s.Reachable) {r : Record} (here : s.records[s.index]? = some r) :
    s.table.kinds[s.index]? = some r.kind ∧ Points s.table.kinds s.table.size s.index r.balance := by
  have onTable : s.table.records[s.index]? = some r := here
  refine ⟨by rw [Table.getElem?_kinds, onTable, Option.map_some], ?_⟩
  exact ((reached.balanced s.index r.balance).mp (by rw [Table.balance?, onTable, Option.map_some])).2

/-- An edge is the end of input or a closing bracket whose opening bracket does not come after the index. -/
theorem Reachable.isGroupEdge_iff (reached : s.Reachable) (index : Nat) :
    s.isGroupEdge index = true ↔ s.atEnd = true ∨ ∃ o, Matched s.table.kinds o s.index ∧ o ≤ index := by
  have inRange := reached.placed.inRange
  rw [isGroupEdge, peek?, recordAfter?, recordAt?, Nat.add_zero]
  cases here : s.records[s.index]? with
  | none =>
    have past : s.count ≤ s.index := Array.getElem?_eq_none_iff.mp here
    have ended := (reached.placed.atEnd (Nat.le_antisymm inRange past)).1
    exact iff_of_true rfl (.inl ended)
  | some r =>
    obtain ⟨notEnd, -⟩ := reached.placed.onToken r here
    obtain ⟨kind, points⟩ := reached.points_current here
    simp only [Bool.and_eq_true, decide_eq_true_eq, notEnd, Bool.false_eq_true, false_or]
    constructor
    · rintro ⟨⟨-, early⟩, le⟩
      exact ⟨r.balance, Region.matched_of_early points (Nat.le_refl _) early, le⟩
    · rintro ⟨o, isMatched, le⟩
      have closed : s.index < s.table.size := by simpa using isMatched.lt_length
      obtain rfl := points.unique (.closer isMatched closed)
      exact ⟨⟨isMatched.isClose kind, isMatched.lt⟩, le⟩

/-- From the opening bracket of a group on, the edges are what closes it or a group around it. In front of it nothing
does, but every matched closing bracket is an edge. -/
theorem isGroupEdge_iff_closes (reached : s.Reachable) (isMatched : Matched s.table.kinds i j) :
    (i ≤ s.index → (s.isGroupEdge i = true ↔ s.Closes i j)) ∧
      (s.index < i → ¬s.Closes i j ∧ (s.isGroupEdge i = true ↔ ∃ o, Matched s.table.kinds o s.index)) := by
  have inOrder := isMatched.lt
  have inRange : j < s.count := by simpa [count] using isMatched.lt_length
  rw [reached.isGroupEdge_iff]
  constructor
  · intro notBefore
    refine or_congr_right ?_
    constructor
    · rintro ⟨o, closes, le⟩
      rcases Nat.lt_or_eq_of_le le with outer | rfl
      · -- groups do not cross, so the one that opens before `i` and reaches past it is around the group
        have past : i < s.index := Nat.lt_of_le_of_ne notBefore (isMatched.ne closes)
        exact .inr ⟨o, closes, outer, closes.nested isMatched outer past⟩
      · exact .inl (closes.closer_unique isMatched)
    · rintro (here | ⟨o, closes, outer, -⟩)
      · exact ⟨i, here ▸ isMatched, Nat.le_refl i⟩
      · exact ⟨o, closes, Nat.le_of_lt outer⟩
  · intro before
    have notEnd : s.atEnd ≠ true := by
      intro ended
      have := reached.placed.atEnd_iff.mp ended
      omega
    constructor
    · rintro (ended | here | ⟨o, -, -, past⟩)
      · exact notEnd ended
      · omega
      · omega
    · constructor
      · rintro (ended | ⟨o, closes, -⟩)
        · exact absurd ended notEnd
        · exact ⟨o, closes⟩
      · rintro ⟨o, closes⟩
        have := closes.lt
        exact .inr ⟨o, closes, by omega⟩

/-- In `{a (b)}` the brace at the end is an edge of the group in parentheses, as it closes the group around it. -/
theorem isGroupEdge_iff_closes_outer :
    let s := (ofString "\x7ba (b)\x7d").skip 6
    s.Reachable ∧ Matched s.table.kinds 3 5 ∧ 3 ≤ s.index ∧ s.isGroupEdge 3 = true ∧ s.Closes 3 5 := by
  intro s
  have reached : s.Reachable := .skip (.ofText _) 6
  have pair : Matched s.table.kinds 3 5 := reached.balanced.matched_iff.mpr (by decide +kernel)
  have behind : 3 ≤ s.index := by decide +kernel
  have edge : s.isGroupEdge 3 = true := by decide +kernel
  exact ⟨reached, pair, behind, edge, ((isGroupEdge_iff_closes reached pair).1 behind).mp edge⟩

/-- In `(a)(b)` the end of the first group is an edge of the second one, which it does not close. -/
theorem isGroupEdge_of_earlier_group :
    let s := (ofString "(a)(b)").skip 2
    s.Reachable ∧ Matched s.table.kinds 3 5 ∧ s.isGroupEdge 3 = true ∧ ¬s.Closes 3 5 := by
  intro s
  have reached : s.Reachable := .skip (.ofText _) 2
  have index : s.index = 2 := by decide +kernel
  have notEnd : s.atEnd = false := by decide +kernel
  refine ⟨reached, reached.balanced.matched_iff.mpr (by decide +kernel), by decide +kernel, ?_⟩
  rintro (ended | here | ⟨o, -, -, past⟩)
  · rw [notEnd] at ended
    cases ended
  · omega
  · omega

end Stream
end CssLex
