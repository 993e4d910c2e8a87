import CssLex.Proofs.Bracket.Linking

namespace CssLex.Table

open CssLex.Bracket

/-- Every record is balanced with itself, as `push` leaves it. -/
def Unlinked (t : Table) : Prop := ∀ (k : Nat) (r : Record), t.records[k]? = some r → r.balance = k

/-- The balance index of the record at an index. -/
def balance? (t : Table) (k : Nat) : Option Nat := t.records[k]?.map Record.balance

variable {t : Table}

@[simp] theorem length_kinds (t : Table) : t.kinds.length = t.size := by
  simp [kinds, size]

theorem getElem?_kinds (t : Table) (k : Nat) : t.kinds[k]? = t.records[k]?.map Record.kind := by
  simp [kinds]

theorem unlinked_empty (capacity : Nat) : (empty capacity).Unlinked := by
  intro k r here
  simp [empty] at here

theorem Unlinked.push (own : t.Unlinked) (kind : Kind) (start stop : Nat) : (t.push kind start stop).Unlinked := by
  intro k r here
  rw [Table.push, Array.getElem?_push] at here
  split at here
  · cases here
    simp_all [size]
  · exact own k r here

theorem Unlinked.append (own : t.Unlinked) (offset : Nat) (tokens : List Token) : (t.append offset tokens).Unlinked := by
  induction tokens generalizing t offset with
  | nil => exact own
  | cons token rest ih => exact ih (own.push _ _ _) _

/-- Linking changes balance indices and nothing else. -/
theorem getElem?_link (t : Table) (k : Nat) :
    t.link.records[k]? = t.records[k]?.bind fun r =>
      ((State.start t.balances).run 0 t.kinds).balance[k]?.map fun balance => { r with balance } := by
  rw [link, Array.getElem?_zipWith]
  cases t.records[k]? with
  | none => rfl
  | some r =>
    cases ((State.start t.balances).run 0 t.kinds).balance[k]? with
    | none => rfl
    | some b => rfl

private theorem size_linked (t : Table) : ((State.start t.balances).run 0 t.kinds).balance.size = t.size := by
  simp [State.start, balances, size]

private theorem balance?_link (t : Table) (k : Nat) :
    t.link.balance? k = ((State.start t.balances).run 0 t.kinds).balance[k]? := by
  rw [balance?, getElem?_link]
  cases here : t.records[k]? with
  | none =>
    have past := Array.getElem?_eq_none_iff.mp here
    symm
    rw [Option.bind_none, Option.map_none, Array.getElem?_eq_none_iff, size_linked]
    exact past
  | some r => cases ((State.start t.balances).run 0 t.kinds).balance[k]? <;> rfl

@[simp] theorem kinds_link (t : Table) : t.link.kinds = t.kinds := by
  apply List.ext_getElem?
  intro k
  rw [getElem?_kinds, getElem?_kinds, getElem?_link]
  cases here : t.records[k]? with
  | none => rfl
  | some r =>
    have inRange : k < ((State.start t.balances).run 0 t.kinds).balance.size := by
      rw [size_linked]
      exact (Array.getElem?_eq_some_iff.mp here).1
    simp [Array.getElem?_eq_getElem inRange]

theorem linked (own : t.Unlinked) : Linked t.kinds t.size ((State.start t.balances).run 0 t.kinds) := by
  have start : Linked t.kinds 0 (State.start t.balances) := by
    refine linked_start (by simp [balances, size]) ?_
    intro k b here
    rw [balances, Array.getElem?_map, Option.map_eq_some_iff] at here
    obtain ⟨r, atK, rfl⟩ := here
    exact own k r atK
  rw [← length_kinds]
  exact start.run (Nat.zero_le _) List.drop_zero

/-- A linked record is balanced with what the matched pairs around it say. -/
theorem link_balance_iff (own : t.Unlinked) (k b : Nat) :
    t.link.balance? k = some b ↔ k < t.size ∧ Points t.kinds t.size k b := by
  have points := (linked own).points
  rw [balance?_link]
  constructor
  · intro here
    have inRange := (Array.getElem?_eq_some_iff.mp here).1
    rw [size_linked] at inRange
    exact ⟨inRange, points k b here⟩
  · rintro ⟨inRange, expected⟩
    cases here : ((State.start t.balances).run 0 t.kinds).balance[k]? with
    | none =>
      rw [Array.getElem?_eq_none_iff, size_linked] at here
      omega
    | some b' => rw [expected.unique (points k b' here)]

/-- Every record is balanced with what the matched pairs say. -/
def Balanced (t : Table) : Prop := ∀ k b, t.balance? k = some b ↔ k < t.size ∧ Points t.kinds t.size k b

theorem balanced_link (own : t.Unlinked) : t.link.Balanced := by
  intro k b
  rw [link_balance_iff own, size_link, kinds_link]

/-- Two records point at each other just if they are matched brackets. -/
theorem Balanced.matched_iff (balanced : t.Balanced) {i j : Nat} :
    Matched t.kinds i j ↔ i < j ∧ t.balance? i = some j ∧ t.balance? j = some i := by
  rw [balanced, balanced]
  constructor
  · intro isMatched
    have inOrder := isMatched.lt
    have inRange := isMatched.lt_length
    rw [length_kinds] at inRange
    exact ⟨inOrder, ⟨by omega, .opener isMatched inRange⟩, inRange, .closer isMatched inRange⟩
  · rintro ⟨inOrder, ⟨_, forth⟩, _, back⟩
    cases forth with
    | opener isMatched _ => exact isMatched
    | closer isMatched _ =>
      have := isMatched.lt
      omega
    | member isMember closed =>
      have := back.unique (.closer isMember.matched closed)
      have := isMember.after
      omega
    | free _ => omega

private theorem matched_iff_balance (own : t.Unlinked) {i j : Nat} :
    Matched t.kinds i j ↔ i < j ∧ t.link.balance? i = some j ∧ t.link.balance? j = some i := by
  rw [← kinds_link, (balanced_link own).matched_iff]

/-- The brackets at `i` and `j` are the innermost matched pair around the token at `k`. -/
def Innermost (t : Table) (i j k : Nat) : Prop :=
  Matched t.kinds i j ∧ i < k ∧ k < j ∧ ∀ a b, Matched t.kinds a b → a < k → k < b → a ≤ i ∧ j ≤ b

private theorem innermost_of_member {i j k : Nat} (isMember : Member t.kinds i j k) : t.Innermost i j k := by
  refine ⟨isMember.matched, isMember.after, isMember.before, ?_⟩
  intro a b pair after before
  have outside : a ≤ i := by
    rcases Nat.lt_or_ge i a with inside | outside
    · have := isMember.direct a b pair inside (Nat.le_of_lt after)
      omega
    · exact outside
  refine ⟨outside, ?_⟩
  rcases Nat.lt_or_eq_of_le outside with strict | same
  · have := isMember.after
    have := pair.nested isMember.matched strict (by omega)
    omega
  · subst same
    exact Nat.le_of_eq (isMember.matched.closer_unique pair)

/-- A record that is no matched bracket is balanced with the end of the innermost pair around it, or with itself. -/
private theorem balance_of_unmatched (own : t.Unlinked) {k : Nat} (inRange : k < t.size)
    (unmatched : ∀ l, ¬ Matched t.kinds k l ∧ ¬ Matched t.kinds l k) :
    (∃ i j, t.Innermost i j k ∧ t.link.balance? k = some j) ∨
      (∀ i j, Matched t.kinds i j → ¬ (i < k ∧ k < j)) ∧ t.link.balance? k = some k := by
  obtain ⟨b, here⟩ : ∃ b, t.link.balance? k = some b := by
    cases here : t.link.balance? k with
    | none =>
      rw [balance?_link, Array.getElem?_eq_none_iff, size_linked] at here
      omega
    | some b => exact ⟨b, rfl⟩
  rw [here]
  cases ((link_balance_iff own k b).mp here).2 with
  | opener isMatched _ => exact absurd isMatched (unmatched b).1
  | closer isMatched _ => exact absurd isMatched (unmatched b).2
  | member isMember _ => exact .inl ⟨_, b, innermost_of_member isMember, rfl⟩
  | free isFree =>
    refine .inr ⟨?_, rfl⟩
    rintro i j isMatched ⟨after, before⟩
    have closed := isMatched.lt_length
    rw [length_kinds] at closed
    have := isFree i j isMatched closed (Nat.le_of_lt after)
    omega

/-- Before linking a record was the same but for its balance index. -/
theorem record_of_link (own : t.Unlinked) {k : Nat} {r : Record} (here : t.link.records[k]? = some r) :
    t.records[k]? = some { r with balance := k } := by
  rw [getElem?_link, Option.bind_eq_some_iff] at here
  obtain ⟨old, atK, changed⟩ := here
  obtain ⟨balance, _, rfl⟩ := Option.map_eq_some_iff.mp changed
  rw [atK, ← own k old atK]

/-- Linking is matching by a stack: pairs are told by the tokens between them, matched brackets point at each other,
all other tokens at the end of the innermost pair around them or at themselves, and pairs neither cross nor share a
bracket. Nothing but balance indices changes. -/
theorem link_matches (t : Table) (own : t.Unlinked) :
    (∀ i j, Matched t.kinds i j ↔ i < j ∧ (∃ closer, Opens t.kinds i closer ∧ t.kinds[j]? = some closer) ∧
      (∀ k closer, Opens (t.kinds.extract (i + 1) j) k closer → ∃ l, Matched (t.kinds.extract (i + 1) j) k l) ∧
      ∀ k, (t.kinds.extract (i + 1) j)[k]? = t.kinds[j]? → (∀ l, ¬ Matched (t.kinds.extract (i + 1) j) l k) →
        ∃ a b, Matched (t.kinds.extract (i + 1) j) a b ∧ a < k ∧ k < b) ∧
    (∀ i j, Matched t.kinds i j ↔ i < j ∧ t.link.balance? i = some j ∧ t.link.balance? j = some i) ∧
    (∀ k, k < t.size → (∀ l, ¬ Matched t.kinds k l ∧ ¬ Matched t.kinds l k) →
      (∃ i j, t.Innermost i j k ∧ t.link.balance? k = some j) ∨
        (∀ i j, Matched t.kinds i j → ¬ (i < k ∧ k < j)) ∧ t.link.balance? k = some k) ∧
    (∀ i j a b, Matched t.kinds i j → Matched t.kinds a b →
      (i = a ∧ j = b) ∨ (i ≠ a ∧ i ≠ b ∧ j ≠ a ∧ j ≠ b ∧ ¬ (i < a ∧ a < j ∧ j < b))) ∧
    t.link.size = t.size ∧
    ∀ (k : Nat) (r : Record), t.link.records[k]? = some r → t.records[k]? = some { r with balance := k } := by
  refine ⟨fun i j => matched_iff_between, fun i j => matched_iff_balance own,
    fun k inRange unmatched => balance_of_unmatched own inRange unmatched, ?_, size_link t, fun k r => record_of_link own⟩
  intro i j a b first second
  by_cases same : i = a
  · subst same
    exact .inl ⟨rfl, first.closer_unique second⟩
  · refine .inr ⟨same, first.ne second, fun atEnd => second.ne first atEnd.symm, ?_, ?_⟩
    · intro sameEnd
      subst sameEnd
      exact same (first.opener_unique second)
    · rintro ⟨after, before, past⟩
      have := first.nested second after before
      omega

/-- In `(])` the parentheses match over the stray bracket, which points at the closing one. -/
theorem link_matches_stray :
    let t := (((empty 4).push .leftParenthesis 0 1).push .rightSquare 1 2).push .rightParenthesis 2 3
    t.Unlinked ∧ Matched t.kinds 0 2 ∧ ((∃ i j, t.Innermost i j 1 ∧ t.link.balance? 1 = some j) ∨
      (∀ i j, Matched t.kinds i j → ¬ (i < 1 ∧ 1 < j)) ∧ t.link.balance? 1 = some 1) := by
  intro t
  have own : t.Unlinked := (((unlinked_empty 4).push _ _ _).push _ _ _).push _ _ _
  have claim := link_matches t own
  have pair : Matched t.kinds 0 2 := (claim.2.1 0 2).mpr (by decide +kernel)
  refine ⟨own, pair, claim.2.2.1 1 (by decide) ?_⟩
  intro l
  constructor
  · rintro ⟨closer, opens, _⟩
    exact absurd opens (by simp [Opens, t, push, empty, kinds, Kind.closingPair?])
  · intro isMatched
    have := isMatched.lt
    obtain rfl : l = 0 := by omega
    exact absurd (pair.closer_unique isMatched) (by decide)

end CssLex.Table
