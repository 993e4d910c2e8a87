import CssLex.Proofs.Bracket.Balance
import CssLex.Region
import Mathlib.Order.Bounds.Defs

/-!
A region that starts in the middle of anything sees the tokens that lie in no pair opened since its start. The walk
visits just these (`Exposed`) and stops at the first that asks for it, which makes its answer the least `Boundary`
(`walk_isLeast`) and keeps it from going back or leaving the table.
-/

namespace CssLex.Region

open CssLex.Bracket

/-- No matched pair that opens at `start` or later reaches over the token at `k` or ends there. -/
structure Exposed (kinds : List Kind) (start k : Nat) : Prop where
  le : start ≤ k
  past : ∀ i j, Matched kinds i j → start ≤ i → i < k → j < k

/-- A verdict on the token at an index. -/
def Judged (t : Table) (text : Record → Bytes) (mode : Mode) (k : Nat) (verdict : Verdict) : Prop :=
  ∃ r, t.records[k]? = some r ∧ mode.verdict r.kind (text r) = verdict

/-- The indices at which a region that starts at `start` may end. -/
inductive Boundary (t : Table) (text : Record → Bytes) (mode : Mode) (start : Nat) : Nat → Prop where
  /-- The end of input. -/
  | input : Boundary t text mode start t.size
  /-- Before the closing bracket of a group that is open at the start. -/
  | enclosing {i k : Nat} (exposed : Exposed t.kinds start k) (isMatched : Matched t.kinds i k) (early : i < start) :
      Boundary t text mode start k
  /-- Before a token that the mode stops at. -/
  | before {k : Nat} (exposed : Exposed t.kinds start k) (judged : Judged t text mode k .stopBefore) :
      Boundary t text mode start k
  /-- After a token that the mode stops at. -/
  | after {k : Nat} (exposed : Exposed t.kinds start k) (judged : Judged t text mode k .stopAfter) :
      Boundary t text mode start (k + 1)

/-- A region that starts at `start` goes on past the token at `k`. -/
structure Passes (t : Table) (text : Record → Bytes) (mode : Mode) (start k : Nat) : Prop where
  inside : Judged t text mode k .inside
  notEnclosing : ∀ i, Matched t.kinds i k → start ≤ i

/-- A region that starts at `start` goes on past all that it sees before `index`. -/
def Reaches (t : Table) (text : Record → Bytes) (mode : Mode) (start index : Nat) : Prop :=
  ∀ k, k < index → Exposed t.kinds start k → Passes t text mode start k

variable {t : Table} {text : Record → Bytes} {mode : Mode} {start index : Nat}

private theorem Judged.unique {k : Nat} {v v' : Verdict} (h : Judged t text mode k v) (h' : Judged t text mode k v') :
    v = v' := by
  obtain ⟨r, here, rfl⟩ := h
  obtain ⟨r', here', rfl⟩ := h'
  cases here.symm.trans here'
  rfl

theorem exposed_start (kinds : List Kind) (start : Nat) : Exposed kinds start start :=
  ⟨Nat.le_refl start, fun i j _ le lt => by omega⟩

/-- After a token that opens no pair comes the next one. -/
private theorem Exposed.succ {kinds : List Kind} (h : Exposed kinds start index)
    (single : ∀ j, ¬ Matched kinds index j) : Exposed kinds start (index + 1) := by
  refine ⟨Nat.le_succ_of_le h.le, ?_⟩
  intro i j isMatched le lt
  rcases Nat.lt_or_eq_of_le (Nat.le_of_lt_succ lt) with before | same
  · have := h.past i j isMatched le before
    omega
  · subst same
    exact absurd isMatched (single j)

/-- After an opening bracket comes what is past its closing bracket. -/
private theorem Exposed.jump {kinds : List Kind} {j : Nat} (h : Exposed kinds start index)
    (isMatched : Matched kinds index j) : Exposed kinds start (j + 1) := by
  have inOrder := isMatched.lt
  refine ⟨by have := h.le; omega, ?_⟩
  intro a b pair le lt
  rcases Nat.lt_trichotomy a index with before | same | after
  · have := h.past a b pair le before
    omega
  · subst same
    have := isMatched.closer_unique pair
    omega
  · rcases Nat.lt_or_eq_of_le (Nat.le_of_lt_succ lt) with inside | atEnd
    · have := isMatched.nested pair after inside
      omega
    · exact absurd atEnd (pair.ne isMatched)

/-- A region does not end among tokens that it passes. -/
theorem le_of_reaches (passed : Reaches t text mode start index) (inRange : index ≤ t.size) {stop : Nat}
    (boundary : Boundary t text mode start stop) : index ≤ stop := by
  rcases Nat.lt_or_ge stop index with early | late
  · cases boundary with
    | input => omega
    | enclosing exposed isMatched before =>
      have := (passed stop early exposed).notEnclosing _ isMatched
      omega
    | before exposed judged => cases (passed stop early exposed).inside.unique judged
    | @after k exposed judged => cases (passed k (by omega) exposed).inside.unique judged
  · exact late

/-- What is balanced with a token before the region closes the group around it. -/
theorem matched_of_early {kinds : List Kind} {n k b : Nat} (points : Points kinds n k b) (le : start ≤ k)
    (early : b < start) : Matched kinds b k := by
  cases points with
  | closer isMatched _ => exact isMatched
  | opener isMatched _ =>
    have := isMatched.lt
    omega
  | member isMember _ =>
    have := isMember.before
    omega
  | free _ => omega

theorem reaches_start : Reaches t text mode start start := by
  intro k before exposed
  have := exposed.le
  omega

private theorem Reaches.succ (passed : Reaches t text mode start index) (passes : Passes t text mode start index) :
    Reaches t text mode start (index + 1) := by
  intro k lt exposed
  rcases Nat.lt_or_eq_of_le (Nat.le_of_lt_succ lt) with before | same
  · exact passed k before exposed
  · exact same ▸ passes

/-- What a pair hides is not seen. -/
private theorem Reaches.jump (passed : Reaches t text mode start (index + 1)) {j : Nat}
    (isMatched : Matched t.kinds index j) (afterStart : start ≤ index) : Reaches t text mode start (j + 1) := by
  intro k lt exposed
  rcases Nat.lt_or_ge index k with after | le
  · have := exposed.past index j isMatched afterStart after
    omega
  · exact passed k (by omega) exposed

/-- No region ends in front of the token that it stops after. -/
private theorem Reaches.not_boundary (passed : Reaches t text mode start index) (inside : index < t.size)
    (judged : Judged t text mode index .stopAfter) (notEnclosing : ∀ i, Matched t.kinds i index → start ≤ i) :
    ¬ Boundary t text mode start index := by
  intro boundary
  cases boundary with
  | input => exact Nat.lt_irrefl _ inside
  | enclosing _ isMatched before =>
    have := notEnclosing _ isMatched
    omega
  | before _ judged' => cases judged'.unique judged
  | @after k exposed judged' => cases (passed k (Nat.lt_succ_self k) exposed).inside.unique judged'

/-- The walk where there is a token. -/
theorem walk_eq {records : Array Record} {r : Record} (here : records[index]? = some r) :
    walk records text mode start index =
      if r.balance < start then some index
      else match mode.verdict r.kind (text r) with
      | .stopBefore => some index
      | .stopAfter => some (index + 1)
      | .inside =>
        match records[r.balance]? with
        | none => none
        | some partner =>
          if partner.balance ≠ index then walk records text mode start (index + 1)
          else if index ≤ r.balance then walk records text mode start (r.balance + 1)
          else none := by
  obtain ⟨inside, rfl⟩ := Array.getElem?_eq_some_iff.mp here
  rw [walk]
  exact dif_pos inside

theorem walk_end {records : Array Record} (past : records[index]? = none) :
    walk records text mode start index = some index := by
  rw [walk, dif_neg (by simpa using past)]

/-- The walk reaches the first boundary: it never leads out of the table, and it never goes back. -/
theorem walk_isLeast {index : Nat} (balanced : t.Balanced) (inRange : index ≤ t.size) (exposed : Exposed t.kinds start index)
    (passed : Reaches t text mode start index) :
    ∃ stop, walk t.records text mode start index = some stop ∧ IsLeast {k | Boundary t text mode start k} stop := by
  have lower : ∀ stop, Boundary t text mode start stop → index ≤ stop := fun stop => le_of_reaches passed inRange
  have afterStart := exposed.le
  rcases Nat.lt_or_eq_of_le inRange with inside | same
  case inr =>
    subst same
    exact ⟨_, walk_end (Array.getElem?_eq_none_iff.mpr (Nat.le_refl _)), .input, lower⟩
  obtain ⟨r, here⟩ : ∃ r, t.records[index]? = some r := ⟨_, Array.getElem?_eq_getElem inside⟩
  obtain ⟨_, points⟩ := (balanced index r.balance).mp (by rw [Table.balance?, here]; rfl)
  rw [walk_eq here]
  by_cases early : r.balance < start
  · rw [if_pos early]
    exact ⟨index, rfl, .enclosing exposed (matched_of_early points afterStart early) early, lower⟩
  rw [if_neg early]
  have notEnclosing : ∀ i, Matched t.kinds i index → start ≤ i := by
    intro i isMatched
    have := points.unique (.closer isMatched (by simpa using isMatched.lt_length))
    omega
  cases verdict : mode.verdict r.kind (text r) with
  | stopBefore => exact ⟨index, rfl, .before exposed ⟨r, here, verdict⟩, lower⟩
  | stopAfter =>
    refine ⟨index + 1, rfl, .after exposed ⟨r, here, verdict⟩, ?_⟩
    intro stop boundary
    refine Nat.lt_of_le_of_ne (lower stop boundary) ?_
    rintro rfl
    exact passed.not_boundary inside ⟨r, here, verdict⟩ notEnclosing boundary
  | inside =>
    have passes : Passes t text mode start index := ⟨⟨r, here, verdict⟩, notEnclosing⟩
    have passed' := passed.succ passes
    obtain ⟨partner, there⟩ : ∃ partner, t.records[r.balance]? = some partner :=
      ⟨_, Array.getElem?_eq_getElem (points.lt inside)⟩
    have back : ∀ b, Points t.kinds t.size r.balance b → partner.balance = b := by
      intro b expected
      have := (balanced r.balance partner.balance).mp (by rw [Table.balance?, there]; rfl)
      exact this.2.unique expected
    simp only [there]
    cases points with
    | @opener j isMatched closed =>
      -- A group is passed as a whole.
      have inOrder := isMatched.lt
      rw [back index (.closer isMatched closed), if_neg (by simp), if_pos (by omega)]
      exact walk_isLeast balanced closed (exposed.jump isMatched) (passed'.jump isMatched afterStart)
    | closer isMatched _ =>
      have := exposed.past _ index isMatched (by omega) isMatched.lt
      omega
    | @member i j isMember closed =>
      have := isMember.after
      have differs : partner.balance ≠ index := by
        rw [back i (.closer isMember.matched closed)]
        omega
      rw [if_pos differs]
      exact walk_isLeast balanced inside (exposed.succ isMember.not_opener) passed'
    | free isFree =>
      rw [back r.balance (.free isFree), if_neg (by simp), if_pos (Nat.le_refl r.balance)]
      refine walk_isLeast balanced inside (exposed.succ ?_) passed'
      intro j isMatched
      exact isMatched.not_free_opener (by simpa using isMatched.lt_length) isFree
termination_by t.size - index

private theorem kind_of_stopAfter {kind : Kind} {bytes : Bytes} (h : mode.verdict kind bytes = .stopAfter) :
    kind = .semicolon := by
  unfold Mode.verdict at h
  split at h
  case h_5 =>
    split at h <;> cases h
  all_goals first | rfl | cases h

private theorem kind_of_stopBefore {kind : Kind} {bytes : Bytes} (h : mode.verdict kind bytes = .stopBefore) :
    kind = .leftCurly ∨ kind = .semicolon ∨ kind = .delim := by
  cases mode <;> cases kind <;> simp [Mode.verdict] at h ⊢

/-- A region ends with the input, in front of a kind of token that no quote and no whitespace begins, or after a
semicolon. -/
theorem Boundary.kind {stop : Nat} (h : Boundary t text mode start stop) :
    stop = t.size ∨ (∃ kind, t.kinds[stop]? = some kind ∧ kind ≠ .whiteSpace ∧ kind ≠ .string ∧ kind ≠ .badString) ∨
      ∃ k, start ≤ k ∧ stop = k + 1 ∧ t.kinds[k]? = some .semicolon := by
  cases h with
  | input => exact .inl rfl
  | enclosing _ isMatched _ =>
    obtain ⟨closer, opens, closes, _⟩ := isMatched
    obtain ⟨opener, _, wants⟩ := Option.bind_eq_some_iff.mp opens
    refine .inr (.inl ⟨closer, closes, ?_⟩)
    cases opener <;> simp [Kind.closingPair?] at wants <;> simp [← wants]
  | before _ judged =>
    obtain ⟨r, here, verdict⟩ := judged
    refine .inr (.inl ⟨r.kind, by rw [Table.getElem?_kinds, here, Option.map_some], ?_⟩)
    rcases kind_of_stopBefore verdict with kind | kind | kind <;> simp [kind]
  | @after k exposed judged =>
    obtain ⟨r, here, verdict⟩ := judged
    refine .inr (.inr ⟨k, exposed.le, rfl, ?_⟩)
    rw [Table.getElem?_kinds, here, Option.map_some, kind_of_stopAfter verdict]

/-- A region holds both brackets of a pair or neither. -/
theorem pair_in_iff {stop i j : Nat} (least : IsLeast {k | Boundary t text mode start k} stop)
    (isMatched : Matched t.kinds i j) : (start ≤ i ∧ i < stop) ↔ (start ≤ j ∧ j < stop) := by
  have inOrder := isMatched.lt
  have inRange : j < t.size := by simpa using isMatched.lt_length
  constructor
  · rintro ⟨le, before⟩
    refine ⟨by omega, ?_⟩
    cases least.1 with
    | input => exact inRange
    | enclosing exposed _ _ => exact exposed.past i j isMatched le before
    | before exposed _ => exact exposed.past i j isMatched le before
    | @after k exposed judged =>
      rcases Nat.lt_or_eq_of_le (Nat.le_of_lt_succ before) with early | same
      · have := exposed.past i j isMatched le early
        omega
      · subst same
        obtain ⟨r, here, verdict⟩ := judged
        obtain ⟨closer, opens, _⟩ := isMatched
        have kind : t.kinds[i]? = some .semicolon := by
          rw [Table.getElem?_kinds, here, Option.map_some, kind_of_stopAfter verdict]
        exact absurd rfl (opens.not_ordinary kind)
  · rintro ⟨le, before⟩
    rcases Nat.lt_or_ge i start with early | late
    · have exposed : Exposed t.kinds start j := by
        refine ⟨le, ?_⟩
        intro a b pair after inside
        exact isMatched.nested pair (by omega) inside
      have := least.2 (.enclosing exposed isMatched early)
      omega
    · exact ⟨late, by omega⟩

end CssLex.Region
