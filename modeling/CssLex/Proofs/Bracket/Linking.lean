import CssLex.Proofs.Bracket.Matching

/-!
`State.run` keeps one invariant, `Linked`: the open groups are those that the tokens so far leave open, the pending
tokens are their members so far, and the balance indices are right as far as pairs are closed (`Points`).
-/

namespace CssLex.Bracket

variable {kinds : List Kind}

/-- Of the pairs that close before `n`, none has the token at `k` in it or at its ends. -/
def Free (kinds : List Kind) (n k : Nat) : Prop := ∀ i j, Matched kinds i j → j < n → i ≤ k → j < k

/-- The token at `k` lies between the brackets at `i` and `j`, and in no pair inside of them. -/
structure Member (kinds : List Kind) (i j k : Nat) : Prop where
  matched : Matched kinds i j
  after : i < k
  before : k < j
  direct : ∀ a b, Matched kinds a b → i < a → a ≤ k → b < k

/-- What the token at `k` is balanced with once the pairs that close before `n` are linked. -/
inductive Points (kinds : List Kind) (n k : Nat) : Nat → Prop where
  | opener {j : Nat} (isMatched : Matched kinds k j) (closed : j < n) : Points kinds n k j
  | closer {i : Nat} (isMatched : Matched kinds i k) (closed : k < n) : Points kinds n k i
  | member {i j : Nat} (isMember : Member kinds i j k) (closed : j < n) : Points kinds n k j
  | free (isFree : Free kinds n k) : Points kinds n k k

private theorem Free.mono {n n' k : Nat} (h : Free kinds n' k) (le : n ≤ n') : Free kinds n k := by
  intro i j isMatched closed
  exact h i j isMatched (by omega)

/-- A token that closes no pair leaves free what is free. -/
private theorem Free.succ {n k : Nat} (h : Free kinds n k) (unmatched : ∀ i, ¬ Matched kinds i n) :
    Free kinds (n + 1) k := by
  intro i j isMatched closed
  rcases Nat.lt_or_eq_of_le (Nat.le_of_lt_succ closed) with before | same
  · exact h i j isMatched before
  · subst same
    exact absurd isMatched (unmatched i)

theorem Matched.not_free_opener {n i j : Nat} (h : Matched kinds i j) (closed : j < n) : ¬ Free kinds n i := by
  intro free
  have := free i j h closed (Nat.le_refl i)
  have := h.lt
  omega

private theorem Matched.not_free_closer {n i j : Nat} (h : Matched kinds i j) (closed : j < n) : ¬ Free kinds n j := by
  intro free
  have := h.lt
  have := free i j h closed (by omega)
  omega

namespace Member

variable {i j k : Nat}

theorem not_opener (h : Member kinds i j k) (l : Nat) : ¬ Matched kinds k l := by
  intro isMatched
  have := h.direct k l isMatched h.after (Nat.le_refl k)
  have := isMatched.lt
  omega

private theorem not_closer (h : Member kinds i j k) (l : Nat) : ¬ Matched kinds l k := by
  intro isMatched
  have crossing : ¬ l < i := by
    intro early
    have := isMatched.nested h.matched early h.after
    have := h.before
    omega
  rcases Nat.lt_or_eq_of_le (Nat.le_of_not_lt crossing) with inside | same
  · have := h.direct l k isMatched inside (Nat.le_of_lt isMatched.lt)
    omega
  · subst same
    have := h.matched.closer_unique isMatched
    have := h.before
    omega

private theorem not_free {n : Nat} (h : Member kinds i j k) (closed : j < n) : ¬ Free kinds n k := by
  intro free
  have := free i j h.matched closed (Nat.le_of_lt h.after)
  have := h.before
  omega

/-- A token is a direct member of one pair at most. -/
theorem unique {a b : Nat} (h : Member kinds i j k) (h' : Member kinds a b k) : j = b := by
  rcases Nat.lt_trichotomy i a with outer | same | inner
  · have := h.direct a b h'.matched outer (Nat.le_of_lt h'.after)
    have := h'.before
    omega
  · subst same
    exact h.matched.closer_unique h'.matched
  · have := h'.direct i j h.matched inner (Nat.le_of_lt h.after)
    have := h.before
    omega

end Member

/-- A token is balanced with one token only. -/
theorem Points.unique {n k b b' : Nat} (h : Points kinds n k b) (h' : Points kinds n k b') : b = b' := by
  cases h with
  | opener isMatched closed =>
    cases h' with
    | opener isMatched' _ => exact isMatched.closer_unique isMatched'
    | closer isMatched' _ => exact absurd rfl (isMatched.ne isMatched')
    | member isMember _ => exact absurd isMatched (isMember.not_opener _)
    | free isFree => exact absurd isFree (isMatched.not_free_opener closed)
  | closer isMatched closed =>
    cases h' with
    | opener isMatched' _ => exact absurd rfl (isMatched'.ne isMatched)
    | closer isMatched' _ => exact isMatched.opener_unique isMatched'
    | member isMember _ => exact absurd isMatched (isMember.not_closer _)
    | free isFree => exact absurd isFree (isMatched.not_free_closer closed)
  | member isMember closed =>
    cases h' with
    | opener isMatched' _ => exact absurd isMatched' (isMember.not_opener _)
    | closer isMatched' _ => exact absurd isMatched' (isMember.not_closer _)
    | member isMember' _ => exact isMember.unique isMember'
    | free isFree => exact absurd isFree (isMember.not_free closed)
  | free isFree =>
    cases h' with
    | opener isMatched' closed => exact absurd isFree (isMatched'.not_free_opener closed)
    | closer isMatched' closed => exact absurd isFree (isMatched'.not_free_closer closed)
    | member isMember closed => exact absurd isFree (isMember.not_free closed)
    | free _ => rfl

theorem Points.lt {n k b : Nat} (h : Points kinds n k b) (inRange : k < n) : b < n := by
  cases h with
  | opener isMatched closed => exact closed
  | closer isMatched closed =>
    have := isMatched.lt
    omega
  | member isMember closed => exact closed
  | free _ => exact inRange

/-- A token that closes no pair changes no balance index. -/
private theorem Points.succ {n k b : Nat} (h : Points kinds n k b) (unmatched : ∀ i, ¬ Matched kinds i n) :
    Points kinds (n + 1) k b := by
  cases h with
  | opener isMatched closed => exact .opener isMatched (by omega)
  | closer isMatched closed => exact .closer isMatched (by omega)
  | member isMember closed => exact .member isMember (by omega)
  | free isFree => exact .free (isFree.succ unmatched)

/-- A pair that is closed changes the balance indices of its brackets and of what is free between them. -/
private theorem Points.close {m n k b : Nat} (h : Points kinds n k b) (isMatched : Matched kinds m n)
    (notOpener : k ≠ m)
    (notCloser : k ≠ n) (notMember : ¬ (m < k ∧ k < n ∧ Free kinds n k)) : Points kinds (n + 1) k b := by
  cases h with
  | opener isMatched' closed => exact .opener isMatched' (by omega)
  | closer isMatched' closed => exact .closer isMatched' (by omega)
  | member isMember closed => exact .member isMember (by omega)
  | free isFree =>
    refine .free ?_
    intro a b pair closed le
    rcases Nat.lt_or_eq_of_le (Nat.le_of_lt_succ closed) with before | same
    · exact isFree a b pair before le
    · subst same
      cases isMatched.opener_unique pair
      rcases Nat.lt_trichotomy k b with inside | atEnd | past
      · exact absurd ⟨by omega, inside, isFree⟩ notMember
      · exact absurd atEnd notCloser
      · exact past

/-- The groups, innermost first, that the first `n` tokens leave open, and the tokens that are their members so far. -/
inductive Open (kinds : List Kind) : List Group → List Nat → Nat → Prop where
  | top {n : Nat} (content : Content kinds none 0 n) : Open kinds [] [] n
  | group {g : Group} {outer : List Group} {pending members : List Nat} {n : Nat}
      (around : Open kinds outer pending g.opener) (opens : Opens kinds g.opener g.closer)
      (content : Content kinds (some g.closer) (g.opener + 1) n) (mark : g.mark = pending.length)
      (members_iff : ∀ k, k ∈ members ↔ g.opener < k ∧ k < n ∧ Free kinds n k) :
      Open kinds (g :: outer) (pending ++ members) n

namespace Open

variable {groups outer : List Group} {g : Group} {pending : List Nat} {n i : Nat}

/-- The innermost open group is not closed yet. -/
private theorem unclosed (h : Open kinds (g :: outer) pending n) {l : Nat} (closed : l < n) :
    ¬ Matched kinds g.opener l := by
  intro isMatched
  cases h with
  | group _ opens content _ _ =>
    have closes : kinds[l]? = some g.closer := by
      obtain ⟨closer, opens', closes, _⟩ := isMatched
      rwa [opens.unique opens']
    obtain ⟨a, b, aLe, aLt, lLe, bLt, inner⟩ :=
      content.covered_of_closer rfl opens.closer_ordinary isMatched.lt closed closes
    have := isMatched.nested inner aLe aLt
    omega

/-- Only the closing bracket that the innermost open group wants closes a pair. -/
private theorem unmatched (h : Open kinds groups pending n) (other : ∀ g ∈ groups.head?, kinds[n]? ≠ some g.closer) :
    ¬ Matched kinds i n := by
  intro isMatched
  have inOrder := isMatched.lt
  have elsewhere : ∀ l, l < n → ¬ Matched kinds i l := by
    intro l before isMatched'
    have := isMatched.closer_unique isMatched'
    omega
  have opening : ∃ closer, Opens kinds i closer ∧ kinds[n]? = some closer := by
    obtain ⟨closer, opens, closes, _⟩ := isMatched
    exact ⟨closer, opens, closes⟩
  obtain ⟨closer, opens, closes⟩ := opening
  cases h with
  | top content =>
    obtain ⟨l, before, isMatched'⟩ := content.matched_of_opens (Nat.zero_le i) inOrder opens
    exact elsewhere l before isMatched'
  | @group g outer _ _ _ around opensGroup content mark members_iff =>
    have groupInOrder := content.le
    rcases Nat.lt_trichotomy i g.opener with before | same | after
    · obtain ⟨l, closed, isMatched'⟩ := isMatched.inner before groupInOrder opensGroup
      exact (Open.group around opensGroup content mark members_iff).unclosed closed isMatched'
    · subst same
      cases opens.unique opensGroup
      exact other g rfl closes
    · obtain ⟨l, closed, isMatched'⟩ := content.matched_of_opens after inOrder opens
      exact elsewhere l closed isMatched'

/-- The closing bracket that the innermost open group wants belongs to the bracket that opened it. -/
private theorem matched (h : Open kinds (g :: outer) pending n) (closes : kinds[n]? = some g.closer) :
    Matched kinds g.opener n := by
  cases h with
  | group _ opens content _ _ => exact ⟨g.closer, opens, closes, content⟩

/-- When a group is closed, the groups around it stay open and get no new members. -/
private theorem close {m : Nat} (h : Open kinds groups pending m) (isMatched : Matched kinds m n) :
    Open kinds groups pending (n + 1) := by
  have inOrder := isMatched.lt
  have part : ∀ closer, Content kinds closer m (n + 1) := by
    intro closer
    obtain ⟨inner, opens, closes, inside⟩ := isMatched
    exact .group opens inside closes (.done closer (n + 1))
  cases h with
  | top content => exact .top (content.trans (part none))
  | @group g outer _ _ _ around opens content mark members_iff =>
    refine .group around opens (content.trans (part _)) mark ?_
    intro k
    rw [members_iff k]
    constructor
    · rintro ⟨after, before, free⟩
      refine ⟨after, by omega, ?_⟩
      intro a b inner closed le
      -- A pair around `k` that closes from `m` on would cross the group that is closed here.
      rcases Nat.lt_trichotomy b m with early | same | late
      · exact free a b inner early le
      · exact absurd same.symm (isMatched.ne inner)
      · have := inner.nested isMatched (by omega) late
        omega
    · rintro ⟨after, before, free⟩
      have early : k < m := by
        rcases Nat.lt_or_ge k m with early | late
        · exact early
        · have := free m n isMatched (Nat.lt_succ_self n) late
          omega
      exact ⟨after, early, free.mono (by omega)⟩

/-- An opening bracket opens a group without members. -/
private theorem opener (h : Open kinds groups pending n) {closer : Kind} (opens : Opens kinds n closer) :
    Open kinds (⟨n, closer, pending.length⟩ :: groups) pending (n + 1) := by
  have opened : Open kinds (⟨n, closer, pending.length⟩ :: groups) (pending ++ []) (n + 1) := by
    refine .group h opens (.done _ _) rfl ?_
    intro k
    simp only [List.not_mem_nil, false_iff]
    omega
  rwa [List.append_nil] at opened

private theorem plain (h : Open kinds [] pending n) {kind : Kind} (here : kinds[n]? = some kind)
    (ordinary : kind.closingPair? = none) : Open kinds [] pending (n + 1) := by
  cases h with
  | top content =>
    exact .top (content.trans (.plain here ordinary (Option.some_ne_none kind).symm (.done none (n + 1))))

/-- A token that neither opens a group nor closes the innermost one is its member. -/
private theorem member (h : Open kinds (g :: outer) pending n) {kind : Kind} (here : kinds[n]? = some kind)
    (ordinary : kind.closingPair? = none) (other : kind ≠ g.closer) :
    Open kinds (g :: outer) (pending ++ [n]) (n + 1) := by
  have another : kinds[n]? ≠ some g.closer := by
    rw [here]
    simpa using other
  have unmatched : ∀ i, ¬ Matched kinds i n := fun i => h.unmatched (by simpa using another)
  cases h with
  | group around opens content mark members_iff =>
    have inOrder := content.le
    rw [List.append_assoc]
    refine .group around opens
      (content.trans (.plain here ordinary (fun same => another (here.trans same.symm)) (.done _ _))) mark ?_
    intro k
    rw [List.mem_append, List.mem_singleton, members_iff k]
    constructor
    · rintro (⟨after, before, free⟩ | same)
      · exact ⟨after, by omega, free.succ unmatched⟩
      · subst same
        have free : Free kinds k k := fun i j _ closed _ => closed
        exact ⟨inOrder, Nat.lt_succ_self k, free.succ unmatched⟩
    · rintro ⟨after, before, free⟩
      rcases Nat.lt_or_eq_of_le (Nat.le_of_lt_succ before) with early | same
      · exact .inl ⟨after, early, free.mono (Nat.le_succ n)⟩
      · exact .inr same

end Open

private theorem getElem?_assign (index k : Nat) (members balance : Array Nat) (inRange : k < balance.size) :
    (assign index members balance)[k]? = if k ∈ members.toList then some index else balance[k]? := by
  rw [assign, ← Array.foldl_toList]
  induction members.toList generalizing balance with
  | nil => simp
  | cons member rest ih =>
    rw [List.foldl_cons, ih _ (by simpa using inRange), Array.getElem?_setIfInBounds]
    by_cases inRest : k ∈ rest
    · simp [inRest]
    · by_cases same : member = k
      · subst same
        simp [inRange]
      · simp [inRest, same, Ne.symm same]

private theorem getElem?_close (s : State) (g : Group) (outer : List Group) (index k : Nat)
    (inRange : k < s.balance.size) :
    (s.close g outer index).balance[k]? =
      if k ∈ s.pending.toList.drop g.mark then some index else if k = index then some g.opener
      else if k = g.opener then some index else s.balance[k]? := by
  have members : (s.pending.extract g.mark s.pending.size).toList = s.pending.toList.drop g.mark := by
    rw [Array.toList_extract, List.extract_eq_take_drop, List.take_of_length_le (by simp)]
  rw [State.close, getElem?_assign _ _ _ _ (by simpa using inRange), members]
  by_cases isMember : k ∈ s.pending.toList.drop g.mark
  · rw [if_pos isMember, if_pos isMember]
  · rw [if_neg isMember, if_neg isMember, Array.getElem?_setIfInBounds, Array.getElem?_setIfInBounds]
    by_cases isCloser : index = k
    · subst isCloser
      simp [inRange]
    · by_cases isOpener : g.opener = k
      · subst isOpener
        simp [isCloser, Ne.symm isCloser, inRange]
      · simp [isCloser, Ne.symm isCloser, isOpener, Ne.symm isOpener]

/-- What holds of the state before the token at `n`. -/
structure Linked (kinds : List Kind) (n : Nat) (s : State) : Prop where
  groups : Open kinds s.groups s.pending.toList n
  size : s.balance.size = kinds.length
  points : ∀ k b, s.balance[k]? = some b → Points kinds n k b

theorem linked_start {balance : Array Nat} (size : balance.size = kinds.length)
    (own : ∀ k b : Nat, balance[k]? = some b → b = k) : Linked kinds 0 (State.start balance) := by
  refine ⟨.top (.done none 0), size, ?_⟩
  intro k b here
  cases own k b here
  refine .free ?_
  intro i j _ closed
  omega

namespace Linked

variable {s : State} {n : Nat} {kind : Kind}

/-- A token that closes no pair is linked once the groups are right. -/
private theorem skip (h : Linked kinds n s) {groups : List Group} {pending : Array Nat}
    (isOpen : Open kinds groups pending.toList (n + 1)) (unmatched : ∀ i, ¬ Matched kinds i n) :
    Linked kinds (n + 1) ⟨groups, pending, s.balance⟩ :=
  ⟨isOpen, h.size, fun k b here => (h.points k b here).succ unmatched⟩

private theorem close (h : Linked kinds n s) {g : Group} {outer : List Group} (isTop : s.groups = g :: outer)
    (closes : kinds[n]? = some g.closer) : Linked kinds (n + 1) (s.close g outer n) := by
  have isOpen := h.groups
  rw [isTop] at isOpen
  have isMatched := isOpen.matched closes
  obtain ⟨outside, members, split, mark, around, members_iff⟩ :
      ∃ outside members, s.pending.toList = outside ++ members ∧ g.mark = outside.length ∧
        Open kinds outer outside g.opener ∧ ∀ k, k ∈ members ↔ g.opener < k ∧ k < n ∧ Free kinds n k := by
    generalize s.pending.toList = pending at isOpen
    cases isOpen with
    | @group _ _ outside members _ around _ _ mark members_iff =>
      exact ⟨outside, members, rfl, mark, around, members_iff⟩
  have kept : (s.close g outer n).pending.toList = outside := by
    simp [State.close, split, mark]
  have drained : s.pending.toList.drop g.mark = members := by
    rw [split, mark, List.drop_left]
  refine ⟨kept ▸ around.close isMatched, by rw [State.size_close, h.size], ?_⟩
  intro k b here
  have inRange : k < s.balance.size := by
    rw [← State.size_close s g outer n]
    exact (Array.getElem?_eq_some_iff.mp here).1
  rw [getElem?_close s g outer n k inRange, drained] at here
  by_cases isMember : k ∈ members
  · rw [if_pos isMember] at here
    cases here
    obtain ⟨after, before, free⟩ := (members_iff k).mp isMember
    refine .member ⟨isMatched, after, before, ?_⟩ (Nat.lt_succ_self n)
    intro a b inner later le
    exact free a b inner (isMatched.nested inner later (by omega)) le
  by_cases isCloser : k = n
  · subst isCloser
    simp only [if_neg isMember, if_true] at here
    cases here
    exact .closer isMatched (Nat.lt_succ_self k)
  by_cases isOpener : k = g.opener
  · subst isOpener
    simp only [if_neg isMember, if_neg isCloser, if_true] at here
    cases here
    exact .opener isMatched (Nat.lt_succ_self n)
  simp only [if_neg isMember, if_neg isCloser, if_neg isOpener] at here
  refine (h.points k b here).close isMatched isOpener isCloser ?_
  rintro ⟨after, before, free⟩
  exact isMember ((members_iff k).mpr ⟨after, before, free⟩)

theorem step (h : Linked kinds n s) (here : kinds[n]? = some kind) : Linked kinds (n + 1) (s.step n kind) := by
  have isOpen := h.groups
  cases opening : kind.closingPair? with
  | some closer =>
    have opens : Opens kinds n closer := by rw [Opens, here, Option.bind_some, opening]
    have stepped : s.step n kind = ⟨⟨n, closer, s.pending.size⟩ :: s.groups, s.pending, s.balance⟩ := by
      simp only [State.step, opening]
    rw [stepped]
    exact h.skip (isOpen.opener opens) (fun i isMatched => isMatched.not_opens opens)
  | none =>
    cases isTop : s.groups with
    | nil =>
      rw [isTop] at isOpen
      have stepped : s.step n kind = ⟨[], s.pending, s.balance⟩ := by
        simp only [State.step, opening, isTop]
        rw [← isTop]
      rw [stepped]
      exact h.skip (isOpen.plain here opening) (fun i => isOpen.unmatched (by simp))
    | cons g outer =>
      rw [isTop] at isOpen
      by_cases closes : kind = g.closer
      · have stepped : s.step n kind = s.close g outer n := by
          simp only [State.step, opening, isTop, if_pos closes]
        rw [stepped]
        exact h.close isTop (closes ▸ here)
      · have stepped : s.step n kind = ⟨g :: outer, s.pending.push n, s.balance⟩ := by
          simp only [State.step, opening, isTop, if_neg closes]
        rw [stepped]
        refine h.skip ?_ (fun i => isOpen.unmatched (by simpa [here] using closes))
        rw [Array.toList_push]
        exact isOpen.member here opening closes

theorem run (h : Linked kinds n s) (inRange : n ≤ kinds.length) {rest : List Kind} (left : kinds.drop n = rest) :
    Linked kinds kinds.length (s.run n rest) := by
  induction rest generalizing n s with
  | nil =>
    have past := List.drop_eq_nil_iff.mp left
    have same : n = kinds.length := by omega
    subst same
    exact h
  | cons kind rest ih =>
    have here : kinds[n]? = some kind := by
      rw [← List.head?_drop, left, List.head?_cons]
    have left' : kinds.drop (n + 1) = rest := by
      rw [← List.drop_drop, left, List.drop_one, List.tail_cons]
    exact ih (h.step here) (List.getElem?_eq_some_iff.mp here).1 left'

end Linked

end CssLex.Bracket
