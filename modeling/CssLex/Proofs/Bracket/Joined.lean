import CssLex.Proofs.Bracket.Linking

namespace CssLex.Bracket

/-- Every opening bracket is matched. -/
def Closed (kinds : List Kind) : Prop := ∀ i closer, Opens kinds i closer → ∃ j, Matched kinds i j

variable {left right : List Kind} {i j k b : Nat}

private theorem Matched.append_left (h : Matched left i j) (right : List Kind) : Matched (left ++ right) i j := by
  have closed := h.lt_length
  refine h.congr (by omega) ?_
  intro k k' _ le same
  obtain rfl : k' = k := by omega
  exact List.getElem?_append_left (by omega)

private theorem Matched.append_right (h : Matched right i j) (left : List Kind) :
    Matched (left ++ right) (left.length + i) (left.length + j) := by
  refine h.congr (by omega) ?_
  intro k k' _ _ same
  obtain rfl : k' = left.length + k := by omega
  rw [List.getElem?_append_right (Nat.le_add_right _ _), Nat.add_sub_cancel_left]

/-- No pair has brackets on both sides: the one in front would have two partners. -/
theorem matched_append (closed : Closed left) (h : Matched (left ++ right) i j) :
    Matched left i j ∨ ∃ i' j', i = left.length + i' ∧ j = left.length + j' ∧ Matched right i' j' := by
  have inOrder := h.lt
  rcases Nat.lt_or_ge i left.length with front | behind
  · have opening : ∃ closer, Opens left i closer := by
      obtain ⟨closer, opens, -⟩ := h
      rw [Opens, List.getElem?_append_left front] at opens
      exact ⟨closer, opens⟩
    obtain ⟨closer, opens⟩ := opening
    obtain ⟨j', pair⟩ := closed i closer opens
    rw [h.closer_unique (pair.append_left right)]
    exact .inl pair
  · obtain ⟨i', rfl⟩ : ∃ i', i = left.length + i' := ⟨i - left.length, by omega⟩
    obtain ⟨j', rfl⟩ : ∃ j', j = left.length + j' := ⟨j - left.length, by omega⟩
    refine .inr ⟨i', j', rfl, rfl, h.congr (by omega) ?_⟩
    intro k k' _ _ same
    obtain rfl : k = left.length + k' := by omega
    rw [List.getElem?_append_right (Nat.le_add_right _ _), Nat.add_sub_cancel_left]

/-- The tokens in front stay balanced as they were. -/
theorem Points.append_left (h : Points left left.length k b) (right : List Kind) (closed : Closed left)
    (inRange : k < left.length) :
    Points (left ++ right) (left.length + right.length) k b := by
  cases h with
  | opener isMatched before => exact .opener (isMatched.append_left right) (by omega)
  | closer isMatched before => exact .closer (isMatched.append_left right) (by omega)
  | member isMember before =>
    refine .member ⟨isMember.matched.append_left right, isMember.after, isMember.before, ?_⟩ (by omega)
    intro a b pair after le
    rcases matched_append closed pair with pair | ⟨a', b', rfl, rfl, -⟩
    · exact isMember.direct a b pair after le
    · omega
  | free isFree =>
    refine .free ?_
    intro a b pair _ le
    rcases matched_append closed pair with pair | ⟨a', b', rfl, rfl, -⟩
    · exact isFree a b pair pair.lt_length le
    · omega

/-- The tokens behind are balanced as on their own, at their new places. -/
theorem Points.append_right (h : Points right right.length k b) (closed : Closed left) :
    Points (left ++ right) (left.length + right.length) (left.length + k) (left.length + b) := by
  cases h with
  | opener isMatched before => exact .opener (isMatched.append_right left) (by omega)
  | closer isMatched before => exact .closer (isMatched.append_right left) (by omega)
  | @member i _ isMember before =>
    have after := isMember.after
    have inside := isMember.before
    refine .member ⟨isMember.matched.append_right left, by omega, by omega, ?_⟩ (by omega)
    intro a b pair past le
    rcases matched_append closed pair with inner | ⟨a', b', rfl, rfl, inner⟩
    · have := inner.lt_length
      omega
    · have := isMember.direct a' b' inner (by omega) (by omega)
      omega
  | free isFree =>
    refine .free ?_
    intro a b pair _ le
    rcases matched_append closed pair with inner | ⟨a', b', rfl, rfl, inner⟩
    · have := inner.lt_length
      omega
    · have := isFree a' b' inner inner.lt_length (by omega)
      omega

end CssLex.Bracket
