import CssLex.Bracket

/-!
Which opening bracket belongs to which closing bracket, said by a grammar of groups and without a stack. Matched pairs
share no bracket and never cross (`Matched.nested`), and whether two brackets match is decided by the tokens between
them alone (`Matched.congr`).
-/

namespace CssLex.Bracket

/-- The token at `index` opens a group that wants `closer`. -/
def Opens (kinds : List Kind) (index : Nat) (closer : Kind) : Prop :=
  kinds[index]?.bind Kind.closingPair? = some closer

/-- The tokens from one index up to another fit inside a group that wants `closer`, or outside of every group if it is
none: inner groups are closed, and outside of them there is no `closer`. -/
inductive Content (kinds : List Kind) : Option Kind → Nat → Nat → Prop where
  | done (closer : Option Kind) (i : Nat) : Content kinds closer i i
  | plain {closer : Option Kind} {i j : Nat} {kind : Kind} (here : kinds[i]? = some kind)
      (ordinary : kind.closingPair? = none) (other : closer ≠ some kind) (rest : Content kinds closer (i + 1) j) :
      Content kinds closer i j
  | group {closer : Option Kind} {i m j : Nat} {inner : Kind} (opens : Opens kinds i inner)
      (inside : Content kinds (some inner) (i + 1) m) (closes : kinds[m]? = some inner)
      (rest : Content kinds closer (m + 1) j) : Content kinds closer i j

/-- The tokens at `i` and `j` are an opening bracket and the closing bracket that belongs to it. -/
def Matched (kinds : List Kind) (i j : Nat) : Prop :=
  ∃ closer, Opens kinds i closer ∧ kinds[j]? = some closer ∧ Content kinds (some closer) (i + 1) j

variable {kinds : List Kind}

private theorem getElem?_extract {start stop k : Nat} (inside : start + k < stop) :
    (kinds.extract start stop)[k]? = kinds[start + k]? := by
  rw [List.extract_eq_take_drop, List.getElem?_take_of_lt (by omega), List.getElem?_drop]

private theorem lt_of_lt_length_extract {start stop k : Nat} (inRange : k < (kinds.extract start stop).length) :
    start + k < stop := by
  rw [List.extract_eq_take_drop, List.length_take] at inRange
  omega

/-- What closes a group opens none. -/
private theorem closingPair?_closer {kind closer : Kind} (h : kind.closingPair? = some closer) :
    closer.closingPair? = none := by
  cases kind <;> simp [Kind.closingPair?] at h <;> subst h <;> rfl

theorem Opens.closer_ordinary {i : Nat} {closer : Kind} (h : Opens kinds i closer) : closer.closingPair? = none := by
  obtain ⟨kind, _, opens⟩ := Option.bind_eq_some_iff.mp h
  exact closingPair?_closer opens

theorem Opens.not_ordinary {i : Nat} {closer kind : Kind} (h : Opens kinds i closer) (here : kinds[i]? = some kind) :
    kind.closingPair? ≠ none := by
  rw [Opens, here, Option.bind_some] at h
  rw [h]
  exact Option.some_ne_none closer

theorem Opens.unique {i : Nat} {first second : Kind} (h : Opens kinds i first) (h' : Opens kinds i second) :
    first = second := Option.some.inj (h.symm.trans h')

namespace Content

variable {closer : Option Kind} {i j k : Nat}

theorem le (h : Content kinds closer i j) : i ≤ j := by
  induction h with
  | done => exact Nat.le_refl _
  | plain => omega
  | group => omega

theorem trans (first : Content kinds closer i j) (second : Content kinds closer j k) : Content kinds closer i k := by
  induction first with
  | done => exact second
  | plain here ordinary other _ ih => exact .plain here ordinary other (ih second)
  | group opens inside closes _ _ ih => exact .group opens inside closes (ih second)

/-- A group is closed by the first token that can close it. -/
theorem unique {wanted : Kind} (h : Content kinds closer i j) (isWanted : closer = some wanted)
    (ordinary : wanted.closingPair? = none) (closes : kinds[j]? = some wanted) {j' : Nat}
    (h' : Content kinds closer i j') (closes' : kinds[j']? = some wanted) : j = j' := by
  induction h generalizing j' wanted with
  | done =>
    cases h' with
    | done => rfl
    | plain here _ other _ =>
      rw [closes] at here
      exact absurd (isWanted.trans here) other
    | group opens _ _ _ => exact absurd ordinary (opens.not_ordinary closes)
  | plain here ordinaryHere other _ ih =>
    cases h' with
    | done =>
      rw [closes'] at here
      exact absurd (isWanted.trans here) other
    | plain _ _ _ rest => exact ih isWanted ordinary closes rest closes'
    | group opens _ _ _ => exact absurd ordinaryHere (opens.not_ordinary here)
  | group opens _ closesInner _ ihInside ihRest =>
    cases h' with
    | done => exact absurd ordinary (opens.not_ordinary closes')
    | plain here ordinaryHere _ _ => exact absurd ordinaryHere (opens.not_ordinary here)
    | group opens' inside' closesInner' rest' =>
      cases opens.unique opens'
      have same := ihInside rfl opens.closer_ordinary closesInner inside' closesInner'
      subst same
      exact ihRest isWanted ordinary closes rest' closes'

/-- Every bracket that opens inside is closed inside. -/
theorem matched_of_opens (h : Content kinds closer i j) {wanted : Kind} (le : i ≤ k) (lt : k < j)
    (opens : Opens kinds k wanted) : ∃ l, l < j ∧ Matched kinds k l := by
  induction h with
  | done => omega
  | plain here ordinary _ _ ih =>
    rcases Nat.lt_or_eq_of_le le with later | same
    · exact ih later lt
    · subst same
      exact absurd ordinary (opens.not_ordinary here)
  | @group _ i m j inner opensHere inside closes rest ihInside ihRest =>
    have inOrder := rest.le
    rcases Nat.lt_or_eq_of_le le with later | same
    · rcases Nat.lt_trichotomy k m with before | atClose | after
      · obtain ⟨l, lLt, isMatched⟩ := ihInside later before
        exact ⟨l, by omega, isMatched⟩
      · subst atClose
        exact absurd opensHere.closer_ordinary (opens.not_ordinary closes)
      · exact ihRest after lt
    · subst same
      exact ⟨m, by omega, inner, opensHere, closes, inside⟩

/-- The closing bracket that the group wants occurs in it only as a part of inner groups. -/
theorem covered_of_closer (h : Content kinds closer i j) {wanted : Kind} (isWanted : closer = some wanted)
    (ordinary : wanted.closingPair? = none) (le : i ≤ k) (lt : k < j) (here : kinds[k]? = some wanted) :
    ∃ a b, i ≤ a ∧ a < k ∧ k ≤ b ∧ b < j ∧ Matched kinds a b := by
  induction h with
  | done => omega
  | plain first _ other _ ih =>
    rcases Nat.lt_or_eq_of_le le with later | same
    · obtain ⟨a, b, aLe, aLt, kLe, bLt, isMatched⟩ := ih isWanted later lt
      exact ⟨a, b, by omega, aLt, kLe, bLt, isMatched⟩
    · subst same
      rw [here] at first
      exact absurd (isWanted.trans first) other
  | @group _ i m j inner opensHere inside closes rest _ ihRest =>
    have inOrder := inside.le
    have restInOrder := rest.le
    by_cases after : m < k
    · obtain ⟨a, b, aLe, aLt, kLe, bLt, isMatched⟩ := ihRest isWanted after lt
      exact ⟨a, b, by omega, aLt, kLe, bLt, isMatched⟩
    · rcases Nat.lt_or_eq_of_le le with later | same
      · exact ⟨i, m, Nat.le_refl i, later, by omega, by omega, inner, opensHere, closes, inside⟩
      · subst same
        exact absurd ordinary (opensHere.not_ordinary here)

/-- Contents depend on nothing but the tokens they consist of. -/
theorem congr {other : List Kind} (h : Content kinds closer i j) {i' j' : Nat} (shift : i' + j = j' + i)
    (agree : ∀ k k', i ≤ k → k < j → k' + i = k + i' → other[k']? = kinds[k]?) : Content other closer i' j' := by
  induction h generalizing i' j' with
  | done =>
    have : i' = j' := by omega
    subst this
    exact .done _ _
  | plain here ordinary ne rest ih =>
    have inOrder := rest.le
    have first := agree _ i' (Nat.le_refl _) (by omega) (by omega)
    refine .plain (first.trans here) ordinary ne (ih (by omega) ?_)
    intro k k' le lt same
    exact agree k k' (by omega) lt (by omega)
  | @group _ i m j inner opens inside closes rest ihInside ihRest =>
    have inOrder := inside.le
    have restInOrder := rest.le
    obtain ⟨m', atClose⟩ : ∃ m', m' + i = m + i' := ⟨m + i' - i, by omega⟩
    have first := agree i i' (Nat.le_refl i) (by omega) (by omega)
    have last := agree m m' (by omega) (by omega) atClose
    have opens' : Opens other i' inner := by
      rw [Opens, first]
      exact opens
    have inside' : Content other (some inner) (i' + 1) m' := by
      refine ihInside (by omega) ?_
      intro k k' le lt same
      exact agree k k' (by omega) (by omega) (by omega)
    refine .group opens' inside' (last.trans closes) (ihRest (by omega) ?_)
    intro k k' le lt same
    exact agree k k' (by omega) lt (by omega)

end Content

namespace Matched

variable {i j a b k : Nat}

theorem lt (h : Matched kinds i j) : i < j := by
  obtain ⟨_, _, _, content⟩ := h
  exact content.le

theorem lt_length (h : Matched kinds i j) : j < kinds.length := by
  obtain ⟨_, _, closes, _⟩ := h
  exact (List.getElem?_eq_some_iff.mp closes).1

/-- A closing bracket opens nothing. -/
theorem not_opens (h : Matched kinds i j) {wanted : Kind} : ¬ Opens kinds j wanted := by
  obtain ⟨closer, opens, closes, _⟩ := h
  intro opens'
  exact absurd opens.closer_ordinary (opens'.not_ordinary closes)

/-- No bracket is both opening and closing. -/
theorem ne (h : Matched kinds i j) (h' : Matched kinds a b) : i ≠ b := by
  obtain ⟨closer, opens, _, _⟩ := h
  rintro rfl
  exact h'.not_opens opens

theorem closer_unique (h : Matched kinds i j) (h' : Matched kinds i b) : j = b := by
  obtain ⟨closer, opens, closes, content⟩ := h
  obtain ⟨closer', opens', closes', content'⟩ := h'
  cases opens.unique opens'
  exact content.unique rfl opens.closer_ordinary closes content' closes'

/-- A bracket that opens between two matched brackets is closed between them. -/
theorem inner (h : Matched kinds i j) {wanted : Kind} (after : i < k) (before : k < j) (opens : Opens kinds k wanted) :
    ∃ l, l < j ∧ Matched kinds k l := by
  obtain ⟨_, _, _, content⟩ := h
  exact content.matched_of_opens after before opens

/-- Matched pairs do not cross. -/
theorem nested (h : Matched kinds i j) (h' : Matched kinds a b) (after : i < a) (before : a < j) : b < j := by
  obtain ⟨wanted, opens, closes, content⟩ := h'
  obtain ⟨l, lLt, isMatched⟩ := h.inner after before opens
  rwa [closer_unique ⟨wanted, opens, closes, content⟩ isMatched]

theorem opener_unique (h : Matched kinds i j) (h' : Matched kinds a j) : i = a := by
  rcases Nat.lt_trichotomy i a with before | same | after
  · exact absurd (h.nested h' before h'.lt) (Nat.lt_irrefl j)
  · exact same
  · exact absurd (h'.nested h after h.lt) (Nat.lt_irrefl j)

/-- Whether two brackets match is decided by the tokens from the one to the other. -/
theorem congr {other : List Kind} (h : Matched kinds i j) (shift : a + j = b + i)
    (agree : ∀ k k', i ≤ k → k ≤ j → k' + i = k + a → other[k']? = kinds[k]?) : Matched other a b := by
  have inOrder := h.lt
  obtain ⟨closer, opens, closes, content⟩ := h
  have first := agree i a (Nat.le_refl i) (by omega) (by omega)
  have last := agree j b (by omega) (Nat.le_refl j) (by omega)
  refine ⟨closer, ?_, last.trans closes, content.congr (by omega) ?_⟩
  · rw [Opens, first]
    exact opens
  · intro k k' le before same
    exact agree k k' (by omega) (by omega) (by omega)

/-- The matched pairs of a run of tokens are those of all tokens that lie in it. -/
theorem extract_iff {start stop : Nat} :
    Matched (kinds.extract start stop) i j ↔ Matched kinds (start + i) (start + j) ∧ start + j < stop := by
  constructor
  · intro h
    have inRange := lt_of_lt_length_extract h.lt_length
    refine ⟨h.congr (by omega) ?_, inRange⟩
    intro k k' _ le same
    obtain rfl : k' = start + k := by omega
    exact (getElem?_extract (by omega)).symm
  · rintro ⟨h, inRange⟩
    refine h.congr (by omega) ?_
    intro k k' le le' same
    obtain rfl : k = start + k' := by omega
    exact getElem?_extract (by omega)

/-- A pair that lies in a run of tokens is one of the run. -/
theorem extract {start stop : Nat} (h : Matched kinds i j) (le : start ≤ i) (lt : j < stop) :
    Matched (kinds.extract start stop) (i - start) (j - start) := by
  have inOrder := h.lt
  rw [extract_iff, Nat.add_sub_cancel' le, Nat.add_sub_cancel' (by omega)]
  exact ⟨h, lt⟩

end Matched

/-- Tokens in which every opening bracket is closed, and which have no `closer` outside of these groups, fit inside a
group that wants `closer`. -/
private theorem Content.of_covered {closer : Option Kind} {i j : Nat} (le : i ≤ j) (inRange : j ≤ kinds.length)
    (opened : ∀ k wanted, i ≤ k → k < j → Opens kinds k wanted → ∃ l, l < j ∧ Matched kinds k l)
    (covered : ∀ k, i ≤ k → k < j → kinds[k]? = closer → ∃ a b, i ≤ a ∧ a < k ∧ k ≤ b ∧ b < j ∧ Matched kinds a b) :
    Content kinds closer i j := by
  rcases Nat.lt_or_eq_of_le le with before | same
  · have here : kinds[i]? = some kinds[i] := List.getElem?_eq_getElem (by omega)
    cases opening : kinds[i].closingPair? with
    | none =>
      have notOpening : ∀ wanted, ¬ Opens kinds i wanted := fun wanted opens => opens.not_ordinary here opening
      refine .plain here opening ?_ (of_covered before inRange ?_ ?_)
      · intro same
        obtain ⟨a, b, aLe, aLt, _⟩ := covered i (Nat.le_refl i) before (here.trans same.symm)
        omega
      · intro k wanted after lt opens
        exact opened k wanted (by omega) lt opens
      · intro k after lt isCloser
        obtain ⟨a, b, aLe, aLt, kLe, bLt, isMatched⟩ := covered k (by omega) lt isCloser
        refine ⟨a, b, ?_, aLt, kLe, bLt, isMatched⟩
        obtain ⟨wanted, opens, _⟩ := isMatched
        rcases Nat.lt_or_eq_of_le aLe with later | same
        · exact later
        · subst same
          exact absurd opens (notOpening wanted)
    | some inner =>
      have opens : Opens kinds i inner := by rw [Opens, here, Option.bind_some, opening]
      obtain ⟨l, lLt, isMatched⟩ := opened i inner (Nat.le_refl i) before opens
      have inOrder := isMatched.lt
      have rest : Content kinds closer (l + 1) j := by
        refine of_covered lLt inRange ?_ ?_
        · intro k wanted after lt opens
          exact opened k wanted (by omega) lt opens
        · intro k after lt isCloser
          obtain ⟨a, b, aLe, aLt, kLe, bLt, isMatched'⟩ := covered k (by omega) lt isCloser
          refine ⟨a, b, ?_, aLt, kLe, bLt, isMatched'⟩
          -- A pair from before `l` that reaches past it would cross the pair of `i` and `l`.
          rcases Nat.lt_trichotomy a l with inside | atClose | past
          · rcases Nat.lt_or_eq_of_le aLe with later | same
            · have := isMatched.nested isMatched' later inside
              omega
            · subst same
              have := isMatched.closer_unique isMatched'
              omega
          · exact absurd atClose (isMatched'.ne isMatched)
          · exact past
      obtain ⟨closer', opens', closes, inside⟩ := isMatched
      cases opens.unique opens'
      exact .group opens inside closes rest
  · subst same
    exact .done closer i
termination_by j - i

/-- Brackets match just if the tokens between them, linked on their own, leave no opening bracket open and no closing
bracket of the kind in question outside of every pair. -/
theorem matched_iff_between {i j : Nat} :
    Matched kinds i j ↔ i < j ∧ (∃ closer, Opens kinds i closer ∧ kinds[j]? = some closer) ∧
      (∀ k closer, Opens (kinds.extract (i + 1) j) k closer → ∃ l, Matched (kinds.extract (i + 1) j) k l) ∧
      ∀ k, (kinds.extract (i + 1) j)[k]? = kinds[j]? → (∀ l, ¬ Matched (kinds.extract (i + 1) j) l k) →
        ∃ a b, Matched (kinds.extract (i + 1) j) a b ∧ a < k ∧ k < b := by
  constructor
  · intro isMatched
    have inOrder := isMatched.lt
    obtain ⟨closer, opens, closes, content⟩ := isMatched
    refine ⟨inOrder, ⟨closer, opens, closes⟩, ?_, ?_⟩
    · intro k wanted opening
      obtain ⟨kind, here, _⟩ := Option.bind_eq_some_iff.mp opening
      have before := lt_of_lt_length_extract (List.getElem?_eq_some_iff.mp here).1
      rw [Opens, getElem?_extract before] at opening
      obtain ⟨l, lLt, outer⟩ := content.matched_of_opens (by omega) before opening
      have inner := outer.extract (Nat.le_add_right _ k) lLt
      rw [Nat.add_sub_cancel_left] at inner
      exact ⟨l - (i + 1), inner⟩
    · intro k isCloser unmatched
      rw [closes] at isCloser
      have before := lt_of_lt_length_extract (List.getElem?_eq_some_iff.mp isCloser).1
      rw [getElem?_extract before] at isCloser
      obtain ⟨a, b, aLe, aLt, kLe, bLt, pair⟩ :=
        content.covered_of_closer rfl opens.closer_ordinary (by omega) before isCloser
      have here := pair.extract aLe bLt
      refine ⟨_, _, here, by omega, ?_⟩
      rcases Nat.lt_or_eq_of_le kLe with strict | same
      · omega
      · rw [← same, Nat.add_sub_cancel_left] at here
        exact absurd here (unmatched _)
  · rintro ⟨inOrder, ⟨closer, opens, closes⟩, opened, covered⟩
    have inRange := (List.getElem?_eq_some_iff.mp closes).1
    refine ⟨closer, opens, closes, Content.of_covered inOrder (by omega) ?_ ?_⟩
    · intro k wanted after before opening
      have same : i + 1 + (k - (i + 1)) = k := by omega
      have opening' : Opens (kinds.extract (i + 1) j) (k - (i + 1)) wanted := by
        rwa [Opens, getElem?_extract (by omega), same]
      obtain ⟨l, inner⟩ := opened _ wanted opening'
      obtain ⟨outer, lLt⟩ := Matched.extract_iff.mp inner
      rw [same] at outer
      exact ⟨i + 1 + l, lLt, outer⟩
    · intro k after before isCloser
      have same : i + 1 + (k - (i + 1)) = k := by omega
      have isCloser' : (kinds.extract (i + 1) j)[k - (i + 1)]? = kinds[j]? := by
        rw [getElem?_extract (by omega), same, isCloser, closes]
      by_cases isMatched : ∃ l, Matched (kinds.extract (i + 1) j) l (k - (i + 1))
      · obtain ⟨l, inner⟩ := isMatched
        have := inner.lt
        obtain ⟨outer, _⟩ := Matched.extract_iff.mp inner
        rw [same] at outer
        exact ⟨i + 1 + l, k, by omega, by omega, Nat.le_refl k, before, outer⟩
      · obtain ⟨a, b, inner, aLt, kLt⟩ := covered _ isCloser' (fun l here => isMatched ⟨l, here⟩)
        obtain ⟨outer, bLt⟩ := Matched.extract_iff.mp inner
        exact ⟨i + 1 + a, i + 1 + b, by omega, by omega, by omega, bLt, outer⟩

end CssLex.Bracket
