import CssLex.Proofs.Value.Components

namespace CssLex

namespace Scan

variable {c : UInt8} {bytes body : Bytes}

/-- The components of a text, where `spaced` tells whether whitespace or a comment comes just before it. -/
def components (spaced : Bool) : Bytes → List Component
  | [] => []
  | c :: rest =>
    let token := next (c :: rest)
    if token.kind.isTrivia then components true ((c :: rest).drop token.length)
    else Stream.componentsOf token.kind ((c :: rest).take token.length) spaced ++
      components false ((c :: rest).drop token.length)
termination_by bytes => bytes.length
decreasing_by
  all_goals
    have := next_length_pos c rest
    simp only [List.length_drop, List.length_cons]
    omega

theorem components_nil (spaced : Bool) : components spaced [] = [] := by
  rw [components]

private theorem components_trivia (some : bytes ≠ []) (trivia : (next bytes).kind.isTrivia = true) (spaced : Bool) :
    components spaced bytes = components true (past bytes) := by
  cases bytes with
  | nil => exact absurd rfl some
  | cons c rest => rw [components, if_pos trivia, past]

theorem components_value (some : bytes ≠ []) (value : (next bytes).kind.isTrivia = false) (spaced : Bool) :
    components spaced bytes =
      Stream.componentsOf (next bytes).kind (bytes.take (next bytes).length) spaced ++ components false (past bytes) := by
  cases bytes with
  | nil => exact absurd rfl some
  | cons c rest => rw [components, value, if_neg Bool.false_ne_true, past]

private theorem components_whitespace (blank : Byte.isWhitespace c = true) (bytes : Bytes) (spaced : Bool) :
    components spaced (c :: bytes) = components true bytes := by
  have first {d : UInt8} (blank : Byte.isWhitespace d = true) (rest : Bytes) (spaced : Bool) :
      components spaced (d :: rest) = components true (rest.drop (whitespaceLength rest)) := by
    have token := next_whitespace rest blank
    rw [components_trivia (by simp) (by rw [token]; rfl), past, token]
    rfl
  rw [first blank]
  cases bytes with
  | nil => rfl
  | cons d rest =>
    by_cases more : Byte.isWhitespace d = true
    -- the same whitespace goes on behind the first byte
    · rw [whitespaceLength_cons more, List.drop_succ_cons, first more]
    · have none : whitespaceLength (d :: rest) = 0 := by simp [whitespaceLength, runLength, more]
      rw [none, List.drop_zero]

/-- A comment goes up to its first end mark. -/
private theorem commentRest_closed (closed : ¬utf8 "*/" <:+: body) (bytes : Bytes) :
    commentRest (body ++ utf8 "*/" ++ bytes) = body.length + 2 := by
  induction body with
  | nil => rfl
  | cons c rest ih =>
    have later : ¬utf8 "*/" <:+: rest := fun mark => closed (List.infix_cons mark)
    have notHere : ¬(c == Byte.asterisk && begins (· == Byte.solidus) (rest ++ utf8 "*/" ++ bytes)) = true := by
      intro mark
      rw [Bool.and_eq_true, beq_iff_eq] at mark
      obtain ⟨rfl, solidus⟩ := mark
      cases rest with
      | nil => cases solidus
      | cons d more =>
        obtain rfl : d = Byte.solidus := beq_iff_eq.mp solidus
        exact closed ⟨[], more, rfl⟩
    rw [List.cons_append, List.cons_append, commentRest, if_neg notHere, ih later, List.length_cons,
      Nat.add_right_comm]

private theorem components_comment (closed : ¬utf8 "*/" <:+: body) (bytes : Bytes) (spaced : Bool) :
    components spaced (utf8 "/*" ++ body ++ utf8 "*/" ++ bytes) = components true bytes := by
  have token : next (Byte.solidus :: Byte.asterisk :: (body ++ utf8 "*/" ++ bytes)) =
      ⟨.comment, (body ++ utf8 "*/").length + 2⟩ := by
    have opening : begins (· == Byte.asterisk) (Byte.asterisk :: (body ++ utf8 "*/" ++ bytes)) = true := rfl
    rw [next_solidus, if_pos opening, List.drop_succ_cons, List.drop_zero, commentRest_closed closed, List.length_append]
    rfl
  have mark : utf8 "/*" = [Byte.solidus, Byte.asterisk] := by decide
  rw [mark, List.append_assoc, List.append_assoc, List.cons_append, List.cons_append, List.nil_append,
    ← List.append_assoc, components_trivia (by simp) (by rw [token]; rfl), past, token]
  dsimp only
  rw [List.drop_succ_cons, List.drop_succ_cons, List.drop_left]

/-- One byte of whitespace or one comment that is closed. -/
inductive Gap where
  | blank (byte : UInt8) (white : Byte.isWhitespace byte = true)
  | comment (body : Bytes) (closed : ¬utf8 "*/" <:+: body)

def Gap.text : Gap → Bytes
  | blank byte _ => [byte]
  | comment body _ => utf8 "/*" ++ body ++ utf8 "*/"

/-- Whitespace and comments in any order, at least one of them. -/
structure Separator where
  gaps : List Gap
  some : gaps ≠ []

def Separator.text (s : Separator) : Bytes := s.gaps.flatMap Gap.text

private theorem components_gap (gap : Gap) (bytes : Bytes) (spaced : Bool) :
    components spaced (gap.text ++ bytes) = components true bytes := by
  cases gap with
  | blank byte white => exact components_whitespace white bytes spaced
  | comment body closed => exact components_comment closed bytes spaced

/-- A separator is a mark on the component behind it. -/
theorem components_separator (separator : Separator) (bytes : Bytes) (spaced : Bool) :
    components spaced (separator.text ++ bytes) = components true bytes := by
  obtain ⟨gaps, some⟩ := separator
  have marked (gaps : List Gap) : components true (gaps.flatMap Gap.text ++ bytes) = components true bytes := by
    induction gaps with
    | nil => rfl
    | cons gap gaps ih => rw [List.flatMap_cons, List.append_assoc, components_gap, ih]
  cases gaps with
  | nil => exact absurd rfl some
  | cons gap gaps => rw [Separator.text, List.flatMap_cons, List.append_assoc, components_gap, marked]

/-- No name goes on with a separator. -/
theorem beginsNameItem_separator (separator : Separator) (bytes : Bytes) :
    beginsNameItem (separator.text ++ bytes) = false := by
  obtain ⟨gaps, some⟩ := separator
  cases gaps with
  | nil => exact absurd rfl some
  | cons gap gaps =>
    cases gap with
    | blank byte white =>
      obtain ⟨name, -, escape⟩ := Byte.not_of_isWhitespace white
      simp [Separator.text, Gap.text, beginsNameItem, begins, beginsEscape, name, escape]
    | comment body closed => rfl

end Scan

namespace Stream

variable {t : Text} {records : List Record}

/-- The components of the records from index `k` on are those of the bytes from there on. -/
private theorem componentsFrom_drop {k : Nat} (left : (Table.ofText t).records.toList.drop k = records)
    (spaced : Bool) :
    componentsFrom (fun r => t.slice r.start r.stop) spaced records =
      Scan.components spaced (Token.ahead (Scan.tokens t.toBytes) t.toBytes k) := by
  induction records generalizing k spaced with
  | nil =>
    have past := List.drop_eq_nil_iff.mp left
    rw [Array.length_toList] at past
    have all : (Scan.tokens t.toBytes).length ≤ k := (Table.size_ofText t).symm.trans_le past
    rw [Token.ahead, List.take_of_length_le all, Scan.total_tokens, List.drop_length, Scan.components_nil, componentsFrom]
  | cons r records ih =>
    have here : (Table.ofText t).records[k]? = some r := by
      rw [← Array.getElem?_toList, ← Nat.add_zero k, ← List.getElem?_drop, left]
      rfl
    have after : (Table.ofText t).records.toList.drop (k + 1) = records := by
      rw [← List.drop_drop, left]
      rfl
    obtain ⟨c, rest, ahead, kind, text, behind⟩ := Table.ahead_ofText here
    rw [ahead]
    cases trivia : r.kind.isTrivia with
    | true =>
      rw [componentsFrom, if_pos trivia, ih after, behind]
      rw [kind] at trivia
      exact (Scan.components_trivia (by simp) trivia spaced).symm
    | false =>
      rw [componentsFrom_cons trivia, ih after, behind, text, kind]
      rw [kind] at trivia
      exact (Scan.components_value (by simp) trivia spaced).symm

/-- Components come from the bytes ahead. -/
theorem components_eq {s : Stream} (reachable : s.Reachable) :
    s.components =
      Scan.components false (Token.ahead (Scan.tokens s.source.toBytes) s.source.toBytes s.index) := by
  rw [components, Stream.records, reachable.table_eq]
  exact componentsFrom_drop rfl false

theorem components_ofText (t : Text) : (ofText t).components = Scan.components false t.toBytes := by
  rw [components_eq (.ofText t), source_ofText, index_ofText]
  rfl

end Stream
end CssLex
