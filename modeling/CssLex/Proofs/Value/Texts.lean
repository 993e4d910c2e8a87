import CssLex.Proofs.Number.Scanned
import CssLex.Proofs.Value.Components
import CssLex.Proofs.Value.Simulation
import Mathlib.Data.List.Forall2

namespace CssLex

/-- The kinds of token that are split in two. -/
def Kind.isSplit : Kind → Bool
  | .dimension | .percentage | .hash => true
  | _ => false

open CssLex.Stream (splitAt)

namespace Scan

variable {c : UInt8} {rest text : Bytes} {kind : Kind}

/-- How the text of a token is cut. -/
structure Parted (kind : Kind) (text : Bytes) : Prop where
  some : 0 < splitAt kind text
  fits : splitAt kind text ≤ text.length
  rest : splitAt kind text < text.length ↔ kind.isSplit = true
  number : kind = .dimension ∨ kind = .percentage → Literal.isNumber (text.take (splitAt kind text)) = true
  sign : kind = .hash → text.take (splitAt kind text) = [Byte.numberSign]

private theorem parted_whole (whole : kind.isSplit = false) (some : text ≠ []) : Parted kind text := by
  have all : splitAt kind text = text.length := by
    cases kind
    case dimension | percentage | hash => cases whole
    all_goals rfl
  refine ⟨?_, Nat.le_of_eq all, ?_, ?_, ?_⟩
  · rw [all]
    exact List.length_pos_iff.mpr some
  · simp [all, whole]
  · rintro (rfl | rfl) <;> cases whole
  · rintro rfl
    cases whole

private theorem parted_number {number tail : Bytes} (isSplit : kind.isSplit = true) (other : kind ≠ .hash)
    (split : splitAt kind (number ++ tail) = number.length) (literal : Literal.isNumber number = true)
    (some : tail ≠ []) : Parted kind (number ++ tail) := by
  have long : 0 < number.length := by
    rw [List.length_pos_iff]
    rintro rfl
    cases literal
  have more := List.length_pos_iff.mpr some
  refine ⟨split ▸ long, ?_, iff_of_true ?_ isSplit, ?_, fun hash => absurd hash other⟩
  · rw [split, List.length_append]
    omega
  · rw [split, List.length_append]
    omega
  · intro _
    rwa [split, List.take_left]

private theorem parted_dimension (kind : (next (c :: rest)).kind = .dimension) :
    Parted .dimension ((c :: rest).take (next (c :: rest)).length) := by
  generalize same : (c :: rest).take (next (c :: rest)).length = text
  obtain ⟨number, front, more, -⟩ := split_of_dimension kind same.symm
  have inside : (text.take (Literal.length text)).length = Literal.length text := by
    rw [List.length_take, Nat.min_eq_left (Nat.le_of_lt more)]
  have literal : Literal.isNumber (text.take (Literal.length text)) = true := by
    rw [front, ← same, List.length_take] at more
    rw [front, ← same, List.take_take, Nat.min_eq_left (by omega)]
    exact Literal.isNumber_take number
  have parted : Parted .dimension (text.take (Literal.length text) ++ text.drop (Literal.length text)) := by
    refine parted_number rfl (by decide) ?_ literal (List.drop_eq_nil_iff.not.mpr (Nat.not_le.mpr more))
    rw [List.take_append_drop, inside]
    rfl
  rwa [List.take_append_drop] at parted

private theorem parted_percentage (kind : (next (c :: rest)).kind = .percentage) :
    Parted .percentage ((c :: rest).take (next (c :: rest)).length) := by
  obtain ⟨number, same, literal⟩ := isNumber_of_percentage kind
  rw [same]
  exact parted_number rfl (by decide) (by simp [splitAt]) literal (by simp)

private theorem parted_hash (kind : (next (c :: rest)).kind = .hash) :
    Parted .hash ((c :: rest).take (next (c :: rest)).length) := by
  have made := made c rest
  simp only [Made, kind] at made
  obtain ⟨rfl, item, token⟩ := made
  have name := nameLength_pos item
  have fits := nameLength_le rest
  rw [token, List.take_succ_cons]
  refine ⟨Nat.one_pos, Nat.succ_le_succ (Nat.zero_le _), iff_of_true ?_ rfl, ?_, fun _ => rfl⟩
  · show 1 < (rest.take (nameLength rest)).length + 1
    rw [List.length_take]
    omega
  · rintro (other | other) <;> cases other

private theorem kind_of_isSplit (isSplit : kind.isSplit = true) :
    kind = .dimension ∨ kind = .percentage ∨ kind = .hash := by
  cases kind <;> simp [Kind.isSplit] at isSplit ⊢

/-- Every token can be cut as its kind asks for. -/
theorem parted_next (c : UInt8) (rest : Bytes) :
    Parted (next (c :: rest)).kind ((c :: rest).take (next (c :: rest)).length) := by
  cases isSplit : (next (c :: rest)).kind.isSplit with
  | false =>
    have long := next_length_pos c rest
    apply parted_whole isSplit
    rw [← List.length_pos_iff, List.length_take, List.length_cons]
    omega
  | true =>
    rcases kind_of_isSplit isSplit with kind | kind | kind <;> rw [kind]
    · exact parted_dimension kind
    · exact parted_percentage kind
    · exact parted_hash kind

/-- What is cut off in front is made of ASCII bytes. -/
private theorem Parted.ascii (parted : Parted kind text) (isSplit : kind.isSplit = true) :
    ∀ b ∈ text.take (splitAt kind text), b < 0x80 := by
  rcases kind_of_isSplit isSplit with dimension | percentage | hash
  · exact Literal.ascii_of_isNumber (parted.number (.inl dimension))
  · exact Literal.ascii_of_isNumber (parted.number (.inr percentage))
  · rw [parted.sign hash, List.forall_mem_singleton]
    decide

end Scan

namespace ValueTexts

variable {bytes text : Bytes} {kind : Kind}

/-- Whole characters can be cut behind ASCII bytes. -/
private theorem isBoundary_take {n m : Nat} (valid : IsUtf8 bytes) (ascii : ∀ b ∈ bytes.take n, b < 0x80) (less : n < m)
    (fits : m ≤ bytes.length) : (Text.ofBytes (bytes.take m)).isBoundary n = true := by
  rw [← List.take_append_drop n bytes] at valid
  have behind := valid.of_append ascii
  obtain ⟨b, more, left⟩ : ∃ b more, bytes.drop n = b :: more := by
    apply List.exists_cons_of_ne_nil
    rw [ne_eq, List.drop_eq_nil_iff]
    omega
  have here : (bytes.take m).toArray[n]? = some b := by
    rw [List.getElem?_toArray, List.getElem?_take_of_lt less, ← Nat.add_zero n, ← List.getElem?_drop, left]
    rfl
  rw [left] at behind
  rw [Text.isBoundary, Text.ofBytes, here]
  simp [behind.not_isContinuation]

end ValueTexts

namespace Stream

variable {s : Stream} {source : String} {k : Nat} {r : Record}

/-- The text of a token can be cut out of the source and, unless it is whitespace or a comment, in two. -/
structure Cuttable (s : Stream) (r : Record) : Prop where
  slice : s.source.slice? r.start r.stop = some (s.textOf r)
  parts : ValueTexts.parts? r.kind (s.textOf r) =
    some ((s.textOf r).take (splitAt r.kind (s.textOf r)), (s.textOf r).drop (splitAt r.kind (s.textOf r)))

/-- The record of a token of a string. -/
theorem Reachable.parted (reachable : s.Reachable) (here : s.records[k]? = some r) :
    Scan.Parted r.kind (s.textOf r) := by
  rw [records, reachable.table_eq] at here
  obtain ⟨c, rest, -, kind, text, -⟩ := Table.ahead_ofText here
  rw [kind, textOf, text]
  exact Scan.parted_next c rest

private theorem Reachable.slice?_textOf (reachable : s.Reachable) (same : s.source = Text.ofString source)
    (here : s.records[k]? = some r) : s.source.slice? r.start r.stop = some (s.textOf r) := by
  have start : s.offset k = r.start := by
    rw [offset, here]
    rfl
  have stop : s.offset (k + 1) = r.stop := by
    rw [records, reachable.table_eq] at here
    obtain ⟨token, -, -, -, stop⟩ := Table.record_ofText here
    rw [reachable.offset_eq, stop]
  have slice := reachable.slice?_offset same (Nat.le_succ k)
  rwa [start, stop] at slice

/-- Where a token is split, one character ends and the next one begins. -/
private theorem Reachable.isBoundary_splitAt (reachable : s.Reachable) (same : s.source = Text.ofString source)
    (here : s.records[k]? = some r) :
    (Text.ofBytes (s.textOf r)).isBoundary (splitAt r.kind (s.textOf r)) = true := by
  have parted := reachable.parted here
  cases isSplit : r.kind.isSplit with
  | false =>
    have all : splitAt r.kind (s.textOf r) = (s.textOf r).length := by
      have rest := parted.rest
      rw [isSplit] at rest
      exact Nat.le_antisymm parted.fits (Nat.not_lt.mp fun less => Bool.false_ne_true (rest.mp less))
    have boundary := Text.isBoundary_size (Text.ofBytes (s.textOf r))
    rwa [← Text.length_toBytes, Text.toBytes_ofBytes, ← all] at boundary
  | true =>
    have ascii := parted.ascii isSplit
    have some := parted.some
    have less := parted.rest.mpr isSplit
    rw [records, reachable.table_eq] at here
    obtain ⟨c, rest, left, -, text, -⟩ := Table.ahead_ofText here
    change s.textOf r = _ at text
    generalize splitAt r.kind (s.textOf r) = n at ascii some less ⊢
    rw [text] at ascii less ⊢
    rw [List.length_take] at less
    rw [List.take_take, Nat.min_eq_left (by omega)] at ascii
    have first : c < 0x80 := by
      apply ascii
      cases n with
      | zero => exact absurd some (Nat.lt_irrefl 0)
      | succ n => exact List.mem_cons_self
    rw [same] at left
    have valid := Token.isUtf8_ahead (u := []) (isUtf8_utf8 source) left first
    exact ValueTexts.isBoundary_take valid ascii (by omega) (Scan.next_length_le _)

/-- No token of a string is refused. -/
theorem Reachable.cuttable (reachable : s.Reachable) (same : s.source = Text.ofString source)
    (here : s.records[k]? = some r) : s.Cuttable r := by
  refine ⟨reachable.slice?_textOf same here, ?_⟩
  have parted := reachable.parted here
  have some : (s.textOf r).isEmpty = false := by
    rw [List.isEmpty_eq_false_iff, ← List.length_pos_iff]
    exact Nat.lt_of_lt_of_le parted.some parted.fits
  rw [ValueTexts.parts?, some, Bool.and_false, if_neg Bool.false_ne_true, ValueTexts.cut?,
    if_pos (reachable.isBoundary_splitAt same here)]

end Stream

namespace ValueTexts

variable {s : Stream} {texts : ValueTexts} {components : List Component} {r : Record}

/-- The texts are those of the components, and so are the marks beside them. -/
structure Holds (texts : ValueTexts) (components : List Component) : Prop where
  size : texts.values.size = texts.spaced.size
  components : texts.components = components

private theorem Holds.push (holds : texts.Holds components) (value : Bytes) (spaced : Bool) :
    (texts.push value spaced).Holds (components ++ [Component.ofText value spaced]) := by
  constructor
  · simp [ValueTexts.push, holds.size]
  · rw [← holds.components, ValueTexts.components, ValueTexts.components, ValueTexts.push, Array.toList_push,
      Array.toList_push, List.zipWith_append (by simpa using holds.size)]
    rfl

theorem Holds.values (holds : texts.Holds components) : texts.values.toList = components.map Component.text := by
  have values := List.map_fst_zip (Nat.le_of_eq holds.size : texts.values.toList.length ≤ texts.spaced.toList.length)
  rw [List.zip, List.map_zipWith] at values
  rw [← holds.components, ValueTexts.components, List.map_zipWith]
  exact values.symm

theorem Holds.spaced (holds : texts.Holds components) : texts.spaced.toList = components.map Component.spaced := by
  have spaced := List.map_snd_zip (Nat.le_of_eq holds.size.symm : texts.spaced.toList.length ≤ texts.values.toList.length)
  rw [List.zip, List.map_zipWith] at spaced
  rw [← holds.components, ValueTexts.components, List.map_zipWith]
  exact spaced.symm

/-- A token adds its components, or if it is whitespace or a comment, the mark of the next one. -/
private theorem add?_eq (cuttable : s.Cuttable r) (holds : texts.Holds components) (spaced : Bool) :
    ∃ texts', add? s.source texts spaced r = some (texts', r.kind.isTrivia) ∧
      texts'.Holds (components ++ if r.kind.isTrivia then [] else Stream.componentsOf r.kind (s.textOf r) spaced) := by
  rw [add?, cuttable.slice]
  cases trivia : r.kind.isTrivia with
  | true =>
    refine ⟨texts, rfl, ?_⟩
    rwa [if_pos rfl, List.append_nil]
  | false =>
    have head := holds.push ((s.textOf r).take (splitAt r.kind (s.textOf r))) spaced
    rw [if_neg Bool.false_ne_true, Stream.componentsOf]
    simp only [Option.bind_eq_bind, Option.bind_some, Bool.false_eq_true, if_false, cuttable.parts]
    refine ⟨_, rfl, ?_⟩
    split
    · exact head
    · have both := head.push ((s.textOf r).drop (splitAt r.kind (s.textOf r))) false
      rwa [List.append_assoc] at both

/-- The texts are those of the components that the tokens have. -/
private theorem addAll?_eq {records : List Record} (cuttable : ∀ r ∈ records, s.Cuttable r)
    (holds : texts.Holds components) (spaced : Bool) :
    ∃ texts', addAll? s.source texts spaced records = some texts' ∧
      texts'.Holds (components ++ Stream.componentsFrom s.textOf spaced records) := by
  induction records generalizing texts components spaced with
  | nil =>
    refine ⟨texts, rfl, ?_⟩
    rwa [Stream.componentsFrom, List.append_nil]
  | cons r records ih =>
    obtain ⟨first, others⟩ := List.forall_mem_cons.mp cuttable
    obtain ⟨texts', added, holds⟩ := add?_eq first holds spaced
    obtain ⟨texts'', all, holds⟩ := ih others holds r.kind.isTrivia
    refine ⟨texts'', ?_, ?_⟩
    · rw [addAll?, added]
      exact all
    · rw [Stream.componentsFrom]
      rw [List.append_assoc] at holds
      cases trivia : r.kind.isTrivia with
      | true => simpa [trivia] using holds
      | false => simpa [trivia] using holds

/-- No text is refused, and the texts are those of the stream's components. -/
theorem ofStream?_eq {source : String} (reachable : s.Reachable) (same : s.source = Text.ofString source) :
    ∃ texts, ofStream? s = some texts ∧ texts.Holds s.components := by
  have cuttable : ∀ r ∈ s.records.toList.drop s.index, s.Cuttable r := by
    intro r member
    obtain ⟨k, here⟩ := List.mem_iff_getElem?.mp (List.mem_of_mem_drop member)
    exact reachable.cuttable same (Array.getElem?_toList.symm.trans here)
  have nothing : empty.Holds [] := ⟨rfl, rfl⟩
  obtain ⟨texts, all, holds⟩ := addAll?_eq cuttable nothing false
  exact ⟨texts, all, holds⟩

end ValueTexts

namespace Stream

variable {s : Stream} {k : Nat} {r : Record} {part : List Component}

/-- The tokens from the cursor on that are neither whitespace nor comments, each with its offset from the cursor. -/
def valuesAhead (s : Stream) : List (Record × Nat) :=
  (s.records.toList.drop s.index).zipIdx.filter fun value => !value.1.kind.isTrivia

/-- The mark of the first component of the token at offset `k`. It is set if the token right before is whitespace or a
comment and not before the cursor, and the stream shows the same mark. -/
structure Marked (s : Stream) (k : Nat) (c : Component) : Prop where
  spaced_iff : c.spaced = true ↔ ∃ j, j + 1 = k ∧ (s.kindAhead j).isTrivia = true
  peeked : (s.component? k).map Component.spaced = some c.spaced

/-- The components of the token at an offset: one, or two if tokens of its kind are split. -/
inductive Contributes (s : Stream) : Record × Nat → List Component → Prop where
  | whole {r : Record} {k : Nat} {c : Component} (kind : r.kind.isSplit = false) (text : c.text = s.textOf r)
      (some : c.text ≠ []) (marked : s.Marked k c) : Contributes s (r, k) [c]
  | split {r : Record} {k : Nat} {head tail : Component} (kind : r.kind.isSplit = true)
      (text : head.text ++ tail.text = s.textOf r) (some : head.text ≠ []) (rest : tail.text ≠ [])
      (number : r.kind = .dimension ∨ r.kind = .percentage → Literal.isNumber head.text = true)
      (sign : r.kind = .hash → head.text = [Byte.numberSign]) (marked : s.Marked k head)
      (unspaced : tail.spaced = false) : Contributes s (r, k) [head, tail]

namespace Contributes

variable {value : Record × Nat}

private theorem length_eq (contributes : s.Contributes value part) :
    part.length = (if value.1.kind.isSplit then 1 else 0) + 1 := by
  cases contributes with
  | whole kind => simp [kind]
  | split kind => simp [kind]

private theorem text_eq (contributes : s.Contributes value part) :
    (part.map Component.text).flatten = s.textOf value.1 := by
  cases contributes with
  | whole _ text => simpa using text
  | split _ text => simpa using text

private theorem text_ne_nil (contributes : s.Contributes value part) : ∀ c ∈ part, c.text ≠ [] := by
  cases contributes with
  | whole _ _ some => simpa using some
  | split _ _ some rest => simpa using ⟨some, rest⟩

end Contributes

private theorem Marked.intro {c : Component} (here : s.peek? k = some r)
    (spaced_iff : c.spaced = true ↔ ∃ j, j + 1 = k ∧ (s.kindAhead j).isTrivia = true) : s.Marked k c := by
  refine ⟨spaced_iff, ?_⟩
  rw [component?, here, Option.map_some, Option.map_some, Option.some.injEq, Bool.eq_iff_iff, spaced_iff]
  cases k with
  | zero => simp [Component.ofText]
  | succ k => simp [Component.ofText]

private theorem contributes_componentsOf (reachable : s.Reachable) (here : s.peek? k = some r) {spaced : Bool}
    (spaced_iff : spaced = true ↔ ∃ j, j + 1 = k ∧ (s.kindAhead j).isTrivia = true) :
    s.Contributes (r, k) (componentsOf r.kind (s.textOf r) spaced) := by
  have parted := reachable.parted here
  have some : (s.textOf r).take (splitAt r.kind (s.textOf r)) ≠ [] := by
    have := parted.some
    have := parted.fits
    rw [← List.length_pos_iff, List.length_take]
    omega
  unfold componentsOf
  dsimp only
  cases isSplit : r.kind.isSplit with
  | false =>
    have all : (s.textOf r).length ≤ splitAt r.kind (s.textOf r) := by
      rw [← Nat.not_lt, parted.rest, isSplit]
      exact Bool.false_ne_true
    rw [List.drop_of_length_le all, List.isEmpty_nil, if_pos rfl]
    exact .whole isSplit (List.take_of_length_le all) some (.intro here spaced_iff)
  | true =>
    have rest : (s.textOf r).drop (splitAt r.kind (s.textOf r)) ≠ [] := by
      rw [ne_eq, List.drop_eq_nil_iff, Nat.not_le, parted.rest]
      exact isSplit
    rw [List.isEmpty_eq_false_iff.mpr rest, if_neg Bool.false_ne_true]
    exact .split isSplit (List.take_append_drop _ _) some rest parted.number parted.sign (.intro here spaced_iff) rfl

/-- Each token from an offset on has its components, in order. -/
theorem contributes_componentsFrom (reachable : s.Reachable) {records : List Record}
    (left : s.records.toList.drop (s.index + k) = records) {spaced : Bool}
    (spaced_iff : spaced = true ↔ ∃ j, j + 1 = k ∧ (s.kindAhead j).isTrivia = true) :
    ∃ parts, componentsFrom s.textOf spaced records = parts.flatten ∧
      List.Forall₂ s.Contributes ((records.zipIdx k).filter fun value => !value.1.kind.isTrivia) parts := by
  induction records generalizing k spaced with
  | nil => exact ⟨[], rfl, .nil⟩
  | cons r records ih =>
    have here : s.peek? k = some r := by
      change s.records[s.index + k]? = some r
      rw [← Array.getElem?_toList, ← Nat.add_zero (s.index + k), ← List.getElem?_drop, left]
      rfl
    have after : s.records.toList.drop (s.index + (k + 1)) = records := by
      rw [← Nat.add_assoc, ← List.drop_drop, left]
      rfl
    have next : r.kind.isTrivia = true ↔ ∃ j, j + 1 = k + 1 ∧ (s.kindAhead j).isTrivia = true := by
      simp [kindAhead, here]
    obtain ⟨parts, components, contributes⟩ := ih after next
    rw [List.zipIdx_cons, componentsFrom]
    cases trivia : r.kind.isTrivia with
    | true =>
      rw [trivia] at components
      rw [if_pos rfl, List.filter_cons_of_neg (by simp [trivia])]
      exact ⟨parts, components, contributes⟩
    | false =>
      rw [trivia] at components
      rw [if_neg Bool.false_ne_true, List.filter_cons_of_pos (by simp [trivia]), components]
      exact ⟨_ :: parts, rfl, .cons (contributes_componentsOf reachable here spaced_iff) contributes⟩

variable {values : List (Record × Nat)} {parts : List (List Component)}

private theorem length_parts (contributes : List.Forall₂ s.Contributes values parts) :
    parts.flatten.length = values.length + values.countP fun value => value.1.kind.isSplit := by
  induction contributes with
  | nil => rfl
  | cons first others ih =>
    rw [List.flatten_cons, List.length_append, ih, first.length_eq, List.length_cons, List.countP_cons]
    omega

private theorem text_parts (contributes : List.Forall₂ s.Contributes values parts) :
    (parts.flatten.map Component.text).flatten = (values.map fun value => s.textOf value.1).flatten := by
  induction contributes with
  | nil => rfl
  | cons first others ih =>
    rw [List.flatten_cons, List.map_append, List.flatten_append, first.text_eq, ih, List.map_cons, List.flatten_cons]

private theorem text_ne_nil_parts (contributes : List.Forall₂ s.Contributes values parts) :
    ∀ c ∈ parts.flatten, c.text ≠ [] := by
  induction contributes with
  | nil => simp
  | cons first others ih =>
    intro c member
    rw [List.flatten_cons, List.mem_append] at member
    exact member.elim (first.text_ne_nil c) (ih c)

end Stream

namespace ValueTexts

/-- From each place of the cursor in a string the texts are found, and put together they are the texts of the tokens
ahead but for whitespace and comments. Each of these tokens has one text or two, none is empty, and the first is marked
as the stream shows it. -/
theorem ofStream?_contributes {s : Stream} {source : String} (reachable : s.Reachable)
    (same : s.source = Text.ofString source) :
    ∃ texts parts, ofStream? s = some texts ∧ texts.values.size = texts.spaced.size ∧
      texts.values.size = s.valuesAhead.length + s.valuesAhead.countP (fun value => value.1.kind.isSplit) ∧
      texts.values.toList.flatten = (s.valuesAhead.map fun value => s.textOf value.1).flatten ∧
      (∀ value ∈ texts.values, value ≠ []) ∧ texts.components = parts.flatten ∧
      List.Forall₂ s.Contributes s.valuesAhead parts := by
  obtain ⟨texts, found, holds⟩ := ofStream?_eq reachable same
  have start : s.records.toList.drop (s.index + 0) = s.records.toList.drop s.index := rfl
  have unspaced : false = true ↔ ∃ j, j + 1 = 0 ∧ (s.kindAhead j).isTrivia = true := by simp
  obtain ⟨parts, components, contributes⟩ := Stream.contributes_componentsFrom reachable start unspaced
  change s.components = parts.flatten at components
  rw [components] at holds
  refine ⟨texts, parts, found, holds.size, ?_, ?_, ?_, holds.components, contributes⟩
  · rw [← Array.length_toList, holds.values, List.length_map, Stream.length_parts contributes]
    rfl
  · rw [holds.values, Stream.text_parts contributes]
    rfl
  · intro value member
    rw [← Array.mem_toList_iff, holds.values] at member
    obtain ⟨c, inside, rfl⟩ := List.mem_map.mp member
    exact Stream.text_ne_nil_parts contributes c inside

/-- The whitespace before the cursor is no mark on the dimension, and the comment behind that is one on the hash, but not
on what is split off. -/
theorem ofStream?_contributes_cursor :
    let s := (Stream.ofString " 5e1px/**/#fé").next
    s.Reachable ∧ s.source = Text.ofString " 5e1px/**/#fé" ∧
      ∃ texts parts, ofStream? s = some texts ∧ texts.components = parts.flatten ∧
        List.Forall₂ s.Contributes s.valuesAhead parts ∧
        texts = ⟨#[utf8 "5e1", utf8 "px", utf8 "#", utf8 "fé"], #[false, false, true, false]⟩ := by
  intro s
  have reachable : s.Reachable := (Stream.Reachable.ofText _).next
  have same : s.source = Text.ofString " 5e1px/**/#fé" := by
    rw [Stream.next_source, Stream.ofString, Stream.source_ofText]
  obtain ⟨texts, parts, found, -, -, -, -, components, contributes⟩ := ofStream?_contributes reachable same
  have all : ofStream? s = some ⟨#[utf8 "5e1", utf8 "px", utf8 "#", utf8 "fé"], #[false, false, true, false]⟩ := by
    decide +kernel
  exact ⟨reachable, same, texts, parts, found, components, contributes, Option.some.inj (found.symm.trans all)⟩

end ValueTexts
end CssLex
