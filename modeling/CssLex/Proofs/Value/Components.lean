import CssLex.Proofs.Scan.Kinds
import CssLex.Proofs.Stream.Reachable
import CssLex.Proofs.Stream.Records
import CssLex.Value.Texts

/-!
The components of a stream as a list, with nothing that could be refused: what the texts that are cut out of the source
are compared with. Recognition sees two of them at most. The first of them comes from the first token that is neither
whitespace nor a comment; the second is what was split off that token, or else it is the start of the bytes right behind
it, unless it is spaced (`components_found`).
-/

namespace CssLex.Stream

/-- The components of one token, the first of which is spaced if `spaced`. -/
def componentsOf (kind : Kind) (text : Bytes) (spaced : Bool) : List Component :=
  let tail := text.drop (splitAt kind text)
  Component.ofText (text.take (splitAt kind text)) spaced ::
    if tail.isEmpty then [] else [Component.ofText tail false]

/-- The components of tokens, where `spaced` tells whether whitespace or a comment comes just before them. -/
def componentsFrom (text : Record → Bytes) (spaced : Bool) : List Record → List Component
  | [] => []
  | r :: records =>
    if r.kind.isTrivia then componentsFrom text true records
    else componentsOf r.kind (text r) spaced ++ componentsFrom text false records

/-- The components from the cursor to the end. The cursor does not move, and what is before it does not count. -/
def components (s : Stream) : List Component :=
  componentsFrom s.textOf false (s.records.toList.drop s.index)

variable {text : Record → Bytes} {records : List Record}

theorem componentsFrom_cons {r : Record} (value : r.kind.isTrivia = false) (spaced : Bool) :
    componentsFrom text spaced (r :: records) =
      componentsOf r.kind (text r) spaced ++ componentsFrom text false records := by
  rw [componentsFrom, value, if_neg Bool.false_ne_true]

/-- Whitespace and comments in front are only a mark on the component behind them. -/
private theorem componentsFrom_trivia {trivia : List Record} (all : ∀ r ∈ trivia, r.kind.isTrivia = true)
    (spaced : Bool) (records : List Record) :
    ∃ spaced', componentsFrom text spaced (trivia ++ records) = componentsFrom text spaced' records := by
  induction trivia generalizing spaced with
  | nil => exact ⟨spaced, rfl⟩
  | cons r trivia ih =>
    rw [List.cons_append, componentsFrom, if_pos (all r List.mem_cons_self)]
    exact ih (fun r member => all r (List.mem_cons_of_mem _ member)) true

private theorem componentsFrom_nil {trivia : List Record} (all : ∀ r ∈ trivia, r.kind.isTrivia = true) (spaced : Bool) :
    componentsFrom text spaced trivia = [] := by
  obtain ⟨spaced', same⟩ := componentsFrom_trivia all spaced []
  rwa [List.append_nil] at same

/-- Behind whitespace or a comment the next component is spaced. -/
private theorem spaced_of_mem_head? {c : Component} (first : c ∈ (componentsFrom text true records).head?) :
    c.spaced = true := by
  induction records with
  | nil => cases first
  | cons r records ih =>
    by_cases trivia : r.kind.isTrivia = true
    · rw [componentsFrom, if_pos trivia] at first
      exact ih first
    · rw [Bool.not_eq_true] at trivia
      rw [componentsFrom_cons trivia] at first
      obtain rfl := Option.some.inj first
      rfl

/-- A component that is not spaced comes from the very next record. -/
private theorem prefix_of_unspaced {c : Component} (first : c ∈ (componentsFrom text false records).head?)
    (unspaced : c.spaced = false) : ∃ r more, records = r :: more ∧ c.text <+: text r := by
  cases records with
  | nil => cases first
  | cons r records =>
    by_cases trivia : r.kind.isTrivia = true
    · rw [componentsFrom, if_pos trivia] at first
      rw [spaced_of_mem_head? first] at unspaced
      cases unspaced
    · rw [Bool.not_eq_true] at trivia
      rw [componentsFrom_cons trivia] at first
      obtain rfl := Option.some.inj first
      exact ⟨r, records, rfl, List.take_prefix _ _⟩

/-- The first record from the cursor on that is neither whitespace nor a comment. -/
def firstValue? (s : Stream) : Option Record := (s.records.toList.drop s.index).find? fun r => !r.kind.isTrivia

variable {s : Stream} {r : Record}

theorem components_none (none : s.firstValue? = none) : s.components = [] := by
  apply componentsFrom_nil
  intro r member
  simpa using List.find?_eq_none.mp none r member

/-- What recognition sees if a token of the kind comes first whose text is `text` and which has `behind` right behind
it: the first part of the token, and then the rest of it, or if there is none, what stands behind it without space. -/
structure Shows (components : List Component) (kind : Kind) (text behind : Bytes) : Prop where
  head : ∃ first, components[0]? = some first ∧ first.text = text.take (splitAt kind text)
  tail : text.drop (splitAt kind text) ≠ [] →
    components[1]? = some (Component.ofText (text.drop (splitAt kind text)) false)
  next : text.drop (splitAt kind text) = [] →
    ∀ second ∈ components[1]?, second.spaced = false → second.text <+: behind

private theorem shows_of_cons {kind : Kind} {text behind : Bytes} {spaced : Bool} {components : List Component}
    (next : ∀ second ∈ components.head?, second.spaced = false → second.text <+: behind) :
    Shows (componentsOf kind text spaced ++ components) kind text behind := by
  unfold componentsOf
  dsimp only
  refine ⟨⟨_, rfl, rfl⟩, ?_, ?_⟩
  · intro some
    rw [List.isEmpty_eq_false_iff.mpr some]
    rfl
  · intro none second
    rw [none]
    simpa [List.head?_eq_getElem?] using next second

/-- The first value of a stream is a token, and recognition sees its parts and what stands right behind it. -/
theorem components_found (reachable : s.Reachable) (found : s.firstValue? = some r) :
    ∃ c rest, r.kind = (Scan.next (c :: rest)).kind ∧
      s.textOf r = (c :: rest).take (Scan.next (c :: rest)).length ∧
      Shows s.components r.kind (s.textOf r) (Scan.past (c :: rest)) := by
  obtain ⟨value, trivia, more, split, all⟩ := List.find?_eq_some_iff_append.mp found
  rw [Bool.not_eq_true'] at value
  have records : ∀ k, (Table.ofText s.source).records[s.index + k]? = (trivia ++ r :: more)[k]? := by
    intro k
    rw [← split, List.getElem?_drop, Array.getElem?_toList, Stream.records, reachable.table_eq]
  have here : (Table.ofText s.source).records[s.index + trivia.length]? = some r := by
    rw [records, List.getElem?_append_right (Nat.le_refl _), Nat.sub_self, List.getElem?_cons_zero]
  obtain ⟨c, rest, -, kind, text, behind⟩ := Table.ahead_ofText here
  refine ⟨c, rest, kind, text, ?_⟩
  have skipped : ∀ a ∈ trivia, a.kind.isTrivia = true := fun a member => by simpa using all a member
  obtain ⟨spaced, components⟩ := componentsFrom_trivia skipped false (r :: more)
  rw [Stream.components, split, components, componentsFrom_cons value]
  refine shows_of_cons ?_
  -- a second component that is not spaced comes from the record right behind, whose text starts at `past`
  intro second first unspaced
  obtain ⟨r', more', rfl, inside⟩ := prefix_of_unspaced first unspaced
  have here' : (Table.ofText s.source).records[s.index + trivia.length + 1]? = some r' := by
    rw [Nat.add_assoc, records, List.getElem?_append_right (Nat.le_add_right _ 1), Nat.add_sub_cancel_left]
    rfl
  obtain ⟨c', rest', ahead, -, text', -⟩ := Table.ahead_ofText here'
  rw [← behind, ahead]
  refine inside.trans ?_
  rw [textOf, text']
  exact List.take_prefix _ _

end CssLex.Stream
