import CssLex.Proofs.Value.Ahead
import CssLex.Proofs.Value.Consumption
import CssLex.Proofs.Value.Recognition

namespace CssLex

open CssLex.Scan

/-- A literal and a unit of a set, in whatever case. -/
structure Quantity where
  number : Bytes
  unit : Bytes
  units : UnitSet
  literal : Literal.isNumber number = true
  known : units ∈ UnitSet.all
  contained : ∃ name ∈ units.units, (utf8 name).equalIgnoringCase unit = true

namespace Quantity

def text (q : Quantity) : Bytes := q.number ++ q.unit

/-- A number and a unit, of which only the number can be spaced. -/
def components (spaced : Bool) (q : Quantity) : List Component :=
  [Component.ofText q.number spaced, Component.ofText q.unit false]

/-- What is written behind a quantity: others, each behind a separator. -/
def writeAll (others : List (Separator × Quantity)) : Bytes :=
  others.flatMap fun (separator, q) => separator.text ++ q.text

/-- The text of quantities with separators between them. -/
def write (first : Quantity) (others : List (Separator × Quantity)) : Bytes := first.text ++ writeAll others

variable {rest : Bytes}

private theorem contains_unit (q : Quantity) : q.units.contains q.unit = true := List.any_eq_true.mpr q.contained

private theorem isUnit_unit (q : Quantity) : isUnit q.unit = true := UnitSet.isUnit_of_contains q.known q.contains_unit

private theorem unit_ne_nil (q : Quantity) : q.unit ≠ [] := by
  rcases isUnit_iff.mp q.isUnit_unit with percent | ⟨some, -⟩
  · rw [percent]
    exact List.cons_ne_nil _ _
  · exact some

/-- Where a number begins, the components begin with those of its token. -/
private theorem components_numeric {bytes : Bytes} (number : beginsNumber bytes = true) (spaced : Bool) :
    Scan.components spaced bytes =
      Stream.componentsOf (numeric bytes).kind (bytes.take (numeric bytes).length) spaced ++
        Scan.components false (bytes.drop (numeric bytes).length) := by
  cases bytes with
  | nil => cases number
  | cons c rest =>
    have token := next_of_beginsNumber number
    have value : (next (c :: rest)).kind.isTrivia = false := by
      rw [token]
      rcases numeric_kind (c :: rest) with kind | kind | kind <;> rw [kind] <;> rfl
    rw [components_value (List.cons_ne_nil _ _) value, past, token]

/-- A quantity is split into its components again. -/
private theorem components_text (q : Quantity) (stop : beginsNameItem rest = false) (spaced : Bool) :
    Scan.components spaced (q.text ++ rest) = q.components spaced ++ Scan.components false rest := by
  obtain ⟨begun, whole⟩ := Literal.isNumber_iff.mp q.literal
  obtain ⟨length, all⟩ := numeric_unit whole q.isUnit_unit stop
  rw [← text] at length all
  have number : beginsNumber (q.text ++ rest) = true := by
    rw [text, List.append_assoc]
    exact beginsNumber_append begun _
  have split := splitAt_numeric number
  rw [all, List.take_left, length] at split
  rw [components_numeric number, all, List.take_left, List.drop_left, Stream.componentsOf, split]
  simp [text, components, q.unit_ne_nil]

private theorem beginsNameItem_writeAll (others : List (Separator × Quantity)) :
    beginsNameItem (writeAll others) = false := by
  cases others with
  | nil => rfl
  | cons other others =>
    rw [writeAll, List.flatMap_cons, List.append_assoc]
    exact beginsNameItem_separator _ _

private theorem components_writeAll (others : List (Separator × Quantity)) :
    Scan.components false (writeAll others) = (others.map Prod.snd).flatMap (components true) := by
  induction others with
  | nil => exact components_nil false
  | cons other others ih =>
    have split : writeAll (other :: others) = other.1.text ++ (other.2.text ++ writeAll others) := by
      rw [writeAll, List.flatMap_cons, List.append_assoc]
      rfl
    rw [split, components_separator, components_text _ (beginsNameItem_writeAll others), ih, List.map_cons,
      List.flatMap_cons]

private theorem components_write (first : Quantity) (others : List (Separator × Quantity)) :
    Scan.components false (write first others) =
      first.components false ++ (others.map Prod.snd).flatMap (components true) := by
  rw [write, components_text _ (beginsNameItem_writeAll others), components_writeAll]

/-- The step that asks for a quantity. -/
def recognise (q : Quantity) : Action := .recognise (.dimension q.units)

/-- Where its components are next, a quantity is recognised and both of them are taken. -/
theorem run_recognise (q : Quantity) {input : ComponentInput} {spaced : Bool} {behind : List Component}
    (left : input.remaining = q.components spaced ++ behind) :
    q.recognise.run input = (some true, { input with taken := input.taken + 2 }) ∧
      { input with taken := input.taken + 2 : ComponentInput }.remaining = behind := by
  have claim : (Recognizer.dimension q.units).claim? input.remaining[0]? input.remaining[1]? = some 2 := by
    rw [left]
    simp [components, Recognizer.claim?, Recognizer.claimDimension, Component.ofText, q.literal, q.contains_unit]
  refine ⟨?_, ?_⟩
  · rw [recognise, Action.run, Recognizer.run_of_claim claim]
  · rw [ComponentInput.remaining] at left ⊢
    rw [← List.drop_drop, left]
    rfl

private theorem length_components (quantities : List Quantity) :
    (quantities.flatMap (components true)).length = 2 * quantities.length := by
  induction quantities with
  | nil => rfl
  | cons q quantities ih =>
    rw [List.flatMap_cons, List.length_append, ih, List.length_cons, Nat.mul_succ, Nat.add_comm]
    rfl

private theorem runAll_recognise (quantities : List Quantity) {input : ComponentInput}
    (left : input.remaining = quantities.flatMap (components true)) :
    Action.runAll (quantities.map recognise) input =
      (List.replicate quantities.length (some true), { input with taken := input.taken + 2 * quantities.length }) := by
  induction quantities generalizing input with
  | nil => rfl
  | cons q quantities ih =>
    rw [List.flatMap_cons] at left
    obtain ⟨run, behind⟩ := run_recognise q left
    rw [List.map_cons, Action.runAll, run, ih behind, List.length_cons, List.replicate_succ, Nat.mul_succ]
    simp only [Nat.add_assoc, Nat.add_comm 2]

/-- Quantities that are written with separators between them are split into their numbers and units again, and only the
numbers behind a separator are spaced. Asked for in this order, all of them are recognised and nothing is left. -/
theorem recognise_written (first : Quantity) (others : List (Separator × Quantity)) {source : String}
    (written : utf8 source = write first others) :
    let quantities := first :: others.map Prod.snd
    ∃ texts, ValueTexts.ofStream? (Stream.ofString source) = some texts ∧
      texts.values.toList = quantities.flatMap (fun q => [q.number, q.unit]) ∧
      texts.spaced.toList = [false, false] ++ others.flatMap (fun _ => [true, false]) ∧
      texts.components.length = 2 * quantities.length ∧
      Action.runAll (quantities.map recognise) (ComponentInput.ofList texts.components) =
        (List.replicate quantities.length (some true), ⟨texts.components, 2 * quantities.length⟩) := by
  intro quantities
  obtain ⟨texts, cut, holds⟩ := ValueTexts.ofStream?_eq (.ofText (Text.ofString source)) (Stream.source_ofText _)
  have split : (Stream.ofText (Text.ofString source)).components =
      first.components false ++ (others.map Prod.snd).flatMap (components true) := by
    rw [Stream.components_ofText, ← components_write, ← written]
    rfl
  rw [split] at holds
  have left : (ComponentInput.ofList texts.components).remaining = _ := holds.components
  obtain ⟨run, behind⟩ := run_recognise first left
  refine ⟨texts, cut, ?_, ?_, ?_, ?_⟩
  · rw [holds.values, List.map_append, List.map_flatMap]
    rfl
  · rw [holds.spaced, List.map_append, List.map_flatMap, List.flatMap_map]
    rfl
  · rw [holds.components, List.length_append, length_components, List.length_cons, Nat.mul_succ, Nat.add_comm]
    rfl
  · rw [List.map_cons, Action.runAll, run, runAll_recognise _ behind, List.length_cons, List.replicate_succ, Nat.mul_succ,
      Nat.add_comm (2 * _) 2]
    rfl

/-- In `1e3em/* */+.5EX 50%` neither the unit `em` nor the unit `EX` is taken for an exponent. -/
theorem recognise_written_exponents :
    let source := "1e3em/* */+.5EX 50%"
    ∃ (first : Quantity) (others : List (Separator × Quantity)), utf8 source = write first others ∧
      ∃ texts, ValueTexts.ofStream? (Stream.ofString source) = some texts ∧
        texts.values.toList = ["1e3", "em", "+.5", "EX", "50", "%"].map utf8 ∧
        texts.spaced.toList = [false, false, true, false, true, false] ∧
        Action.runAll ((first :: others.map Prod.snd).map recognise) (ComponentInput.ofList texts.components) =
          ([some true, some true, some true], ⟨texts.components, 6⟩) := by
  intro source
  let em : Quantity := ⟨utf8 "1e3", utf8 "em", .length, by decide +kernel, by decide, "em", by decide, by decide⟩
  let ex : Quantity := ⟨utf8 "+.5", utf8 "EX", .length, by decide +kernel, by decide, "ex", by decide, by decide⟩
  let half : Quantity := ⟨utf8 "50", utf8 "%", .percentage, by decide +kernel, by decide, "%", by decide, by decide⟩
  let comment : Separator := ⟨[.comment (utf8 " ") (by decide)], by simp⟩
  let blank : Separator := ⟨[.blank Byte.space (by decide)], by simp⟩
  have written : utf8 source = write em [(comment, ex), (blank, half)] := by decide
  obtain ⟨texts, cut, values, spaced, -, run⟩ := recognise_written em [(comment, ex), (blank, half)] written
  exact ⟨em, [(comment, ex), (blank, half)], written, texts, cut, values, spaced, run⟩

end Quantity
end CssLex
