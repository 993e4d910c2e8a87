import CssLex.Proofs.Text.Utf8
import CssLex.Stream.Basic

namespace CssLex.Stream

private theorem source_ofText? {t : Text} {s : Stream} (made : ofText? t = .ok s) : s.source = t := by
  rw [ofText?] at made
  split at made
  · cases made
  · obtain rfl := Except.ok.inj made
    exact source_ofText t

variable {bytes : Bytes}

private theorem exists_ofRepaired? (fits : (Utf8.repair bytes).length ≤ Text.sizeLimit) :
    ∃ s, ofRepaired? bytes = .ok s := by
  have size : (Text.ofBytes (Utf8.repair bytes)).size = (Utf8.repair bytes).length := List.size_toArray
  rw [← size] at fits
  exact ⟨ofText (Text.ofBytes (Utf8.repair bytes)), if_neg (Nat.not_lt.mpr fits)⟩

private theorem source_ofRepaired? {s : Stream} (made : ofRepaired? bytes = .ok s) :
    s.source.toBytes = Utf8.repair bytes := by
  rw [source_ofText? made, Text.toBytes_ofBytes]

private theorem ofUtf8?_of_isUtf8 (valid : IsUtf8 bytes) : ofUtf8? bytes = ofRepaired? bytes := by
  rw [ofUtf8?, Utf8.error?, (Utf8.check_eq_none_iff 0 bytes).mpr valid, ofRepaired?, (Utf8.repair_eq_iff bytes).mpr valid]

private theorem ofUtf8?_of_not_isUtf8 (ill : ¬IsUtf8 bytes) :
    ∃ e : Utf8.Error, ofUtf8? bytes = .error (.invalidUtf8 e) ∧ e.Locates bytes := by
  rw [← Utf8.check_eq_none_iff 0] at ill
  obtain ⟨e, found⟩ := Option.ne_none_iff_exists'.mp ill
  exact ⟨e, by rw [ofUtf8?, Utf8.error?, found], Utf8.Error.locates found⟩

/-- The two ways that repair make the same stream: where there is nothing to repair, repair changes nothing. -/
theorem ofBytes?_eq (bytes : Bytes) : ofBytes? bytes = ofRepaired? bytes := by
  rw [ofBytes?]
  cases found : Utf8.error? bytes with
  | none =>
    have valid := (Utf8.check_eq_none_iff 0 bytes).mp found
    rw [ofRepaired?, (Utf8.repair_eq_iff bytes).mpr valid]
  | some e => rfl

/-- The streams of bytes agree. Whether it is asked beforehand if there is something to repair makes no difference. A
stream of bytes that must be UTF-8 is the repaired stream if that has the same bytes. Otherwise the error locates the
first sequence that is ill-formed, and the repaired source has U+FFFD in its place. -/
theorem ofUtf8?_agrees (bytes : Bytes) :
    ofBytes? bytes = ofRepaired? bytes ∧
      ((Utf8.repair bytes).length ≤ Text.sizeLimit → ∃ s, ofRepaired? bytes = .ok s) ∧
      (∀ s, ofRepaired? bytes = .ok s → s.source.toBytes = Utf8.repair bytes) ∧
      (∀ s, ofUtf8? bytes = .ok s ↔ ofRepaired? bytes = .ok s ∧ s.source.toBytes = bytes) ∧
      (Utf8.repair bytes = bytes → ofUtf8? bytes = ofRepaired? bytes) ∧
      (Utf8.repair bytes ≠ bytes → ∃ e : Utf8.Error, ofUtf8? bytes = .error (.invalidUtf8 e) ∧ e.Locates bytes) := by
  refine ⟨ofBytes?_eq bytes, exists_ofRepaired?, fun _ => source_ofRepaired?, ?_, ?_, ?_⟩
  · intro s
    by_cases valid : IsUtf8 bytes
    · rw [ofUtf8?_of_isUtf8 valid, iff_self_and]
      intro made
      rw [source_ofRepaired? made, (Utf8.repair_eq_iff bytes).mpr valid]
    · obtain ⟨e, refused, -⟩ := ofUtf8?_of_not_isUtf8 valid
      rw [refused]
      constructor
      · nofun
      · rintro ⟨made, same⟩
        rw [source_ofRepaired? made, Utf8.repair_eq_iff] at same
        exact absurd same valid
  · intro same
    exact ofUtf8?_of_isUtf8 ((Utf8.repair_eq_iff bytes).mp same)
  · intro changed
    exact ofUtf8?_of_not_isUtf8 (fun valid => changed ((Utf8.repair_eq_iff bytes).mpr valid))

/-- The bytes of `a`, two of the three of `€`, and `b`: the two are a maximal subpart, and one U+FFFD stands for them. -/
theorem ofUtf8?_agrees_broken :
    let bytes : Bytes := [0x61, 0xE2, 0x82, 0x62]
    Utf8.repair bytes ≠ bytes ∧ ∃ e : Utf8.Error, ofUtf8? bytes = .error (.invalidUtf8 e) ∧ e.Locates bytes := by
  intro bytes
  have changed : Utf8.repair bytes ≠ bytes := by decide +kernel
  obtain ⟨-, -, -, -, -, refused⟩ := ofUtf8?_agrees bytes
  exact ⟨changed, refused changed⟩

end CssLex.Stream
