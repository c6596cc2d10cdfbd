import Padwork.Proofs.CommandLine.Failure

/-!
# Hexadecimal arguments

An argument in hexadecimal is read as the bytes that it spells, and refused for its first
fault if it spells none. So bytes can be hashed in any of their spellings, and those of a
text also as the text itself.
-/
namespace Padwork.CommandLine

variable {argument text content : String}

theorem decodeHex_eq_ok_iff {bytes : Bytes} :
    decodeHex argument text = .ok bytes ↔ Hex.Spells text bytes := by
  rw [← Hex.decode_eq_ok_iff, decodeHex]
  cases Hex.decode text <;> simp [Except.mapError]

theorem decodeHex_eq_error_iff {error : Hex.Error} :
    decodeHex argument text = .error (.hex argument error) ↔ Hex.decode text = .error error := by
  rw [decodeHex]
  cases Hex.decode text <;> simp [Except.mapError]

theorem exists_of_decodeHex_eq_error {failure : Failure}
    (h : decodeHex argument text = .error failure) :
    failure = .hex argument .oddLength ∨
      ∃ code position, failure = .hex argument (.badDigit code position) := by
  rw [decodeHex] at h
  cases hread : Hex.decode text with
  | ok bytes =>
    rw [hread] at h
    cases h
  | error error =>
    rw [hread] at h
    cases h
    cases error with
    | oddLength => exact .inl rfl
    | badDigit code position => exact .inr ⟨code, position, rfl⟩

theorem hash_hex_eq_hash_text (h : Hex.Spells text (utf8 content)) :
    hash (.hex text) = hash (.text content) := by
  rw [hash, hash, Source.bytes, decodeHex_eq_ok_iff.mpr h]
  rfl

/-- An argument is read just when it consists of pairs of hexadecimal digits behind one mark or
none, and then as the bytes whose digits these are in lower case. Otherwise it is refused, for its
odd length or else for the first byte that is no digit. What spells the bytes of a text is hashed as
the text is. -/
theorem hex_argument_read_exactly (argument text : String) :
    ((∃ bytes, decodeHex argument text = .ok bytes) ↔
        (utf8 (Hex.unmarked text)).length % 2 = 0 ∧
          ∀ code ∈ utf8 (Hex.unmarked text), Hex.IsDigit code) ∧
      (∀ bytes, decodeHex argument text = .ok bytes →
        Hex.encode bytes = (Hex.unmarked text).toLower) ∧
      (∀ bytes, decodeHex argument text = .ok bytes ↔ Hex.Spells text bytes) ∧
      (∀ failure, decodeHex argument text = .error failure →
        failure = .hex argument .oddLength ∨
          ∃ code position, failure = .hex argument (.badDigit code position)) ∧
      (decodeHex argument text = .error (.hex argument .oddLength) ↔
        (utf8 (Hex.unmarked text)).length % 2 = 1) ∧
      (∀ code position, decodeHex argument text = .error (.hex argument (.badDigit code position)) ↔
        (utf8 (Hex.unmarked text)).length % 2 = 0 ∧
          Hex.IsFirstBad (utf8 (Hex.unmarked text)) code position) ∧
      ∀ machine files o content hexArguments textArguments, Hex.Spells text (utf8 content) →
        Invocation.ofArguments? hexArguments = some (.run o (.hash (.hex text))) →
          Invocation.ofArguments? textArguments = some (.run o (.hash (.text content))) →
            program machine files hexArguments = program machine files textArguments ∧
              ∀ s, settings machine files o = .ok s → program machine files hexArguments =
                some (.success [.text (Hex.encode (Sha3.hash (utf8 content)).toList)]) := by
  refine ⟨?_, ?_, fun bytes => decodeHex_eq_ok_iff,
    fun failure => exists_of_decodeHex_eq_error, ?_, ?_, ?_⟩
  · simp only [decodeHex_eq_ok_iff, ← Hex.decode_eq_ok_iff]
    exact Hex.exists_decode_iff
  · intro bytes h
    exact (Hex.spells_iff.mp (decodeHex_eq_ok_iff.mp h)).symm
  · rw [decodeHex_eq_error_iff]
    exact Hex.decode_eq_oddLength_iff
  · intro code position
    rw [decodeHex_eq_error_iff]
    exact Hex.decode_eq_badDigit_iff
  · intro machine files o content hexArguments textArguments hspells hhex htext
    have hhash := hash_hex_eq_hash_text hspells
    constructor
    · rw [program, program, hhex, htext]
      simp only [Option.map_some, Invocation.outcome, Command.outcome, hhash]
    · intro s hs
      rw [program_of_settings hhex hs, Command.outcome, hhash]
      rfl

/-- Two letters in mixed cases behind a mark, and a mark behind a mark. -/
theorem hex_argument_read_exactly_samples :
    (Hex.Spells "0x4A6b" (utf8 "Jk") ∧ decodeHex "input" "0x4A6b" = .ok (utf8 "Jk") ∧
      Hex.encode (utf8 "Jk") = (Hex.unmarked "0x4A6b").toLower ∧
      program .single (fun _ => none) (line fewestRounds (.hash (.hex "0x4A6b"))) =
        program .single (fun _ => none) (line fewestRounds (.hash (.text "Jk")))) ∧
      (utf8 (Hex.unmarked "0x0xFF")).length % 2 = 0 ∧
        Hex.IsFirstBad (utf8 (Hex.unmarked "0x0xFF")) 0x78 1 ∧
        decodeHex "input" "0x0xFF" = .error (.hex "input" (.badDigit 0x78 1)) := by
  obtain ⟨-, hencode, hspelled, -, -, -, hhash⟩ := hex_argument_read_exactly "input" "0x4A6b"
  obtain ⟨-, -, -, -, -, hbad, -⟩ := hex_argument_read_exactly "input" "0x0xFF"
  have hspells : Hex.Spells "0x4A6b" (utf8 "Jk") := .inr ⟨"4A6b", by decide +kernel⟩
  have hread := (hspelled _).mpr hspells
  have hhex := ofArguments?_line (o := fewestRounds) nofun (.hash (.hex "0x4A6b"))
  have htext := ofArguments?_line (o := fewestRounds) nofun (.hash (.text "Jk"))
  have heven : (utf8 (Hex.unmarked "0x0xFF")).length % 2 = 0 := by decide +kernel
  have hfirst : Hex.IsFirstBad (utf8 (Hex.unmarked "0x0xFF")) 0x78 1 :=
    ⟨by decide +kernel, by decide, by decide +kernel⟩
  exact ⟨⟨hspells, hread, hencode _ hread, (hhash _ _ _ _ _ _ hspells hhex htext).1⟩, heven, hfirst,
    (hbad _ _).mpr ⟨heven, hfirst⟩⟩

end Padwork.CommandLine
