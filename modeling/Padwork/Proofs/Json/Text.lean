import Padwork.Proofs.Json.Grammar

/-!
# Reading a string

A scan reads what may stand between quotes, up to the first quote that is not escaped, and
gives the units it stands for. The sequences of units in which no half of a surrogate pair
stands alone are those of the texts.
-/
namespace Padwork.Json.Units

variable {c : Char} {cs body rest : List Char} {done units : Units} {unit : UInt16}

/-! ## Escapes -/

theorem ofEscape?_eq_some_iff : ofEscape? c = some unit ↔ (c, unit) ∈ escapes := by
  constructor
  · intro h
    unfold ofEscape? at h
    split at h <;> cases h <;> decide
  · intro h
    simp only [escapes, List.mem_cons, Prod.mk.injEq, List.not_mem_nil, or_false] at h
    rcases h with ⟨rfl, rfl⟩ | ⟨rfl, rfl⟩ | ⟨rfl, rfl⟩ | ⟨rfl, rfl⟩ | ⟨rfl, rfl⟩ | ⟨rfl, rfl⟩ |
      ⟨rfl, rfl⟩ | ⟨rfl, rfl⟩ <;> rfl

theorem HexDigit.hexValue? {n : Nat} (h : HexDigit c n) : hexValue? c = some (.ofNat n) := by
  unfold Units.hexValue?
  cases h with
  | digit h => rw [if_pos h]; rfl
  | lower h =>
    have hlt : ¬('0' ≤ c ∧ c ≤ '9') := fun hc => absurd (Char.le_trans h.1 hc.2) (by decide)
    have hle : 97 ≤ c.toNat := h.1
    have hsub : c.toNat - 87 = c.toNat - 97 + 10 := by omega
    rw [if_neg hlt, if_pos h, hsub]
    rfl
  | upper h =>
    have hlt : ¬('0' ≤ c ∧ c ≤ '9') := fun hc => absurd (Char.le_trans h.1 hc.2) (by decide)
    have hgt : ¬('a' ≤ c ∧ c ≤ 'f') := fun hc => absurd (Char.le_trans hc.1 h.2) (by decide)
    have hle : 65 ≤ c.toNat := h.1
    have hsub : c.toNat - 55 = c.toNat - 65 + 10 := by omega
    rw [if_neg hlt, if_neg hgt, if_pos h, hsub]
    rfl

theorem hexValue?_eq_some_iff : hexValue? c = some unit ↔ ∃ n, HexDigit c n ∧ unit = .ofNat n := by
  constructor
  · intro h
    have hdigit : ∃ n, HexDigit c n := by
      unfold hexValue? at h
      split at h
      · next hc => exact ⟨_, .digit hc⟩
      · split at h
        · next hc => exact ⟨_, .lower hc⟩
        · split at h
          · next hc => exact ⟨_, .upper hc⟩
          · cases h
    obtain ⟨n, hn⟩ := hdigit
    rw [hn.hexValue?] at h
    exact ⟨n, hn, (Option.some.inj h).symm⟩
  · rintro ⟨n, hn, rfl⟩
    exact hn.hexValue?

theorem ofHex?_eq_some_iff {a b c d : Char} : ofHex? a b c d = some unit ↔
    ∃ w x y z, HexDigit a w ∧ HexDigit b x ∧ HexDigit c y ∧ HexDigit d z ∧
      unit = .ofNat (((w * 16 + x) * 16 + y) * 16 + z) := by
  simp only [ofHex?, Option.bind_eq_bind, Option.bind_eq_some_iff, hexValue?_eq_some_iff,
    Option.pure_def, Option.some.injEq, UInt16.ofNat_add, UInt16.ofNat_mul]
  constructor
  · rintro ⟨-, ⟨w, hw, rfl⟩, -, ⟨x, hx, rfl⟩, -, ⟨y, hy, rfl⟩, -, ⟨z, hz, rfl⟩, rfl⟩
    exact ⟨w, x, y, z, hw, hx, hy, hz, rfl⟩
  · rintro ⟨w, x, y, z, hw, hx, hy, hz, rfl⟩
    exact ⟨_, ⟨w, hw, rfl⟩, _, ⟨x, hx, rfl⟩, _, ⟨y, hy, rfl⟩, _, ⟨z, hz, rfl⟩, rfl⟩

/-! ## Scanning -/

theorem scan?_plain (h : ' ' ≤ c ∧ c ≠ '"' ∧ c ≠ '\\') :
    scan? done (c :: cs) = scan? ((ofChar c).reverse ++ done) cs := by
  obtain ⟨hspace, hquote, hslash⟩ := h
  rw [scan?, if_neg]
  · rintro (hlt | heq)
    · exact absurd hspace (Char.not_le.mpr hlt)
    · exact hslash heq
  · exact hquote
  · exact fun _ _ _ _ _ heq => absurd heq hslash
  · exact fun _ _ heq => absurd heq hslash

theorem scan?_escape (h : (c, unit) ∈ escapes) :
    scan? done ('\\' :: c :: cs) = scan? (unit :: done) cs := by
  rw [scan?, ofEscape?_eq_some_iff.mpr h]
  rintro - - - - - rfl -
  simp [escapes] at h

/-- A scan reads a spelled string up to the quote behind it. -/
theorem scan?_append (h : units.Spells body) :
    scan? done (body ++ '"' :: rest) = some (done.reverse ++ units, rest) := by
  induction h generalizing done with
  | nil => simp [scan?]
  | plain hc _ ih => simp [scan?_plain hc, ih]
  | escape hc _ ih => simp [scan?_escape hc, ih]
  | hex ha hb hc hd _ ih =>
    have hunit := ofHex?_eq_some_iff.mpr ⟨_, _, _, _, ha, hb, hc, hd, rfl⟩
    simp [scan?, hunit, ih]

/-- What a scan reads is a spelled string and the quote behind it. -/
theorem exists_spells_of_scan? {all : Units} (h : scan? done cs = some (all, rest)) :
    ∃ body units, all = done.reverse ++ units ∧ cs = body ++ '"' :: rest ∧ units.Spells body := by
  fun_induction scan? done cs with
  | case1 => cases h
  | case2 done cs =>
    cases h
    exact ⟨[], [], by simp, rfl, .nil⟩
  | case3 done a b c d cs unit hunit ih =>
    obtain ⟨body, units, rfl, rfl, hspells⟩ := ih h
    obtain ⟨w, x, y, z, ha, hb, hc, hd, rfl⟩ := ofHex?_eq_some_iff.mp hunit
    exact ⟨_, _, by simp, rfl, .hex ha hb hc hd hspells⟩
  | case4 => cases h
  | case5 done c cs _ unit hunit ih =>
    obtain ⟨body, units, rfl, rfl, hspells⟩ := ih h
    exact ⟨_, _, by simp, rfl, .escape (ofEscape?_eq_some_iff.mp hunit) hspells⟩
  | case6 => cases h
  | case7 => cases h
  | case8 done c cs hquote _ _ hc ih =>
    obtain ⟨body, units, rfl, rfl, hspells⟩ := ih h
    rw [not_or, Char.not_lt] at hc
    exact ⟨_, _, by simp, rfl, .plain ⟨hc.1, hquote, hc.2⟩ hspells⟩

/-! ## Units of texts -/

theorem isHigh_iff : isHigh unit = true ↔ 0xD800 ≤ unit.toNat ∧ unit.toNat < 0xDC00 := by
  simp [isHigh, UInt16.le_iff_toNat_le, UInt16.lt_iff_toNat_lt]

theorem isLow_iff : isLow unit = true ↔ 0xDC00 ≤ unit.toNat ∧ unit.toNat < 0xE000 := by
  simp [isLow, UInt16.le_iff_toNat_le, UInt16.lt_iff_toNat_lt]

theorem toNat_ofNat {n : Nat} (h : n < 0x10000) : (UInt16.ofNat n).toNat = n :=
  UInt16.toNat_ofNat_of_lt' h

/-- A character up to U+FFFF is one unit, which is no surrogate. -/
theorem isWellFormed_unit (hhigh : isHigh unit = false) (hlow : isLow unit = false)
    (units : Units) : isWellFormed (unit :: units) = isWellFormed units := by
  rw [isWellFormed.eq_def]
  simp [hhigh, hlow]

theorem isWellFormed_pair {high low : UInt16} (hhigh : isHigh high = true)
    (hlow : isLow low = true) (units : Units) :
    isWellFormed (high :: low :: units) = isWellFormed units := by
  simp [isWellFormed, hhigh, hlow]

theorem isWellFormed_ofChar_append (c : Char) (units : Units) :
    isWellFormed (ofChar c ++ units) = isWellFormed units := by
  have hvalid : c.toNat < 0xD800 ∨ 0xDFFF < c.toNat ∧ c.toNat < 0x110000 := c.valid
  unfold ofChar
  split
  · next hc =>
    apply isWellFormed_unit
    · rw [Bool.eq_false_iff, ne_eq, isHigh_iff, toNat_ofNat hc]
      omega
    · rw [Bool.eq_false_iff, ne_eq, isLow_iff, toNat_ofNat hc]
      omega
  · next hc =>
    apply isWellFormed_pair
    · rw [isHigh_iff, toNat_ofNat (by omega)]
      omega
    · rw [isLow_iff, toNat_ofNat (by omega)]
      omega

theorem toNat_char {n : Nat} (h : n.isValidChar) : (Char.ofNat n).toNat = n := by
  rw [Char.ofNat, dif_pos h]
  rfl

theorem ofChar_unit (hhigh : isHigh unit = false) (hlow : isLow unit = false) :
    ofChar (.ofNat unit.toNat) = [unit] := by
  rw [Bool.eq_false_iff, ne_eq, isHigh_iff] at hhigh
  rw [Bool.eq_false_iff, ne_eq, isLow_iff] at hlow
  have hlt := unit.toNat_lt
  have hvalid : unit.toNat.isValidChar := by
    unfold Nat.isValidChar
    omega
  rw [ofChar, toNat_char hvalid, if_pos hlt, UInt16.ofNat_toNat]

theorem ofChar_pair {high low : UInt16} (hhigh : isHigh high = true) (hlow : isLow low = true) :
    ofChar (.ofNat (0x10000 + (high.toNat - 0xD800) * 0x400 + (low.toNat - 0xDC00))) =
      [high, low] := by
  rw [isHigh_iff] at hhigh
  rw [isLow_iff] at hlow
  generalize hn : 0x10000 + (high.toNat - 0xD800) * 0x400 + (low.toNat - 0xDC00) = n
  have hvalid : n.isValidChar := by
    unfold Nat.isValidChar
    omega
  have hhigh' : 0xD800 + (n - 0x10000) / 0x400 = high.toNat := by omega
  have hlow' : 0xDC00 + (n - 0x10000) % 0x400 = low.toNat := by omega
  rw [ofChar, toNat_char hvalid, if_neg (by omega), hhigh', hlow', UInt16.ofNat_toNat,
    UInt16.ofNat_toNat]

theorem exists_of_isWellFormed (h : isWellFormed units = true) :
    ∃ cs : List Char, units = cs.flatMap ofChar := by
  fun_induction isWellFormed units with
  | case1 => exact ⟨[], rfl⟩
  | case2 => cases h
  | case3 high hhigh low units ih =>
    obtain ⟨hlow, hunits⟩ := Bool.and_eq_true_iff.mp h
    obtain ⟨cs, rfl⟩ := ih hunits
    exact ⟨_ :: cs, by rw [List.flatMap_cons, ofChar_pair hhigh hlow]; rfl⟩
  | case4 unit units hhigh ih =>
    obtain ⟨hlow, hunits⟩ := Bool.and_eq_true_iff.mp h
    obtain ⟨cs, rfl⟩ := ih hunits
    have hunit := ofChar_unit (Bool.eq_false_iff.mpr hhigh) (Bool.not_eq_true' _ ▸ hlow)
    exact ⟨_ :: cs, by rw [List.flatMap_cons, hunit]; rfl⟩

/-- The well-formed sequences are the units of the texts. -/
theorem isWellFormed_iff : isWellFormed units = true ↔ ∃ text, units = ofString text := by
  constructor
  · intro h
    obtain ⟨cs, rfl⟩ := exists_of_isWellFormed h
    exact ⟨.ofList cs, by rw [ofString, String.toList_ofList]⟩
  · rintro ⟨text, rfl⟩
    rw [ofString]
    induction text.toList with
    | nil => rfl
    | cons c cs ih => rw [List.flatMap_cons, isWellFormed_ofChar_append, ih]

end Padwork.Json.Units
