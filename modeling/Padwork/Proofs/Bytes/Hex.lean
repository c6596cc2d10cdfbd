import Padwork.Bytes.Hex

/-!
# Hexadecimal text read back

A text is read as the bytes that it spells: two digits a byte, in any mix of cases, with
the mark or without. Any other text is refused, for its odd length or for the first of its
bytes that is no digit. A character outside ASCII takes several bytes, and already the
first of them is no digit.
-/
namespace Padwork.Hex

variable {text : String} {codes bytes : Bytes} {code : UInt8} {position n : Nat} {c : Char}

/-! ## Digits -/

/-- The code is that of a decimal digit, or of a letter up to F in either case. -/
def IsDigit (code : UInt8) : Prop :=
  (48 ≤ code.toNat ∧ code.toNat ≤ 57) ∨ (65 ≤ code.toNat ∧ code.toNat ≤ 70) ∨
    (97 ≤ code.toNat ∧ code.toNat ≤ 102)

instance (code : UInt8) : Decidable (IsDigit code) := inferInstanceAs (Decidable (_ ∨ _))

theorem value?_eq_none_iff : value? code = none ↔ ¬IsDigit code := by
  have hle (a b : UInt8) : a ≤ b ↔ a.toNat ≤ b.toNat := UInt8.le_iff_toNat_le
  unfold value? IsDigit
  simp only [hle]
  by_cases hdecimal : 48 ≤ code.toNat ∧ code.toNat ≤ 57
  · simp [hdecimal]
  · by_cases hlower : 97 ≤ code.toNat ∧ code.toNat ≤ 102
    · simp [hdecimal, hlower]
    · by_cases hupper : 65 ≤ code.toNat ∧ code.toNat ≤ 70 <;> simp [hdecimal, hlower, hupper]

theorem isDigit_of_value {value : UInt8} (h : value? code = some value) : IsDigit code := by
  by_cases hdigit : IsDigit code
  · exact hdigit
  · rw [value?_eq_none_iff.mpr hdigit] at h
    cases h

/-- The code of an ASCII character has the value of a digit just when the character is this digit,
in either case. -/
theorem value?_eq_some_iff (hc : c.toNat < 128) (hn : n < 16) :
    value? (.ofNat c.toNat) = some (.ofNat n) ↔ c.toLower = n.digitChar := by
  have hall : ∀ m < 128, ∀ n < 16,
      value? (.ofNat m) = some (.ofNat n) ↔ (Char.ofNat m).toLower = n.digitChar := by
    decide +kernel
  have hcode := hall c.toNat hc n hn
  rwa [Char.ofNat_toNat] at hcode

theorem toNat_digitChar_lt (hn : n < 16) : n.digitChar.toNat < 128 := by
  have hall : ∀ n < 16, n.digitChar.toNat < 128 := by decide
  exact hall n hn

/-! ## Characters -/

theorem toNat_lt_of_toLower (hn : n < 16) (h : c.toLower = n.digitChar) : c.toNat < 128 := by
  unfold Char.toLower at h
  split at h
  · next hupper => exact Nat.lt_of_le_of_lt (UInt32.le_iff_toNat_le.mp hupper.2) (by decide)
  · rw [h]
    exact toNat_digitChar_lt hn

theorem utf8EncodeChar_of_lt (h : c.toNat < 128) :
    String.utf8EncodeChar c = [.ofNat c.toNat] := by
  have hle : c.val.toNat ≤ 127 := Nat.le_of_lt_succ h
  rw [String.utf8EncodeChar]
  simp only [if_pos hle]
  rfl

/-- A character outside ASCII starts with a byte that is no digit. -/
theorem exists_utf8EncodeChar (h : 128 ≤ c.toNat) :
    ∃ first rest, String.utf8EncodeChar c = first :: rest ∧ 128 ≤ first.toNat := by
  have hgt : ¬c.val.toNat ≤ 127 := Nat.not_le.mpr h
  rw [String.utf8EncodeChar]
  simp only [if_neg hgt]
  split
  · refine ⟨_, _, rfl, ?_⟩
    simp
    omega
  · split
    · refine ⟨_, _, rfl, ?_⟩
      simp
      omega
    · refine ⟨_, _, rfl, ?_⟩
      simp
      omega

/-! ## Codes and digits -/

def halves (byte : UInt8) : List Nat := [byte.toNat / 16, byte.toNat % 16]

theorem lt_of_mem_halves {byte : UInt8} (h : n ∈ halves byte) : n < 16 := by
  have hlt := byte.toNat_lt
  simp only [halves, List.mem_cons, List.not_mem_nil, or_false] at h
  omega

theorem lt_of_mem_flatMap_halves (h : n ∈ bytes.flatMap halves) : n < 16 := by
  obtain ⟨byte, -, hn⟩ := List.mem_flatMap.mp h
  exact lt_of_mem_halves hn

theorem length_flatMap_halves (bytes : Bytes) :
    (bytes.flatMap halves).length = 2 * bytes.length := by
  induction bytes with
  | nil => rfl
  | cons byte bytes ih =>
    rw [List.flatMap_cons, List.length_append, ih, List.length_cons]
    simp only [halves, List.length_cons, List.length_nil]
    omega

theorem toList_toLower (text : String) : text.toLower.toList = text.toList.map Char.toLower :=
  String.toList_map

theorem toList_encode (bytes : Bytes) :
    (encode bytes).toList = (bytes.flatMap halves).map Nat.digitChar := by
  rw [encode, String.toList_ofList, List.map_flatMap]
  rfl

/-- The values of the codes of a text are those of digits just when the text has these digits, in
any mix of cases. -/
theorem map_value?_iff {cs : List Char} {ns : List Nat} (h : ∀ n ∈ ns, n < 16) :
    (cs.flatMap String.utf8EncodeChar).map value? = ns.map (fun n => some (.ofNat n)) ↔
      cs.map Char.toLower = ns.map Nat.digitChar := by
  induction cs generalizing ns with
  | nil => cases ns <;> simp
  | cons c cs ih =>
    by_cases hc : c.toNat < 128
    · rw [List.flatMap_cons, utf8EncodeChar_of_lt hc]
      cases ns with
      | nil => simp
      | cons n ns =>
        obtain ⟨hn, hns⟩ := List.forall_mem_cons.mp h
        simp [value?_eq_some_iff hc hn, ih hns]
    · obtain ⟨first, rest, hcodes, hfirst⟩ := exists_utf8EncodeChar (Nat.not_lt.mp hc)
      have hnone : value? first = none := by
        rw [value?_eq_none_iff, IsDigit]
        omega
      cases ns with
      | nil => simp [hcodes]
      | cons n ns =>
        have hne : c.toLower ≠ n.digitChar :=
          fun heq => hc (toNat_lt_of_toLower (h n List.mem_cons_self) heq)
        simp [hcodes, hnone, hne]

theorem map_value?_utf8_iff :
    (utf8 text).map value? = (bytes.flatMap halves).map (fun n => some (.ofNat n)) ↔
      text.toLower = encode bytes := by
  rw [← String.toList_inj, toList_encode, toList_toLower]
  exact map_value?_iff fun n hn => lt_of_mem_flatMap_halves hn

/-! ## The mark -/

/-- A text without one leading mark. -/
def unmarked (text : String) : String :=
  match text.toList with
  | '0' :: 'x' :: cs => .ofList cs
  | _ => text

theorem toList_marked (digits : String) :
    ("0x" ++ digits).toList = '0' :: 'x' :: digits.toList := by
  rw [String.toList_append]
  rfl

theorem unmarked_marked (digits : String) : unmarked ("0x" ++ digits) = digits := by
  rw [unmarked, toList_marked]
  exact String.ofList_toList

theorem unmarked_of_ne (h : ∀ digits, text ≠ "0x" ++ digits) : unmarked text = text := by
  unfold unmarked
  split
  · next cs hcs =>
    refine absurd ?_ (h (.ofList cs))
    rw [← String.toList_inj, toList_marked, hcs, String.toList_ofList]
  · rfl

theorem exists_of_flatMap_eq_cons {cs : List Char} (hc : c.toNat < 128)
    (h : cs.flatMap String.utf8EncodeChar = .ofNat c.toNat :: codes) :
    ∃ more, cs = c :: more ∧ more.flatMap String.utf8EncodeChar = codes := by
  cases cs with
  | nil => cases h
  | cons d more =>
    rw [List.flatMap_cons] at h
    by_cases hd : d.toNat < 128
    · rw [utf8EncodeChar_of_lt hd, List.cons_append, List.nil_append, List.cons.injEq] at h
      have hcode := congrArg UInt8.toNat h.1
      rw [UInt8.toNat_ofNat', UInt8.toNat_ofNat'] at hcode
      have heq : d = c := Char.toNat_inj.mp (by omega)
      exact ⟨more, by rw [heq], h.2⟩
    · obtain ⟨first, rest, hcodes, hfirst⟩ := exists_utf8EncodeChar (Nat.not_lt.mp hd)
      rw [hcodes, List.cons_append, List.cons.injEq] at h
      have hcode := congrArg UInt8.toNat h.1
      rw [UInt8.toNat_ofNat'] at hcode
      omega

theorem dropMark_utf8 (text : String) : dropMark (utf8 text) = utf8 (unmarked text) := by
  unfold dropMark
  split
  · next codes hcodes =>
    obtain ⟨cs, hcs, hrest⟩ := exists_of_flatMap_eq_cons (c := '0') (by decide) hcodes
    obtain ⟨digits, rfl, rfl⟩ := exists_of_flatMap_eq_cons (c := 'x') (by decide) hrest
    simp [unmarked, hcs, utf8]
  · next hne =>
    unfold unmarked
    split
    · next cs hcs =>
      have hcodes : utf8 text = 0x30 :: 0x78 :: cs.flatMap String.utf8EncodeChar := by
        rw [utf8, hcs]
        rfl
      exact absurd hcodes (hne _)
    · rfl

/-! ## Pairs of digits -/

theorem value?_lt {value : UInt8} (h : value? code = some value) : value.toNat < 16 := by
  have hall : ∀ m < 256, ∀ value ∈ value? (.ofNat m), value.toNat < 16 := by decide +kernel
  have hcode := hall code.toNat code.toNat_lt value
  rw [UInt8.ofNat_toNat] at hcode
  exact hcode h

theorem eq_byte_iff {high low byte : UInt8} (hhigh : high.toNat < 16) (hlow : low.toNat < 16) :
    16 * high + low = byte ↔ high = .ofNat (byte.toNat / 16) ∧ low = .ofNat (byte.toNat % 16) := by
  have hlt := byte.toNat_lt
  simp only [← UInt8.toNat_inj, UInt8.toNat_add, UInt8.toNat_mul, UInt8.toNat_ofNat',
    UInt8.toNat_ofNat]
  omega

theorem map_cons_eq_ok_iff {byte : UInt8} {read : Except Error Bytes} :
    read.map (byte :: ·) = .ok bytes ↔ ∃ rest, read = .ok rest ∧ byte :: rest = bytes := by
  cases read <;> simp [Except.map]

theorem decodePairs_eq_ok_iff :
    decodePairs position codes = .ok bytes ↔
      codes.map value? = (bytes.flatMap halves).map fun n => some (.ofNat n) := by
  fun_induction decodePairs position codes generalizing bytes with
  | case1 position => cases bytes <;> simp [halves]
  | case2 position code => cases bytes <;> simp [halves]
  | case3 position high low rest hhigh => cases bytes <;> simp [halves, hhigh]
  | case4 position high low rest h hlow hhigh => cases bytes <;> simp [halves, hlow]
  | case5 position high low rest h l hlow hhigh ih =>
    rw [map_cons_eq_ok_iff]
    cases bytes with
    | nil => simp
    | cons byte bytes =>
      have hbyte : 16 * h + l = byte ↔ _ := eq_byte_iff (value?_lt hhigh) (value?_lt hlow)
      simp only [ih, List.cons.injEq, List.map_cons, List.flatMap_cons, halves, hhigh, hlow, hbyte,
        List.cons_append, List.nil_append, Option.some.injEq]
      constructor
      · rintro ⟨tail, htail, hhalves, rfl⟩
        exact ⟨hhalves.1, hhalves.2, htail⟩
      · rintro ⟨hfirst, hsecond, htail⟩
        exact ⟨bytes, htail, ⟨hfirst, hsecond⟩, rfl⟩

/-! ## The first byte that is no digit -/

/-- The byte at the position is no digit, and all bytes before it are. -/
structure IsFirstBad (codes : Bytes) (code : UInt8) (position : Nat) : Prop where
  code_eq : codes[position]? = some code
  not_isDigit : ¬IsDigit code
  isDigit_before : ∀ earlier ∈ codes.take position, IsDigit earlier

theorem exists_isFirstBad (h : ¬∀ code ∈ codes, IsDigit code) :
    ∃ code position, IsFirstBad codes code position := by
  induction codes with
  | nil => exact absurd (by simp) h
  | cons first rest ih =>
    by_cases hfirst : IsDigit first
    · have hrest : ¬∀ code ∈ rest, IsDigit code :=
        fun hall => h (List.forall_mem_cons.mpr ⟨hfirst, hall⟩)
      obtain ⟨code, position, hbad⟩ := ih hrest
      exact ⟨code, position + 1, hbad.code_eq, hbad.not_isDigit,
        List.forall_mem_cons.mpr ⟨hfirst, hbad.isDigit_before⟩⟩
    · exact ⟨first, 0, rfl, hfirst, by simp⟩

theorem IsFirstBad.eq_of_not_isDigit {first : UInt8} {rest : Bytes}
    (h : IsFirstBad (first :: rest) code position) (hfirst : ¬IsDigit first) :
    code = first ∧ position = 0 := by
  cases position with
  | zero => exact ⟨(Option.some.inj h.code_eq).symm, rfl⟩
  | succ position => exact absurd (h.isDigit_before first (by simp)) hfirst

theorem IsFirstBad.exists_of_isDigit {first : UInt8} {rest : Bytes}
    (h : IsFirstBad (first :: rest) code position) (hfirst : IsDigit first) :
    ∃ before, position = before + 1 ∧ IsFirstBad rest code before := by
  cases position with
  | zero => exact absurd (Option.some.inj h.code_eq ▸ hfirst) h.not_isDigit
  | succ before =>
    exact ⟨before, rfl, h.code_eq, h.not_isDigit, (List.forall_mem_cons.mp h.isDigit_before).2⟩

theorem exists_decodePairs (heven : codes.length % 2 = 0) (h : ∀ code ∈ codes, IsDigit code) :
    ∃ bytes, decodePairs position codes = .ok bytes := by
  fun_induction decodePairs position codes with
  | case1 position => exact ⟨[], rfl⟩
  | case2 position code => simp at heven
  | case3 position high low rest hhigh =>
    exact absurd (h high (by simp)) (value?_eq_none_iff.mp hhigh)
  | case4 position high low rest first hlow hhigh =>
    exact absurd (h low (by simp)) (value?_eq_none_iff.mp hlow)
  | case5 position high low rest first second hlow hhigh ih =>
    rw [List.length_cons, List.length_cons] at heven
    obtain ⟨bytes, hbytes⟩ := ih (by omega) fun code hcode => h code (by simp [hcode])
    exact ⟨(16 * first + second) :: bytes, by rw [hbytes]; rfl⟩

/-- Pairs of bytes with one that is no digit are refused for the first such byte. -/
theorem decodePairs_of_isFirstBad (heven : codes.length % 2 = 0) {i : Nat}
    (h : IsFirstBad codes code i) :
    decodePairs position codes = .error (.badDigit code (position + i)) := by
  fun_induction decodePairs position codes generalizing i with
  | case1 position => cases h.code_eq
  | case2 position code => simp at heven
  | case3 position high low rest hhigh =>
    obtain ⟨rfl, rfl⟩ := h.eq_of_not_isDigit (value?_eq_none_iff.mp hhigh)
    rfl
  | case4 position high low rest first hlow hhigh =>
    obtain ⟨i, rfl, hrest⟩ := h.exists_of_isDigit (isDigit_of_value hhigh)
    obtain ⟨rfl, rfl⟩ := hrest.eq_of_not_isDigit (value?_eq_none_iff.mp hlow)
    rfl
  | case5 position high low rest first second hlow hhigh ih =>
    rw [List.length_cons, List.length_cons] at heven
    obtain ⟨i, rfl, hafter⟩ := h.exists_of_isDigit (isDigit_of_value hhigh)
    obtain ⟨i, rfl, hrest⟩ := hafter.exists_of_isDigit (isDigit_of_value hlow)
    rw [ih (by omega) hrest, Nat.add_assoc, Nat.add_comm 2 i]
    rfl

/-! ## Texts -/

/-- The text spells the bytes, two digits a byte in any mix of cases, with the mark or without. -/
def Spells (text : String) (bytes : Bytes) : Prop :=
  text.toLower = encode bytes ∨ ∃ digits, text = "0x" ++ digits ∧ digits.toLower = encode bytes

theorem toLower_encode (bytes : Bytes) : (encode bytes).toLower = encode bytes := by
  have hall : ∀ n < 16, n.digitChar.toLower = n.digitChar := by decide
  rw [← String.toList_inj, toList_toLower, toList_encode, List.map_map]
  exact List.map_congr_left fun n hn => hall n (lt_of_mem_flatMap_halves hn)

theorem toLower_marked_ne (digits : String) : ("0x" ++ digits).toLower ≠ encode bytes := by
  have hall : ∀ n < 16, n.digitChar ≠ 'x' := by decide
  intro h
  have hmem : 'x' ∈ (encode bytes).toList := by
    rw [← h, toList_toLower, toList_marked]
    exact List.mem_cons_of_mem _ List.mem_cons_self
  rw [toList_encode] at hmem
  obtain ⟨n, hn, hx⟩ := List.mem_map.mp hmem
  exact hall n (lt_of_mem_flatMap_halves hn) hx

theorem spells_iff : Spells text bytes ↔ (unmarked text).toLower = encode bytes := by
  by_cases hmark : ∃ digits, text = "0x" ++ digits
  · obtain ⟨digits, rfl⟩ := hmark
    rw [unmarked_marked, Spells, or_iff_right (toLower_marked_ne digits)]
    constructor
    · rintro ⟨same, hsame, h⟩
      rwa [← unmarked_marked digits, hsame, unmarked_marked]
    · intro h
      exact ⟨digits, rfl, h⟩
  · have hne : ∀ digits, text ≠ "0x" ++ digits := fun digits h => hmark ⟨digits, h⟩
    rw [unmarked_of_ne hne, Spells]
    refine or_iff_left ?_
    rintro ⟨digits, h, -⟩
    exact hne digits h

theorem decode_eq_ok_iff : decode text = .ok bytes ↔ Spells text bytes := by
  rw [spells_iff, ← map_value?_utf8_iff, decode, dropMark_utf8]
  by_cases hodd : (utf8 (unmarked text)).length % 2 = 1
  · have hlength (h : (utf8 (unmarked text)).map value? =
        (bytes.flatMap halves).map fun n => some (.ofNat n)) : False := by
      have hlength := congrArg List.length h
      rw [List.length_map, List.length_map, length_flatMap_halves] at hlength
      omega
    simp only [if_pos hodd]
    exact ⟨nofun, fun h => absurd h hlength⟩
  · simp only [if_neg hodd]
    exact decodePairs_eq_ok_iff

theorem decode_encode (bytes : Bytes) : decode (encode bytes) = .ok bytes :=
  decode_eq_ok_iff.mpr (.inl (toLower_encode bytes))

/-- How a text is read. -/
theorem decode_cases (text : String) :
    ((utf8 (unmarked text)).length % 2 = 1 ∧ decode text = .error .oddLength) ∨
      (utf8 (unmarked text)).length % 2 = 0 ∧
        (((∀ code ∈ utf8 (unmarked text), IsDigit code) ∧ ∃ bytes, decode text = .ok bytes) ∨
          ∃ code position, IsFirstBad (utf8 (unmarked text)) code position ∧
            decode text = .error (.badDigit code position)) := by
  rw [decode, dropMark_utf8]
  by_cases hodd : (utf8 (unmarked text)).length % 2 = 1
  · exact .inl ⟨hodd, if_pos hodd⟩
  · have heven : (utf8 (unmarked text)).length % 2 = 0 := by omega
    simp only [if_neg hodd]
    refine .inr ⟨heven, ?_⟩
    by_cases hdigits : ∀ code ∈ utf8 (unmarked text), IsDigit code
    · exact .inl ⟨hdigits, exists_decodePairs heven hdigits⟩
    · obtain ⟨code, position, hbad⟩ := exists_isFirstBad hdigits
      refine .inr ⟨code, position, hbad, ?_⟩
      rw [decodePairs_of_isFirstBad heven hbad, Nat.zero_add]

theorem exists_decode_iff :
    (∃ bytes, decode text = .ok bytes) ↔
      (utf8 (unmarked text)).length % 2 = 0 ∧ ∀ code ∈ utf8 (unmarked text), IsDigit code := by
  rcases decode_cases text with ⟨hodd, h⟩ | ⟨heven, ⟨hdigits, h⟩ | ⟨code, position, hbad, h⟩⟩
  · simp [h, hodd]
  · exact ⟨fun _ => ⟨heven, hdigits⟩, fun _ => h⟩
  · have hcode := List.mem_of_getElem? hbad.code_eq
    simp only [h]
    exact ⟨nofun, fun hall => absurd (hall.2 code hcode) hbad.not_isDigit⟩

theorem decode_eq_oddLength_iff :
    decode text = .error .oddLength ↔ (utf8 (unmarked text)).length % 2 = 1 := by
  rcases decode_cases text with ⟨hodd, h⟩ | ⟨heven, ⟨-, bytes, h⟩ | ⟨code, position, -, h⟩⟩
  · simp [h, hodd]
  · simp [h, heven]
  · simp [h, heven]

theorem decode_eq_badDigit_iff :
    decode text = .error (.badDigit code position) ↔
      (utf8 (unmarked text)).length % 2 = 0 ∧ IsFirstBad (utf8 (unmarked text)) code position := by
  constructor
  · intro h
    rcases decode_cases text with ⟨-, hodd⟩ | ⟨heven, ⟨-, bytes, hok⟩ | ⟨_, _, hbad, herror⟩⟩
    · simp [h] at hodd
    · simp [h] at hok
    · rw [h] at herror
      cases herror
      exact ⟨heven, hbad⟩
  · rintro ⟨heven, hbad⟩
    rw [decode, dropMark_utf8]
    simp only [if_neg (by omega : ¬(utf8 (unmarked text)).length % 2 = 1)]
    rw [decodePairs_of_isFirstBad heven hbad, Nat.zero_add]

end Padwork.Hex
