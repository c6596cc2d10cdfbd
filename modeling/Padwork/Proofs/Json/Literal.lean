import Padwork.Proofs.Json.Number
import Padwork.Text.Decimal

/-!
# Plain natural numbers

The whole numbers of the grammar are the digits of the natural numbers, and a number of the
grammar has a decimal value only if it is one of them: a sign, a point or a power leaves none.
-/
namespace Padwork.Json.Numeral

variable {c : Char} {cs n : Numeral} {k m : Nat}

theorem isDigit_iff_toNat : isDigit c = true ↔ 48 ≤ c.toNat ∧ c.toNat ≤ 57 := by
  rw [isDigit_iff, Char.le_def, Char.le_def, UInt32.le_iff_toNat_le, UInt32.le_iff_toNat_le]
  rfl

theorem isDigit_digitChar {d : Nat} (h : d < 10) : isDigit d.digitChar = true := by
  rw [isDigit_iff_toNat, Nat.toNat_digitChar_of_lt_ten h]
  omega

theorem exists_digitChar (h : isDigit c = true) : ∃ d < 10, c = d.digitChar := by
  rw [isDigit_iff_toNat] at h
  refine ⟨c.toNat - 48, by omega, Char.toNat_inj.mp ?_⟩
  rw [Nat.toNat_digitChar_of_lt_ten (by omega)]
  omega

/-! ## Digits of natural numbers -/

theorem digits_of_lt {d : Nat} (h : d < 10) : Decimal.digits d = [d.digitChar] := by
  rw [Decimal.digits, if_pos h]

theorem digits_append_digit (hm : 0 < m) {d : Nat} (hd : d < 10) :
    Decimal.digits (10 * m + d) = Decimal.digits m ++ [d.digitChar] := by
  have hdiv : (10 * m + d) / 10 = m := by omega
  have hmod : (10 * m + d) % 10 = d := by omega
  rw [Decimal.digits, if_neg (by omega), hdiv, hmod]

/-- Digits behind those of a positive number make a number again. -/
theorem exists_digits_append (hm : 0 < m) (h : Digits cs) :
    ∃ k, Decimal.digits m ++ cs = Decimal.digits k := by
  induction cs generalizing m with
  | nil => exact ⟨m, List.append_nil _⟩
  | cons c cs ih =>
    obtain ⟨hc, hcs⟩ := digits_cons.mp h
    obtain ⟨d, hd, rfl⟩ := exists_digitChar hc
    obtain ⟨k, hk⟩ := ih (m := 10 * m + d) (by omega) hcs
    exact ⟨k, by rw [← hk, digits_append_digit hm hd, List.append_assoc, List.singleton_append]⟩

/-- The digits of a positive number do not begin with a zero. -/
theorem exists_digits_cons (hk : 0 < k) : ∃ c cs, Decimal.digits k = c :: cs ∧
    (isDigit c = true ∧ c ≠ '0') ∧ Digits cs := by
  induction k using Nat.strongRecOn with
  | ind k ih =>
    by_cases h : k < 10
    · have hne : k.digitChar ≠ '0' := by
        intro heq
        have := congrArg Char.toNat heq
        rw [Nat.toNat_digitChar_of_lt_ten h, show '0'.toNat = 48 from rfl] at this
        omega
      exact ⟨_, [], digits_of_lt h, ⟨isDigit_digitChar h, hne⟩, nofun⟩
    · obtain ⟨c, cs, heq, hc, hcs⟩ := ih (k / 10) (by omega) (by omega)
      have hd : k % 10 < 10 := by omega
      refine ⟨c, cs ++ [(k % 10).digitChar], ?_, hc, ?_⟩
      · rw [Decimal.digits, if_neg h, heq, List.cons_append]
      · intro a ha
        rcases List.mem_append.mp ha with ha | ha
        · exact hcs a ha
        · exact List.mem_singleton.mp ha ▸ isDigit_iff.mp (isDigit_digitChar hd)

theorem isWhole_iff_exists_digits : IsWhole n ↔ ∃ k, n = Decimal.digits k := by
  constructor
  · intro h
    cases h with
    | zero => exact ⟨0, by rw [digits_of_lt (by decide)]; rfl⟩
    | digits first rest =>
      obtain ⟨hdigit, hne⟩ := first_iff.mp first
      obtain ⟨d, hd, rfl⟩ := exists_digitChar hdigit
      have hpos : 0 < d := Nat.pos_of_ne_zero fun h => hne (h ▸ rfl)
      obtain ⟨k, hk⟩ := exists_digits_append hpos rest
      exact ⟨k, by rw [← hk, digits_of_lt hd, List.singleton_append]⟩
  · rintro ⟨k, rfl⟩
    by_cases hk : 0 < k
    · obtain ⟨c, cs, heq, hc, hcs⟩ := exists_digits_cons hk
      exact heq ▸ .digits (first_iff.mpr hc) hcs
    · obtain rfl : k = 0 := by omega
      rw [digits_of_lt (by decide)]
      exact .zero

theorem isNumber_digits (k : Nat) : IsNumber (Decimal.digits k) := by
  have h := IsNumber.parts (.inl rfl) (isWhole_iff_exists_digits.mpr ⟨k, rfl⟩) .absent .absent
  simpa using h

/-! ## Numbers with a decimal value -/

theorem digits_of_foldlM (h : cs.foldlM Decimal.append? m = some k) : Digits cs := by
  induction cs generalizing m with
  | nil => nofun
  | cons c cs ih =>
    rw [List.foldlM_cons, Option.bind_eq_bind, Option.bind_eq_some_iff] at h
    obtain ⟨next, hnext, h⟩ := h
    refine digits_cons.mpr ⟨?_, ih h⟩
    obtain ⟨d, hd, -⟩ := Option.map_eq_some_iff.mp hnext
    rw [Decimal.digitValue?] at hd
    split at hd
    · next hc => exact isDigit_iff.mpr hc
    · cases hd

theorem IsNumber.isWhole (h : IsNumber n) (hdigits : Digits n) : IsWhole n := by
  have hnot : ∀ c, isDigit c = false → c ∉ n := by
    intro c hc hmem
    rw [isDigit_iff.mpr (hdigits c hmem)] at hc
    cases hc
  cases h with
  | parts hsign hwhole hfraction hpower =>
    cases hsign with
    | inr hsign => exact absurd (by simp [hsign]) (hnot '-' rfl)
    | inl hsign =>
      cases hfraction with
      | digits => exact absurd (by simp) (hnot '.' rfl)
      | absent =>
        cases hpower with
        | @digits mark _ _ hmark =>
          have hmark : isDigit mark = false := by rcases hmark with rfl | rfl <;> rfl
          exact absurd (by simp) (hnot mark hmark)
        | absent => simpa [hsign] using hwhole

theorem value?_eq_some_iff (h : IsNumber n) : Decimal.value? n = some k ↔ n = Decimal.digits k := by
  constructor
  · intro hvalue
    have hdigits : Digits n := by
      rw [Decimal.value?] at hvalue
      split at hvalue
      · cases hvalue
      · exact digits_of_foldlM hvalue
    obtain ⟨j, rfl⟩ := isWhole_iff_exists_digits.mp (h.isWhole hdigits)
    rw [Decimal.value?_digits] at hvalue
    rw [Option.some.inj hvalue]
  · rintro rfl
    exact Decimal.value?_digits k

end Padwork.Json.Numeral
