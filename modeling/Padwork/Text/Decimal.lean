/-!
# Decimal text

Natural numbers in decimal, without leading zeros when written; reading allows
them. `value?_digits` says that reading undoes writing.
-/
namespace Padwork.Decimal

def digits (n : Nat) : List Char :=
  if n < 10 then [n.digitChar] else digits (n / 10) ++ [(n % 10).digitChar]

def render (n : Nat) : String := String.ofList (digits n)

/-- A ratio with two decimal places, rounded to the nearest, a half up. -/
def renderRatio (numerator denominator : Nat) : String :=
  let hundredths := (200 * numerator + denominator) / (2 * denominator)
  render (hundredths / 100) ++
    String.ofList ['.', (hundredths / 10 % 10).digitChar, (hundredths % 10).digitChar]

def digitValue? (c : Char) : Option Nat :=
  if '0' ≤ c ∧ c ≤ '9' then some (c.toNat - 48) else none

def append? (n : Nat) (c : Char) : Option Nat := (digitValue? c).map (10 * n + ·)

/-- The number that a non-empty text of digits stands for. -/
def value? (cs : List Char) : Option Nat := if cs.isEmpty then none else cs.foldlM append? 0

theorem digitValue?_digitChar {n : Nat} (h : n < 10) : digitValue? n.digitChar = some n := by
  match n with
  | 0 | 1 | 2 | 3 | 4 | 5 | 6 | 7 | 8 | 9 => rfl
  | _ + 10 => omega

theorem append?_digitChar (m : Nat) {n : Nat} (h : n < 10) :
    append? m n.digitChar = some (10 * m + n) := by
  rw [append?, digitValue?_digitChar h, Option.map_some]

theorem digits_ne_nil (n : Nat) : digits n ≠ [] := by
  unfold digits
  split <;> simp

theorem foldlM_digits (n : Nat) : (digits n).foldlM append? 0 = some n := by
  induction n using Nat.strongRecOn with
  | ind n ih =>
    rw [digits]
    split
    · next h => simp [append?_digitChar 0 h]
    · next h =>
      have hd : n / 10 < n := by omega
      have hm : n % 10 < 10 := by omega
      rw [List.foldlM_append, ih _ hd]
      simp only [Option.bind_eq_bind, Option.bind_some, List.foldlM_cons, List.foldlM_nil,
        append?_digitChar _ hm, Option.pure_def]
      congr 1
      omega

theorem value?_digits (n : Nat) : value? (digits n) = some n := by
  rw [value?, List.isEmpty_eq_false_iff.mpr (digits_ne_nil n), foldlM_digits]
  rfl

end Padwork.Decimal
