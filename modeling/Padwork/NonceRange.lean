import Padwork.Text.Decimal

/-!
# Ranges of nonces

A range holds the nonces from its start on and below its stop, so the largest word
is never among them. A batch is the front of a range. All arithmetic is on words;
the lemmas give it over the natural numbers, where nothing wraps.
-/
namespace Padwork

def addSaturating (a b : UInt64) : UInt64 :=
  if a.toNat + b.toNat < UInt64.size then a + b else 0xFFFFFFFFFFFFFFFF

theorem toNat_addSaturating (a b : UInt64) :
    (addSaturating a b).toNat = min (a.toNat + b.toNat) (UInt64.size - 1) := by
  unfold addSaturating
  split
  · next h =>
    rw [UInt64.toNat_add, Nat.mod_eq_of_lt h, Nat.min_eq_left (Nat.le_sub_one_of_lt h)]
  · next h =>
    have hle : 2 ^ 64 - 1 ≤ a.toNat + b.toNat :=
      Nat.le_of_lt (Nat.lt_of_lt_of_le (by decide) (Nat.not_lt.mp h))
    exact (Nat.min_eq_right hle).symm

structure NonceRange where
  start : UInt64
  stop : UInt64
deriving DecidableEq

namespace NonceRange

def empty : NonceRange := ⟨0, 0⟩

/-- So many nonces from `start` on, as far as there are words for the stop; without a count, as
many as possible. -/
def ofCount (start : UInt64) : Option UInt64 → NonceRange
  | some count => ⟨start, addSaturating start count⟩
  | none => ⟨start, 0xFFFFFFFFFFFFFFFF⟩

def text (r : NonceRange) : String :=
  Decimal.render r.start.toNat ++ ".." ++ Decimal.render r.stop.toNat

def batch (r : NonceRange) (size : UInt64) : NonceRange :=
  ⟨r.start, if addSaturating r.start size ≤ r.stop then addSaturating r.start size else r.stop⟩

/-- How many nonces a range holds, if it does not end before it starts. -/
def size (r : NonceRange) : UInt64 := r.stop - r.start

@[simp] theorem start_batch (r : NonceRange) (size : UInt64) : (r.batch size).start = r.start := rfl

theorem toNat_stop_batch (r : NonceRange) (size : UInt64) :
    (r.batch size).stop.toNat = min (r.start.toNat + size.toNat) r.stop.toNat := by
  have hs : r.stop.toNat ≤ UInt64.size - 1 := Nat.le_sub_one_of_lt r.stop.toNat_lt_size
  have ha := toNat_addSaturating r.start size
  simp only [batch]
  split
  · next h =>
    rw [UInt64.le_iff_toNat_le] at h
    omega
  · next h =>
    rw [UInt64.le_iff_toNat_le] at h
    omega

theorem start_lt_stop_batch {r : NonceRange} {size : UInt64} (hs : 0 < size)
    (h : r.start < r.stop) : r.start.toNat < (r.batch size).stop.toNat := by
  rw [UInt64.lt_iff_toNat_lt] at hs h
  rw [toNat_stop_batch]
  have : (0 : UInt64).toNat = 0 := rfl
  omega

theorem stop_batch_le (r : NonceRange) (size : UInt64) :
    (r.batch size).stop.toNat ≤ r.stop.toNat := by
  rw [toNat_stop_batch]
  exact Nat.min_le_right ..

end NonceRange

end Padwork
