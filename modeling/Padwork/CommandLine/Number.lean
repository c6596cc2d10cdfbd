import Padwork.Text.Decimal

/-!
# Numbers as arguments

Decimal digits with an optional sign and any number of leading zeros. A number
beyond its bound is no number.
-/
namespace Padwork.CommandLine

/-- A natural number up to a bound, with an optional plus sign. -/
def unsigned? (max : Nat) (text : String) : Option Nat :=
  let digits := match text.toList with
    | '+' :: digits => digits
    | digits => digits
  (Decimal.value? digits).bind fun n => if n ≤ max then some n else none

/-- A natural number up to a bound, with an optional sign: zero may be negative. -/
def signed? (max : Nat) (text : String) : Option Nat :=
  match text.toList with
  | '-' :: digits => (Decimal.value? digits).bind fun n => if n = 0 then some 0 else none
  | _ => unsigned? max text

def word? (text : String) : Option UInt64 := (unsigned? (UInt64.size - 1) text).map .ofNat

def count? (text : String) : Option UInt32 := (signed? (UInt32.size - 1) text).map .ofNat

end Padwork.CommandLine
