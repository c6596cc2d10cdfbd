import Padwork.Bytes.Utf8
import Padwork.Text.Decimal
import Padwork.Text.Quoted

/-!
# Hexadecimal text

Two digits a byte, high half first. Writing uses lower case; reading takes either
case and one leading `0x`. Positions in errors count bytes of the text after that
mark.
-/
namespace Padwork.Hex

inductive Error where
  | oddLength
  | badDigit (byte : UInt8) (position : Nat)
deriving DecidableEq

def Error.message : Error → String
  | .oddLength => "Odd number of digits"
  | .badDigit byte position =>
    "Invalid character " ++ Quoted.render byte ++ " at position " ++ Decimal.render position

def digits (byte : UInt8) : List Char :=
  [(byte.toNat / 16).digitChar, (byte.toNat % 16).digitChar]

def encode (bytes : Bytes) : String := String.ofList (bytes.flatMap digits)

/-- The value of a digit, given by its ASCII code. -/
def value? (code : UInt8) : Option UInt8 :=
  if 0x30 ≤ code ∧ code ≤ 0x39 then some (code - 0x30)
  else if 0x61 ≤ code ∧ code ≤ 0x66 then some (code - 0x57)
  else if 0x41 ≤ code ∧ code ≤ 0x46 then some (code - 0x37)
  else none

/-- Reads pairs of digits, the first of which stands at `position`. -/
def decodePairs (position : Nat) : Bytes → Except Error Bytes
  | [] => .ok []
  | [_] => .error .oddLength
  | high :: low :: rest =>
    match value? high, value? low with
    | none, _ => .error (.badDigit high position)
    | some _, none => .error (.badDigit low (position + 1))
    | some h, some l => (decodePairs (position + 2) rest).map ((16 * h + l) :: ·)

def dropMark : Bytes → Bytes
  | 0x30 :: 0x78 :: digits => digits
  | digits => digits

/-- An odd number of digits is reported before any bad digit. -/
def decode (text : String) : Except Error Bytes :=
  let digits := dropMark (utf8 text)
  if digits.length % 2 = 1 then .error .oddLength else decodePairs 0 digits

end Padwork.Hex
