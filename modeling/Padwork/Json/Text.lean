/-!
# Text inside JSON

A JSON string is a sequence of UTF-16 code units: an escape can name any unit,
also half of a surrogate pair. `isWellFormed` says which sequences are the units
of a text.
-/
namespace Padwork.Json

abbrev Units := List UInt16

namespace Units

/-- The units of one character: itself, or a surrogate pair. -/
def ofChar (c : Char) : Units :=
  if c.toNat < 0x10000 then [.ofNat c.toNat]
  else
    [.ofNat (0xD800 + (c.toNat - 0x10000) / 0x400), .ofNat (0xDC00 + (c.toNat - 0x10000) % 0x400)]

def ofString (s : String) : Units := s.toList.flatMap ofChar

def isHigh (u : UInt16) : Bool := 0xD800 ≤ u && u < 0xDC00

def isLow (u : UInt16) : Bool := 0xDC00 ≤ u && u < 0xE000

/-- Whether every high surrogate is followed by a low one, and every low one follows a high one. -/
def isWellFormed : Units → Bool
  | [] => true
  | u :: rest =>
    if isHigh u then
      match rest with
      | [] => false
      | v :: rest => isLow v && isWellFormed rest
    else !isLow u && isWellFormed rest

def ofEscape? : Char → Option UInt16
  | '"' => some 0x22
  | '\\' => some 0x5C
  | '/' => some 0x2F
  | 'b' => some 0x08
  | 'f' => some 0x0C
  | 'n' => some 0x0A
  | 'r' => some 0x0D
  | 't' => some 0x09
  | _ => none

def hexValue? (c : Char) : Option UInt16 :=
  if '0' ≤ c ∧ c ≤ '9' then some (.ofNat (c.toNat - 48))
  else if 'a' ≤ c ∧ c ≤ 'f' then some (.ofNat (c.toNat - 87))
  else if 'A' ≤ c ∧ c ≤ 'F' then some (.ofNat (c.toNat - 55))
  else none

def ofHex? (a b c d : Char) : Option UInt16 := do
  let a ← hexValue? a
  let b ← hexValue? b
  let c ← hexValue? c
  let d ← hexValue? d
  return ((a * 16 + b) * 16 + c) * 16 + d

/-- Reads a string up to its closing quote, behind units already read, which are in reverse. Gives
all units and the text after the quote. -/
def scan? (done : Units) : List Char → Option (Units × List Char)
  | [] => none
  | '"' :: rest => some (done.reverse, rest)
  | '\\' :: 'u' :: a :: b :: c :: d :: rest =>
    match ofHex? a b c d with
    | some unit => scan? (unit :: done) rest
    | none => none
  | '\\' :: c :: rest =>
    match ofEscape? c with
    | some unit => scan? (unit :: done) rest
    | none => none
  | c :: rest => if c < ' ' ∨ c = '\\' then none else scan? ((ofChar c).reverse ++ done) rest

theorem length_scan?_lt {done units : Units} {cs rest : List Char}
    (h : scan? done cs = some (units, rest)) : rest.length < cs.length := by
  fun_induction scan? done cs with
  | case1 => simp at h
  | case2 =>
    cases h
    simp
  | case3 _ _ _ _ _ _ _ _ ih => exact Nat.lt_trans (ih h) (by simp only [List.length_cons]; omega)
  | case4 => simp at h
  | case5 _ _ _ _ _ _ ih => exact Nat.lt_trans (ih h) (by simp only [List.length_cons]; omega)
  | case6 => simp at h
  | case7 => simp at h
  | case8 _ _ _ _ _ _ _ ih => exact Nat.lt_trans (ih h) (by simp)

end Units

end Padwork.Json
