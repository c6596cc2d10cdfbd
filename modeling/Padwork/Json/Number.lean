/-!
# JSON numbers

The numbers of RFC 8259 as a small automaton, one phase for each part of a
number. A number stays the text it was written as, so that whoever reads it can
tell a plain natural number from a fraction or a power.
-/
namespace Padwork.Json

abbrev Numeral := List Char

namespace Numeral

inductive Phase where
  | start
  | minus
  | zero
  | whole
  | point
  | fraction
  | mark
  | markSign
  | power
deriving DecidableEq

def isDigit (c : Char) : Bool := '0' ≤ c && c ≤ '9'

namespace Phase

def isFinal : Phase → Bool
  | zero | whole | fraction | power => true
  | start | minus | point | mark | markSign => false

/-- The phase after one more character, if the number can go on with it. -/
def next? (p : Phase) (c : Char) : Option Phase :=
  match p with
  | start => if c = '-' then some minus else firstDigit? c
  | minus => firstDigit? c
  | zero => afterWhole? c
  | whole => if isDigit c then some whole else afterWhole? c
  | point => if isDigit c then some fraction else none
  | fraction => if isDigit c then some fraction else afterFraction? c
  | mark => if c = '+' ∨ c = '-' then some markSign else if isDigit c then some power else none
  | markSign | power => if isDigit c then some power else none
where
  /-- A zero that begins a number is its whole part. -/
  firstDigit? (c : Char) : Option Phase :=
    if c = '0' then some zero else if isDigit c then some whole else none
  afterWhole? (c : Char) : Option Phase := if c = '.' then some point else afterFraction? c
  afterFraction? (c : Char) : Option Phase := if c = 'e' ∨ c = 'E' then some mark else none

end Phase

/-- Reads a number that has come to a phase, as far as it goes. What has been read of it is in
reverse. Gives the number and the text after it. -/
def scan? (p : Phase) (done : Numeral) : List Char → Option (Numeral × List Char)
  | [] => if p.isFinal then some (done.reverse, []) else none
  | c :: rest =>
    match p.next? c with
    | some q => scan? q (c :: done) rest
    | none => if p.isFinal then some (done.reverse, c :: rest) else none

theorem length_scan?_le {p : Phase} {done n : Numeral} {cs rest : List Char}
    (h : scan? p done cs = some (n, rest)) : rest.length ≤ cs.length := by
  fun_induction scan? p done cs with
  | case1 =>
    cases h
    simp
  | case2 => contradiction
  | case3 _ _ _ _ _ _ ih => exact Nat.le_succ_of_le (ih h)
  | case4 =>
    cases h
    simp
  | case5 => contradiction

theorem length_scan?_start_lt {n : Numeral} {cs rest : List Char}
    (h : scan? .start [] cs = some (n, rest)) : rest.length < cs.length := by
  cases cs with
  | nil => simp [scan?, Phase.isFinal] at h
  | cons c cs =>
    unfold scan? at h
    split at h
    · exact Nat.lt_succ_of_le (length_scan?_le h)
    · simp [Phase.isFinal] at h

end Numeral

end Padwork.Json
