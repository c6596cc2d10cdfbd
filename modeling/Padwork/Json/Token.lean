import Padwork.Json.Number
import Padwork.Json.Text

/-!
# JSON tokens

The lexical part of RFC 8259. Between tokens there may be spaces, tabs, line feeds
and carriage returns.
-/
namespace Padwork.Json

def isBlank (c : Char) : Bool := c == ' ' || c == '\t' || c == '\n' || c == '\r'

inductive Token where
  | arrayOpen
  | arrayClose
  | objectOpen
  | objectClose
  | comma
  | colon
  | null
  | bool (value : Bool)
  | number (numeral : Numeral)
  | text (units : Units)
deriving DecidableEq

namespace Token

/-- The token at the start of a text, and what follows it. No blank may stand before the token. -/
def scan? : List Char → Option (Token × List Char)
  | '[' :: rest => some (.arrayOpen, rest)
  | ']' :: rest => some (.arrayClose, rest)
  | '{' :: rest => some (.objectOpen, rest)
  | '}' :: rest => some (.objectClose, rest)
  | ',' :: rest => some (.comma, rest)
  | ':' :: rest => some (.colon, rest)
  | 'n' :: 'u' :: 'l' :: 'l' :: rest => some (.null, rest)
  | 't' :: 'r' :: 'u' :: 'e' :: rest => some (.bool true, rest)
  | 'f' :: 'a' :: 'l' :: 's' :: 'e' :: rest => some (.bool false, rest)
  | '"' :: rest => (Units.scan? [] rest).map fun (units, rest) => (.text units, rest)
  | cs => (Numeral.scan? .start [] cs).map fun (numeral, rest) => (.number numeral, rest)

theorem length_scan?_lt {cs rest : List Char} {t : Token} (h : scan? cs = some (t, rest)) :
    rest.length < cs.length := by
  unfold scan? at h
  split at h
  case h_10 =>
    obtain ⟨⟨units, tail⟩, ht, he⟩ := Option.map_eq_some_iff.mp h
    cases he
    exact Nat.lt_succ_of_lt (Units.length_scan?_lt ht)
  case h_11 =>
    obtain ⟨⟨numeral, tail⟩, ht, he⟩ := Option.map_eq_some_iff.mp h
    cases he
    exact Numeral.length_scan?_start_lt ht
  all_goals
    cases h
    simp only [List.length_cons]
    omega

end Token

/-- The tokens of a text, behind tokens already read, which are in reverse. -/
def lex? (done : List Token) (cs : List Char) : Option (List Token) :=
  match _ : cs.dropWhile isBlank with
  | [] => some done.reverse
  | c :: tail =>
    match _ : Token.scan? (c :: tail) with
    | none => none
    | some (token, rest) => lex? (token :: done) rest
termination_by cs.length
decreasing_by
  have := Token.length_scan?_lt ‹_ = some (token, rest)›
  have := congrArg List.length ‹cs.dropWhile isBlank = c :: tail›
  have := (cs.dropWhile_sublist isBlank).length_le
  omega

def tokens? (text : String) : Option (List Token) := lex? [] text.toList

end Padwork.Json
