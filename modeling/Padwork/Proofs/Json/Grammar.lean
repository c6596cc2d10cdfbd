import Padwork.Json.Value

/-!
# The grammar of JSON

Which texts spell which values, by the productions of RFC 8259. A production is a relation
between a stretch of text and what it means; nothing is said here about how a text is read.
A number means its own text, a string the units that its characters and escapes stand for.
-/
namespace Padwork.Json

def Blanks (cs : List Char) : Prop := ∀ c ∈ cs, c = ' ' ∨ c = '\t' ∨ c = '\n' ∨ c = '\r'

instance (cs : List Char) : Decidable (Blanks cs) := List.decidableBAll _ cs

/-! ## Numbers -/

namespace Numeral

def Digits (cs : List Char) : Prop := ∀ c ∈ cs, '0' ≤ c ∧ c ≤ '9'

/-- The digits before the point: a zero alone, or a run that does not begin with a zero. -/
inductive IsWhole : Numeral → Prop where
  | zero : IsWhole ['0']
  | digits {c : Char} {cs : List Char} (first : '1' ≤ c ∧ c ≤ '9') (rest : Digits cs) :
      IsWhole (c :: cs)

inductive IsFraction : Numeral → Prop where
  | absent : IsFraction []
  | digits {cs : List Char} (ne : cs ≠ []) (digits : Digits cs) : IsFraction ('.' :: cs)

inductive IsPower : Numeral → Prop where
  | absent : IsPower []
  | digits {e : Char} {sign cs : List Char} (mark : e = 'e' ∨ e = 'E')
      (sign_eq : sign = [] ∨ sign = ['+'] ∨ sign = ['-']) (ne : cs ≠ []) (digits : Digits cs) :
      IsPower (e :: (sign ++ cs))

/-- A number: a minus or none, and the three parts. -/
inductive IsNumber : Numeral → Prop where
  | parts {sign whole fraction power : Numeral} (sign_eq : sign = [] ∨ sign = ['-'])
      (isWhole : IsWhole whole) (isFraction : IsFraction fraction) (isPower : IsPower power) :
      IsNumber (sign ++ whole ++ fraction ++ power)

end Numeral

/-! ## Strings -/

namespace Units

/-- The letters that may follow a backslash, with the units they stand for. -/
def escapes : List (Char × UInt16) :=
  [('"', 0x22), ('\\', 0x5C), ('/', 0x2F), ('b', 0x08), ('f', 0x0C), ('n', 0x0A), ('r', 0x0D),
    ('t', 0x09)]

inductive HexDigit : Char → Nat → Prop where
  | digit {c : Char} (h : '0' ≤ c ∧ c ≤ '9') : HexDigit c (c.toNat - '0'.toNat)
  | lower {c : Char} (h : 'a' ≤ c ∧ c ≤ 'f') : HexDigit c (c.toNat - 'a'.toNat + 10)
  | upper {c : Char} (h : 'A' ≤ c ∧ c ≤ 'F') : HexDigit c (c.toNat - 'A'.toNat + 10)

/-- What may stand between the quotes of a string, with the units it stands for. -/
inductive Spells : Units → List Char → Prop where
  | nil : Spells [] []
  | plain {c : Char} {cs : List Char} {units : Units} (h : ' ' ≤ c ∧ c ≠ '"' ∧ c ≠ '\\')
      (rest : units.Spells cs) : Spells (ofChar c ++ units) (c :: cs)
  | escape {c : Char} {unit : UInt16} {cs : List Char} {units : Units}
      (h : (c, unit) ∈ escapes) (rest : units.Spells cs) : Spells (unit :: units) ('\\' :: c :: cs)
  | hex {a b c d : Char} {w x y z : Nat} {cs : List Char} {units : Units} (ha : HexDigit a w)
      (hb : HexDigit b x) (hc : HexDigit c y) (hd : HexDigit d z) (rest : units.Spells cs) :
      Spells (.ofNat (((w * 16 + x) * 16 + y) * 16 + z) :: units)
        ('\\' :: 'u' :: a :: b :: c :: d :: cs)

end Units

/-! ## Values -/

/-- What a stretch of text may be, with its meaning. An element is a value with the blanks on both
sides of it. -/
inductive Phrase where
  | value (value : Json)
  | element (value : Json)
  | elements (values : List Json)
  | member (key : Units) (value : Json)
  | members (members : List (Units × Json))

inductive Spells : Phrase → List Char → Prop where
  | null : Spells (.value .null) ['n', 'u', 'l', 'l']
  | true : Spells (.value (.bool true)) ['t', 'r', 'u', 'e']
  | false : Spells (.value (.bool false)) ['f', 'a', 'l', 's', 'e']
  | number {n : Numeral} (h : n.IsNumber) : Spells (.value (.number n)) n
  | text {units : Units} {cs : List Char} (h : units.Spells cs) :
      Spells (.value (.text units)) ('"' :: cs ++ ['"'])
  | emptyArray {ws : List Char} (h : Blanks ws) : Spells (.value (.array [])) ('[' :: ws ++ [']'])
  | array {value : Json} {values : List Json} {cs : List Char}
      (h : Spells (.elements (value :: values)) cs) :
      Spells (.value (.array (value :: values))) ('[' :: cs ++ [']'])
  | emptyObject {ws : List Char} (h : Blanks ws) :
      Spells (.value (.object [])) ('\x7b' :: ws ++ ['\x7d'])
  | object {member : Units × Json} {members : List (Units × Json)} {cs : List Char}
      (h : Spells (.members (member :: members)) cs) :
      Spells (.value (.object (member :: members))) ('\x7b' :: cs ++ ['\x7d'])
  | element {value : Json} {before cs after : List Char} (hb : Blanks before)
      (h : Spells (.value value) cs) (ha : Blanks after) :
      Spells (.element value) (before ++ cs ++ after)
  | lastElement {value : Json} {cs : List Char} (h : Spells (.element value) cs) :
      Spells (.elements [value]) cs
  | elements {value next : Json} {values : List Json} {cs ds : List Char}
      (h : Spells (.element value) cs) (rest : Spells (.elements (next :: values)) ds) :
      Spells (.elements (value :: next :: values)) (cs ++ ',' :: ds)
  | member {key : Units} {value : Json} {before cs after ds : List Char} (hb : Blanks before)
      (hk : key.Spells cs) (ha : Blanks after) (h : Spells (.element value) ds) :
      Spells (.member key value) (before ++ ('"' :: cs ++ ['"']) ++ after ++ ':' :: ds)
  | lastMember {key : Units} {value : Json} {cs : List Char} (h : Spells (.member key value) cs) :
      Spells (.members [(key, value)]) cs
  | members {key : Units} {value : Json} {next : Units × Json} {members : List (Units × Json)}
      {cs ds : List Char} (h : Spells (.member key value) cs)
      (rest : Spells (.members (next :: members)) ds) :
      Spells (.members ((key, value) :: next :: members)) (cs ++ ',' :: ds)

theorem Spells.bare {value : Json} {cs : List Char} (h : Spells (.value value) cs) :
    Spells (.element value) cs := by
  have hblanks : Blanks [] := nofun
  simpa using Spells.element hblanks h hblanks

def IsSpelled (v : Json) : Prop := ∃ cs, Spells (.element v) cs

/-- The values that stand in a stretch of text, without those inside them. -/
def Phrase.parts : Phrase → List Json
  | .value (.array vs) => vs
  | .value (.object ms) => ms.map Prod.snd
  | .value _ => []
  | .element v => [v]
  | .elements vs => vs
  | .member _ v => [v]
  | .members ms => ms.map Prod.snd

theorem Spells.isSpelled_of_mem {phrase : Phrase} {cs : List Char} (h : Spells phrase cs) :
    ∀ v ∈ phrase.parts, IsSpelled v := by
  induction h with
  | null | true | false | number | text | emptyArray | emptyObject => exact nofun
  | array _ ih | object _ ih | lastElement _ ih => exact ih
  | element hb h ha => exact fun v hv => List.mem_singleton.mp hv ▸ ⟨_, .element hb h ha⟩
  | elements _ _ ih ihs => exact List.forall_mem_cons.mpr ⟨ih _ List.mem_cons_self, ihs⟩
  | member _ _ _ _ ih | lastMember _ ih => exact ih
  | members _ _ ih ihs => exact List.forall_mem_cons.mpr ⟨ih _ List.mem_cons_self, ihs⟩

variable {values : List Json} {members : List (Units × Json)} {n : Numeral}

theorem IsSpelled.isNumber (h : IsSpelled (.number n)) : n.IsNumber := by
  obtain ⟨_, h⟩ := h
  cases h with
  | element _ h _ =>
    cases h with
    | number h => exact h

theorem IsSpelled.of_mem_array (h : IsSpelled (.array values)) : ∀ v ∈ values, IsSpelled v := by
  obtain ⟨_, h⟩ := h
  cases h with
  | element _ h _ => exact h.isSpelled_of_mem

theorem IsSpelled.of_mem_object (h : IsSpelled (.object members)) :
    ∀ m ∈ members, IsSpelled m.2 := by
  obtain ⟨_, h⟩ := h
  cases h with
  | element _ h _ => exact fun m hm => h.isSpelled_of_mem m.2 (List.mem_map_of_mem hm)

end Padwork.Json
