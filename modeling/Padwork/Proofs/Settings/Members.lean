import Padwork.Proofs.Json.Literal
import Padwork.Proofs.Json.Spelling
import Padwork.Settings.File

/-!
# The members of a settings file

The fields that are read from members are the ones whose values are literals of words, as long
as no field has two values and every key is a text. The order of the members does not enter,
and neither do members with other keys. Elements are read as members with the keys of the
fields, in order.
-/
namespace Padwork.Settings

open Json (Units)

/-- The literal that spells a word: its decimal digits, with nothing before or behind them. -/
def literal (word : UInt64) : Json := .number (Decimal.digits word.toNat)

namespace Field

def key (field : Field) : Units := Units.ofString field.name

/-- The values that members give to a field, in order. -/
def valuesIn (field : Field) (members : List (Units × Json)) : List Json :=
  (members.filter fun m => m.1 = field.key).map Prod.snd

end Field

/-! ## Words -/

theorem literal_injective {v w : UInt64} (h : literal v = literal w) : v = w := by
  have hdigits := congrArg Decimal.value? (Json.number.inj h)
  rw [Decimal.value?_digits, Decimal.value?_digits] at hdigits
  exact UInt64.toNat_inj.mp (Option.some.inj hdigits)

theorem wordOf?_eq_some_iff {v : Json} {w : UInt64} (hv : v.IsSpelled) :
    wordOf? v = some w ↔ v = literal w := by
  constructor
  · intro h
    cases v with
    | number n =>
      obtain ⟨k, hk, h⟩ := Option.bind_eq_some_iff.mp h
      split at h
      · next hlt =>
        cases h
        obtain rfl := (Json.Numeral.value?_eq_some_iff hv.isNumber).mp hk
        rw [literal, UInt64.toNat_ofNat_of_lt' hlt]
      · cases h
    | _ => cases h
  · rintro rfl
    rw [literal, wordOf?, Decimal.value?_digits, Option.bind_some, if_pos w.toNat_lt,
      UInt64.ofNat_toNat]

/-! ## Keys -/

theorem Field.ofKey?_eq_some_iff {key : Units} {field : Field} :
    ofKey? key = some field ↔ key = field.key := by
  constructor
  · intro h
    rw [ofKey?] at h
    have hname := List.find?_some h
    exact (beq_iff_eq.mp hname).symm
  · rintro rfl
    cases field <;> decide

theorem Field.key_ne_of_ofKey? {key : Units} (h : ofKey? key = none) (field : Field) :
    key ≠ field.key := by
  intro heq
  rw [ofKey?_eq_some_iff.mpr heq] at h
  cases h

theorem Field.key_injective {field other : Field} (h : field.key = other.key) : field = other := by
  rw [← ofKey?_eq_some_iff, ofKey?_eq_some_iff.mpr rfl] at h
  exact Option.some.inj h

section Members

variable {key : Units} {value : Json} {members : List (Units × Json)} {field : Field}

theorem Field.valuesIn_cons_key :
    field.valuesIn ((field.key, value) :: members) = value :: field.valuesIn members := by
  simp [valuesIn]

theorem Field.valuesIn_cons_of_ne (h : key ≠ field.key) :
    field.valuesIn ((key, value) :: members) = field.valuesIn members := by
  simp [valuesIn, h]

/-- Every key of an object is a text: no half of a surrogate pair stands alone in it. -/
def KeysAreTexts (members : List (Units × Json)) : Prop :=
  ∀ m ∈ members, ∃ text, m.1 = Units.ofString text

theorem keysAreTexts_cons : KeysAreTexts ((key, value) :: members) ↔
    (∃ text, key = Units.ofString text) ∧ KeysAreTexts members := by
  simp [KeysAreTexts]

end Members

/-! ## What has been given -/

namespace Given

variable {g g' : Given} {field other : Field} {word : UInt64}

/-- The literal of a field that has been given. -/
def literals (g : Given) (field : Field) : List Json := (g field).toList.map literal

theorem literals_of_eq_none (h : g field = .none) : g.literals field = [] := by
  rw [literals, h]
  rfl

theorem literals_of_eq_some (h : g field = some word) : g.literals field = [literal word] := by
  rw [literals, h]
  rfl

theorem literals_put_self : (g.put field word).literals field = [literal word] := by
  simp [literals, put]

theorem literals_put_of_ne (h : other ≠ field) :
    (g.put field word).literals other = g.literals other := by
  simp [literals, put, h]

theorem length_literals_le : (g.literals field).length ≤ 1 := by
  cases h : g field <;> simp [literals, h]

theorem ext_literals (h : ∀ field, g.literals field = g'.literals field) : g = g' := by
  funext field
  have hfield := h field
  simp only [literals] at hfield
  cases hg : g field <;> cases hg' : g' field <;> simp [hg, hg'] at hfield
  · rfl
  · rw [literal_injective hfield]

end Given

/-! ## Reading members -/

variable {g g' : Given} {members : List (Units × Json)}

/-- A value read for a field is a literal that has been given for it. -/
theorem literals_put_append {field : Field} {word : UInt64} (hg : g field = none) (other : Field) :
    (g.put field word).literals other ++ other.valuesIn members =
      g.literals other ++ other.valuesIn ((field.key, literal word) :: members) := by
  by_cases h : other = field
  · subst h
    rw [Given.literals_put_self, Given.literals_of_eq_none hg, Field.valuesIn_cons_key]
    rfl
  · have hkey : field.key ≠ other.key := fun heq => h (Field.key_injective heq).symm
    rw [Given.literals_put_of_ne h, Field.valuesIn_cons_of_ne hkey]

theorem exists_of_literals_append {field : Field} {value : Json}
    (h : g.literals field ++ field.valuesIn ((field.key, value) :: members) = g'.literals field) :
    g field = none ∧ ∃ word, value = literal word := by
  rw [Field.valuesIn_cons_key] at h
  cases hg' : g' field with
  | none => simp [Given.literals_of_eq_none hg'] at h
  | some word =>
    rw [Given.literals_of_eq_some hg'] at h
    cases hg : g field with
    | none =>
      rw [Given.literals_of_eq_none hg, List.nil_append] at h
      exact ⟨rfl, word, (List.cons.inj h).1⟩
    | some _ => simp [Given.literals_of_eq_some hg] at h

/-- A member with another key is skipped if its key is a text. -/
theorem ofMembers?_cons_of_ne {key : Units} (value : Json) (hkey : Field.ofKey? key = none) :
    ofMembers? g ((key, value) :: members) = some g' ↔
      (∃ text, key = Units.ofString text) ∧ ofMembers? g members = some g' := by
  rw [ofMembers?, hkey, ← Units.isWellFormed_iff]
  simp

theorem ofMembers?_cons_key {field : Field} {value : Json} (hvalue : value.IsSpelled) :
    ofMembers? g ((field.key, value) :: members) = some g' ↔
      g field = none ∧ ∃ word, value = literal word ∧
        ofMembers? (g.put field word) members = some g' := by
  rw [ofMembers?, Field.ofKey?_eq_some_iff.mpr rfl]
  cases hg : g field <;> simp [hg, Option.bind_eq_some_iff, wordOf?_eq_some_iff hvalue]

/-- The members are read if their keys are texts and each field, with what was given before, has
at most one value, the literal of a word. -/
theorem ofMembers?_eq_some_iff (hspelled : ∀ m ∈ members, m.2.IsSpelled) :
    ofMembers? g members = some g' ↔ KeysAreTexts members ∧
      ∀ field : Field, g.literals field ++ field.valuesIn members = g'.literals field := by
  -- A field that is read moves from the members to what has been given, so `g` is general.
  induction members generalizing g with
  | nil =>
    have hread : ofMembers? g [] = some g' ↔ g = g' := by simp [ofMembers?]
    rw [hread]
    constructor
    · rintro rfl
      exact ⟨nofun, fun field => List.append_nil _⟩
    · rintro ⟨-, h⟩
      exact Given.ext_literals fun field => (List.append_nil _).symm.trans (h field)
  | cons m members ih =>
    obtain ⟨key, value⟩ := m
    obtain ⟨hvalue, hrest⟩ := List.forall_mem_cons.mp hspelled
    cases hkey : Field.ofKey? key with
    | none =>
      have hvalues : ∀ field : Field, field.valuesIn ((key, value) :: members) =
          field.valuesIn members :=
        fun field => Field.valuesIn_cons_of_ne (Field.key_ne_of_ofKey? hkey field)
      rw [ofMembers?_cons_of_ne value hkey, ih hrest, keysAreTexts_cons, and_assoc]
      simp only [hvalues]
    | some field =>
      obtain rfl := Field.ofKey?_eq_some_iff.mp hkey
      rw [ofMembers?_cons_key hvalue]
      constructor
      · rintro ⟨hg, word, rfl, h⟩
        obtain ⟨hkeys, h⟩ := (ih hrest).mp h
        exact ⟨keysAreTexts_cons.mpr ⟨⟨_, rfl⟩, hkeys⟩,
          fun other => (literals_put_append hg other).symm.trans (h other)⟩
      · rintro ⟨hkeys, h⟩
        obtain ⟨hg, word, rfl⟩ := exists_of_literals_append (h field)
        refine ⟨hg, word, rfl, (ih hrest).mpr ⟨(keysAreTexts_cons.mp hkeys).2, fun other => ?_⟩⟩
        exact (literals_put_append hg other).trans (h other)

/-! ## Reading elements -/

/-- Elements as members with the keys of fields. -/
def keyed (fields : List Field) (elements : List Json) : List (Units × Json) :=
  (fields.map Field.key).zip elements

/-- Elements are read as members with the keys of fields that have not been given. -/
theorem ofElements?_eq_ofMembers? {fields : List Field} {elements : List Json}
    (hnodup : fields.Nodup) (hlength : elements.length ≤ fields.length)
    (hg : ∀ field ∈ fields, g field = none) :
    ofElements? g fields elements = ofMembers? g (keyed fields elements) := by
  induction fields generalizing g elements with
  | nil =>
    obtain rfl := List.length_eq_zero_iff.mp (Nat.le_zero.mp hlength)
    rfl
  | cons field fields ih =>
    cases elements with
    | nil => rfl
    | cons value elements =>
      obtain ⟨hnotMem, hnodup⟩ := List.nodup_cons.mp hnodup
      obtain ⟨hfield, hrest⟩ := List.forall_mem_cons.mp hg
      have hput : ∀ word, ∀ other ∈ fields, g.put field word other = none := by
        intro word other hmem
        have hne : other ≠ field := fun h => hnotMem (h ▸ hmem)
        simp [Given.put, hne, hrest other hmem]
      have hvalue : keyed (field :: fields) (value :: elements) =
          (field.key, value) :: keyed fields elements := rfl
      rw [hvalue, ofElements?, ofMembers?, Field.ofKey?_eq_some_iff.mpr rfl]
      simp only [hfield, Option.isSome_none, Bool.false_eq_true, if_false]
      congr
      funext word
      exact ih hnodup (Nat.le_of_succ_le_succ hlength) (hput word)

theorem ofElements?_eq_none {fields : List Field} {elements : List Json}
    (h : fields.length < elements.length) : ofElements? g fields elements = none := by
  induction fields generalizing g elements with
  | nil =>
    cases elements with
    | nil => cases h
    | cons => rfl
  | cons field fields ih =>
    cases elements with
    | nil => cases h
    | cons value elements =>
      rw [ofElements?, Option.bind_eq_none_iff]
      exact fun word _ => ih (Nat.lt_of_succ_lt_succ h)

end Padwork.Settings
