import Padwork.Proofs.Settings.Members

/-!
# The meaning of a settings file

What loading gives for a value, by rules that say nothing about how it is read. Faults of the
value come before faults of the settings, since the settings are validated only where there
are some.
-/
namespace Padwork.Settings

open Json (Units)

variable {machine : Machine}

/-- Each field of the settings has the one value that the members give it, or its default if they
give it none. -/
def GivenBy (machine : Machine) (s : Settings) (members : List (Units × Json)) : Prop :=
  ∀ field : Field, field.valuesIn members = [literal (s.get field)] ∨
    field.valuesIn members = [] ∧ s.get field = (default machine).get field

/-- What loading gives for a value. -/
inductive Means (machine : Machine) : Json → Except Error Settings → Prop where
  /-- A field that is given twice. -/
  | repeated {members : List (Units × Json)} {field : Field}
      (h : 1 < (field.valuesIn members).length) :
      Means machine (.object members) (.error .malformed)
  /-- A field whose value is no plain natural number that fits a word. -/
  | noLiteral {members : List (Units × Json)} {field : Field} {value : Json}
      (h : value ∈ field.valuesIn members) (hvalue : ∀ word, value ≠ literal word) :
      Means machine (.object members) (.error .malformed)
  /-- A key with half of a surrogate pair in it. -/
  | noText {members : List (Units × Json)} (h : ¬KeysAreTexts members) :
      Means machine (.object members) (.error .malformed)
  /-- None of these faults: the settings that the members give are validated. -/
  | object {members : List (Units × Json)} {s : Settings} (keys : KeysAreTexts members)
      (given : s.GivenBy machine members) :
      Means machine (.object members) (s.validate.map fun _ => s)
  /-- The elements are values of the fields in order. -/
  | array {elements : List Json} {result : Except Error Settings} (h : elements.length ≤ 3)
      (fields : Means machine (.object (keyed Field.all elements)) result) :
      Means machine (.array elements) result
  /-- More elements than fields. -/
  | long {elements : List Json} (h : 3 < elements.length) :
      Means machine (.array elements) (.error .malformed)
  /-- Neither an object nor an array. -/
  | other {v : Json} (hobject : ∀ members, v ≠ .object members)
      (harray : ∀ elements, v ≠ .array elements) : Means machine v (.error .malformed)

section Order

variable {members members' : List (Units × Json)} {result : Except Error Settings}

/-- An object means what its keys and the values of its fields say. Members with other keys do not
enter, nor does the order of the values. -/
theorem Means.of_valuesIn (hkeys : KeysAreTexts members ↔ KeysAreTexts members')
    (hvalues : ∀ field : Field, (field.valuesIn members).Perm (field.valuesIn members'))
    (h : Means machine (.object members) result) : Means machine (.object members') result := by
  cases h with
  | @repeated _ field hrepeated => exact .repeated ((hvalues field).length_eq ▸ hrepeated)
  | @noLiteral _ field _ hmem hvalue => exact .noLiteral ((hvalues field).mem_iff.mp hmem) hvalue
  | noText hnot => exact .noText fun hkeys' => hnot (hkeys.mpr hkeys')
  | object keys given =>
    refine .object (hkeys.mp keys) fun field => ?_
    obtain h | ⟨h, hdefault⟩ := given field
    · exact .inl (List.perm_singleton.mp (h ▸ hvalues field).symm)
    · exact .inr ⟨List.perm_nil.mp (h ▸ hvalues field).symm, hdefault⟩
  | other hobject => exact absurd rfl (hobject members)

theorem Means.perm (hperm : members.Perm members') (h : Means machine (.object members) result) :
    Means machine (.object members') result := by
  refine h.of_valuesIn ?_ fun field => (hperm.filter _).map _
  simp only [KeysAreTexts, hperm.mem_iff]

end Order

def outcome (machine : Machine) (read : Option Given) : Except Error Settings :=
  (read.map (·.settings machine)).elim (.error .malformed) fun s => s.validate.map fun _ => s

theorem load_of_spells {text : String} {v : Json} (h : Json.Spells (.element v) text.toList) :
    load machine (some (utf8 text)) =
      (ofJson? machine v).elim (.error .malformed) fun s => s.validate.map fun _ => s := by
  rw [load, Option.bind_some, ofUtf8?_utf8]
  simp only [Json.parse?_eq_some_iff.mpr h, Option.bind_some]
  cases ofJson? machine v <;> rfl

theorem ext_get {s s' : Settings} (h : ∀ field, s.get field = s'.get field) : s = s' := by
  cases s
  cases s'
  rw [mk.injEq]
  exact ⟨h .rounds, h .threads, h .batchSize⟩

theorem Given.get_settings (g : Given) (field : Field) :
    (g.settings machine).get field = (g field).getD ((default machine).get field) := by
  cases field <;> rfl

section Objects

variable {g : Given} {s : Settings} {members : List (Units × Json)} {result : Except Error Settings}

/-- No rule for a fault applies to the members. -/
structure Readable (members : List (Units × Json)) : Prop where
  keys : KeysAreTexts members
  once : ∀ field : Field, (field.valuesIn members).length ≤ 1
  isLiteral : ∀ field : Field, ∀ value ∈ field.valuesIn members, ∃ word, value = literal word

theorem Readable.exists_literals (h : Readable members) :
    ∃ g : Given, ∀ field : Field, field.valuesIn members = g.literals field := by
  have hword : ∀ field : Field, ∃ word : Option UInt64,
      field.valuesIn members = word.toList.map literal := by
    intro field
    match hvalues : field.valuesIn members with
    | [] => exact ⟨none, rfl⟩
    | [value] =>
      obtain ⟨word, rfl⟩ := h.isLiteral field value (hvalues ▸ List.mem_singleton_self value)
      exact ⟨some word, rfl⟩
    | _ :: _ :: _ => exact absurd (h.once field) (by simp [hvalues])
  -- What has been given is a function of the field, so the words are chosen for all fields at once.
  exact Classical.axiomOfChoice hword

theorem exists_ofMembers?_iff (hspelled : ∀ m ∈ members, m.2.IsSpelled) :
    (∃ g, ofMembers? .none members = some g) ↔ Readable members := by
  constructor
  · rintro ⟨g, hg⟩
    obtain ⟨hkeys, hread⟩ := (ofMembers?_eq_some_iff hspelled).mp hg
    have hread : ∀ field : Field, field.valuesIn members = g.literals field := hread
    refine ⟨hkeys, fun field => hread field ▸ Given.length_literals_le, fun field value hmem => ?_⟩
    obtain ⟨word, -, rfl⟩ := List.mem_map.mp (hread field ▸ hmem)
    exact ⟨word, rfl⟩
  · intro h
    obtain ⟨g, hread⟩ := h.exists_literals
    exact ⟨g, (ofMembers?_eq_some_iff hspelled).mpr ⟨h.keys, hread⟩⟩

theorem outcome_of_not_readable (hspelled : ∀ m ∈ members, m.2.IsSpelled) (h : ¬Readable members) :
    outcome machine (ofMembers? .none members) = .error .malformed := by
  cases hread : ofMembers? .none members with
  | none => rfl
  | some g => exact absurd ((exists_ofMembers?_iff hspelled).mp ⟨g, hread⟩) h

theorem means_of_not_readable (h : ¬Readable members) :
    Means machine (.object members) (.error .malformed) := by
  by_cases hkeys : KeysAreTexts members
  · by_cases honce : ∃ field : Field, 1 < (field.valuesIn members).length
    · obtain ⟨field, hrepeated⟩ := honce
      exact .repeated hrepeated
    · by_cases hliteral : ∃ field : Field, ∃ value ∈ field.valuesIn members,
          ∀ word, value ≠ literal word
      · obtain ⟨field, value, hmem, hvalue⟩ := hliteral
        exact .noLiteral hmem hvalue
      · refine absurd ⟨hkeys, fun field => ?_, fun field value hmem => ?_⟩ h
        · exact Nat.not_lt.mp fun hrepeated => honce ⟨field, hrepeated⟩
        · exact Classical.byContradiction fun hvalue =>
            hliteral ⟨field, value, hmem, fun word hword => hvalue ⟨word, hword⟩⟩
  · exact .noText hkeys

theorem GivenBy.once (h : s.GivenBy machine members) (field : Field) :
    (field.valuesIn members).length ≤ 1 := by
  obtain h | ⟨h, -⟩ := h field <;> simp [h]

theorem GivenBy.isLiteral (h : s.GivenBy machine members) (field : Field) :
    ∀ value ∈ field.valuesIn members, ∃ word, value = literal word := by
  intro value hmem
  obtain h | ⟨h, -⟩ := h field
  · exact ⟨_, List.mem_singleton.mp (h ▸ hmem)⟩
  · exact absurd (h ▸ hmem) List.not_mem_nil

theorem givenBy_of_ofMembers? (hspelled : ∀ m ∈ members, m.2.IsSpelled)
    (h : ofMembers? .none members = some g) : (g.settings machine).GivenBy machine members := by
  intro field
  have hread : field.valuesIn members = g.literals field :=
    ((ofMembers?_eq_some_iff hspelled).mp h).2 field
  rw [hread, Given.get_settings]
  cases hg : g field with
  | none => exact .inr ⟨Given.literals_of_eq_none hg, rfl⟩
  | some word => exact .inl (Given.literals_of_eq_some hg)

theorem GivenBy.unique {s' : Settings} (h : s.GivenBy machine members)
    (h' : s'.GivenBy machine members) :
    s = s' := by
  refine ext_get fun field => ?_
  obtain h | ⟨h, hdefault⟩ := h field
  · obtain h' | ⟨h', -⟩ := h' field
    · rw [h] at h'
      exact literal_injective (List.cons.inj h').1
    · rw [h] at h'
      cases h'
  · obtain h' | ⟨-, hdefault'⟩ := h' field
    · rw [h] at h'
      cases h'
    · rw [hdefault, hdefault']

/-- What is read of an object is what it means. -/
theorem outcome_object_iff (hspelled : ∀ m ∈ members, m.2.IsSpelled) :
    outcome machine (ofMembers? .none members) = result ↔
      Means machine (.object members) result := by
  constructor
  · rintro rfl
    cases hread : ofMembers? .none members with
    | none =>
      refine means_of_not_readable fun h => ?_
      obtain ⟨g, hg⟩ := (exists_ofMembers?_iff hspelled).mpr h
      rw [hread] at hg
      cases hg
    | some g =>
      have hreadable := (exists_ofMembers?_iff hspelled).mp ⟨g, hread⟩
      exact .object hreadable.keys (givenBy_of_ofMembers? hspelled hread)
  · intro h
    cases h with
    | @repeated _ field hrepeated =>
      exact outcome_of_not_readable hspelled fun h =>
        absurd (h.once field) (Nat.not_le.mpr hrepeated)
    | @noLiteral _ field value hmem hvalue =>
      refine outcome_of_not_readable hspelled fun h => ?_
      obtain ⟨word, hword⟩ := h.isLiteral field value hmem
      exact hvalue word hword
    | noText hnot => exact outcome_of_not_readable hspelled fun h => hnot h.keys
    | object hkeys hgiven =>
      obtain ⟨g, hg⟩ :=
        (exists_ofMembers?_iff hspelled).mpr ⟨hkeys, hgiven.once, hgiven.isLiteral⟩
      rw [hg, hgiven.unique (givenBy_of_ofMembers? hspelled hg)]
      rfl
    | other hobject => exact absurd rfl (hobject members)

end Objects

theorem forall_isSpelled_keyed {fields : List Field} {elements : List Json}
    (h : ∀ v ∈ elements, v.IsSpelled) : ∀ m ∈ keyed fields elements, m.2.IsSpelled :=
  fun _ hm => h _ (List.of_mem_zip hm).2

theorem outcome_array_iff {elements : List Json} {result : Except Error Settings}
    (hspelled : ∀ v ∈ elements, v.IsSpelled) :
    outcome machine (ofElements? .none Field.all elements) = result ↔
      Means machine (.array elements) result := by
  have hlength : Field.all.length = 3 := rfl
  by_cases h : elements.length ≤ 3
  · have hread := ofElements?_eq_ofMembers? (g := .none) (by decide) (hlength ▸ h) fun _ _ => rfl
    rw [hread, outcome_object_iff (forall_isSpelled_keyed hspelled)]
    constructor
    · exact .array h
    · intro hmeans
      cases hmeans with
      | array _ hfields => exact hfields
      | long hlong => exact absurd h (Nat.not_le.mpr hlong)
      | other _ harray => exact absurd rfl (harray elements)
  · have hlong : 3 < elements.length := Nat.not_le.mp h
    rw [ofElements?_eq_none (hlength ▸ hlong)]
    constructor
    · rintro rfl
      exact .long hlong
    · intro hmeans
      cases hmeans with
      | array hshort => exact absurd hshort h
      | long | other => rfl

section Texts

variable {text : String} {v : Json} {result : Except Error Settings}

theorem load_of_means (h : Json.Spells (.element v) text.toList) (hmeans : Means machine v result) :
    load machine (some (utf8 text)) = result := by
  have hspelled : v.IsSpelled := ⟨_, h⟩
  rw [load_of_spells h]
  cases v with
  | object members => exact (outcome_object_iff hspelled.of_mem_object).mpr hmeans
  | array elements => exact (outcome_array_iff hspelled.of_mem_array).mpr hmeans
  | _ =>
    cases hmeans
    rfl

theorem means_load (h : Json.Spells (.element v) text.toList) :
    Means machine v (load machine (some (utf8 text))) := by
  have hspelled : v.IsSpelled := ⟨_, h⟩
  rw [load_of_spells h]
  cases v with
  | object members => exact (outcome_object_iff hspelled.of_mem_object).mp rfl
  | array elements => exact (outcome_array_iff hspelled.of_mem_array).mp rfl
  | _ => exact .other nofun nofun

/-- A text that spells no value is not read, however much of it could be. -/
theorem load_of_not_spells (h : ∀ v, ¬Json.Spells (.element v) text.toList) :
    load machine (some (utf8 text)) = .error .malformed := by
  have hparse : Json.parse? text = none := by
    rw [Option.eq_none_iff_forall_ne_some]
    exact fun v hv => h v (Json.parse?_eq_some_iff.mp hv)
  rw [load, Option.bind_some, ofUtf8?_utf8]
  simp only [hparse, Option.bind_none]

end Texts

/-- Why loading a file gives no settings. -/
inductive Refused (machine : Machine) : Option Bytes → Error → Prop where
  /-- There is no file, or it does not hold a text. -/
  | noText {file : Option Bytes} (h : ∀ text, file ≠ some (utf8 text)) :
      Refused machine file .unreadable
  /-- The text spells no value. -/
  | noValue {text : String} (h : ∀ v, ¬Json.Spells (.element v) text.toList) :
      Refused machine (some (utf8 text)) .malformed
  /-- The text spells a value, but not one of valid settings. -/
  | value {text : String} {v : Json} {error : Error} (h : Json.Spells (.element v) text.toList)
      (hmeans : Means machine v (.error error)) : Refused machine (some (utf8 text)) error

theorem Refused.load_eq {file : Option Bytes} {error : Error} (h : Refused machine file error) :
    load machine file = .error error := by
  cases h with
  | noText h =>
    cases file with
    | none => rfl
    | some bytes =>
      have htext : ofUtf8? bytes = none := by
        rw [Option.eq_none_iff_forall_ne_some]
        exact fun text htext => h text (congrArg some (utf8_of_ofUtf8? htext).symm)
      rw [load, Option.bind_some, htext]
  | noValue h => exact load_of_not_spells h
  | value h hmeans => exact load_of_means h hmeans

/-- A file fails to load in these ways and in no other. -/
theorem load_eq_error_iff {file : Option Bytes} {error : Error} :
    load machine file = .error error ↔ Refused machine file error := by
  refine ⟨fun h => ?_, Refused.load_eq⟩
  by_cases htext : ∃ text, file = some (utf8 text)
  · obtain ⟨text, rfl⟩ := htext
    by_cases hvalue : ∃ v, Json.Spells (.element v) text.toList
    · obtain ⟨v, hv⟩ := hvalue
      exact .value hv (h ▸ means_load hv)
    · have hnone := not_exists.mp hvalue
      rw [load_of_not_spells hnone] at h
      cases h
      exact .noValue hnone
  · have hrefused : Refused machine file .unreadable := .noText (not_exists.mp htext)
    rw [hrefused.load_eq] at h
    cases h
    exact hrefused

/-- Loading a file with a JSON text gives what the value means that the text spells, and nothing
else. -/
theorem load_iff_means (machine : Machine) (text : String) (v : Json)
    (h : Json.Spells (.element v) text.toList) (result : Except Error Settings) :
    load machine (some (utf8 text)) = result ↔ Means machine v result := by
  constructor
  · rintro rfl
    exact means_load h
  · exact load_of_means h

/-- A key with an escaped letter, between two members that are skipped with a number too large for
any word and half of a surrogate pair in them. -/
def escapedFile : String :=
  "\x7b\"note\": [\x7b\"rounds\": 1e999\x7d, \"\\ud800\"],\n" ++
    "\t\"thre\\u0061ds\" :2, \"note\":null \x7d\n"

def escapedMembers : List (Units × Json) :=
  [(Units.ofString "note", .array [.object [(Field.rounds.key, .number ['1', 'e', '9', '9', '9'])],
      .text [0xD800]]),
    (Field.threads.key, .number ['2']), (Units.ofString "note", .null)]

theorem load_iff_means_escaped :
    Json.Spells (.element (.object escapedMembers)) escapedFile.toList ∧
      load .single (some (utf8 escapedFile)) = .ok ⟨512, 2, 100000⟩ := by
  have htokens : Json.tokens? escapedFile = some (Json.tokens (.object escapedMembers)) := by
    decide +kernel
  have hspells : Json.Spells (.element (.object escapedMembers)) escapedFile.toList := by
    rw [← Json.parse?_eq_some_iff, Json.parse?, htokens, Option.bind_some,
      Json.ofTokens?_eq_some_iff]
  have hkeys : KeysAreTexts escapedMembers := by
    intro m hm
    simp only [escapedMembers, List.mem_cons, List.not_mem_nil, or_false] at hm
    rcases hm with rfl | rfl | rfl <;> exact ⟨_, rfl⟩
  have htwo : literal 2 = .number ['2'] := by
    rw [literal, Json.Numeral.digits_of_lt (by decide)]
    rfl
  have hgiven : GivenBy .single ⟨512, 2, 100000⟩ escapedMembers := by
    intro field
    cases field with
    | rounds => exact .inr ⟨rfl, rfl⟩
    | threads => exact .inl (by rw [get, htwo]; rfl)
    | batchSize => exact .inr ⟨rfl, rfl⟩
  have hmeans := Means.object hkeys hgiven
  exact ⟨hspells, (load_iff_means .single escapedFile _ hspells _).mpr hmeans⟩

end Padwork.Settings
