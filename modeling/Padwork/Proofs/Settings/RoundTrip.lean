import Padwork.Proofs.Settings.Meaning

/-!
# Loading what was written

The file that holds settings spells an object with the three fields, each with the literal of
its word. So it is read as these settings, whatever the words are, and loading it gives them
back or says what is wrong with them.
-/
namespace Padwork.Settings

open Json (Units Blanks)

def members (s : Settings) : List (Units × Json) :=
  Field.all.map fun field => (field.key, literal (s.get field))

/-! ## The file spells its members -/

/-- A text without quotes, backslashes and control characters stands for its own units. -/
theorem spells_ofString {text : String}
    (h : ∀ c ∈ text.toList, ' ' ≤ c ∧ c ≠ '"' ∧ c ≠ '\\') :
    (Units.ofString text).Spells text.toList := by
  rw [Units.ofString]
  -- The induction is on the characters; a text has no recursion of its own.
  generalize text.toList = cs at h ⊢
  induction cs with
  | nil => exact .nil
  | cons c cs ih =>
    obtain ⟨hc, hcs⟩ := List.forall_mem_cons.mp h
    exact .plain hc (ih hcs)

theorem spells_key (field : Field) : Units.Spells field.key field.name.toList := by
  have hplain : field.name.toList.all (fun c => ' ' ≤ c ∧ c ≠ '"' ∧ c ≠ '\\') = true := by
    cases field <;> decide
  exact spells_ofString fun c hc => of_decide_eq_true (List.all_eq_true.mp hplain c hc)

/-- A line of the file spells the member of its field, with any blanks behind it. -/
theorem spells_member (s : Settings) (field : Field) {after : List Char} (ha : Blanks after) :
    Json.Spells (.member field.key (literal (s.get field)))
      ('\n' :: (s.member field).toList ++ after) := by
  have hbefore : Blanks ['\n', ' ', ' '] := by decide
  have hvalue : Json.Spells (.element (literal (s.get field)))
      ([' '] ++ Decimal.digits (s.get field).toNat ++ after) :=
    .element (by decide) (.number (Json.Numeral.isNumber_digits _)) ha
  have h := Json.Spells.member hbefore (spells_key field) (by decide : Blanks []) hvalue
  simpa [member, Decimal.render] using h

theorem spells_members (s : Settings) : Json.Spells (.members s.members)
    ('\n' :: (s.member .rounds).toList ++ ',' :: '\n' :: (s.member .threads).toList ++
      ',' :: '\n' :: (s.member .batchSize).toList ++ ['\n']) := by
  have hnone : Blanks [] := by decide
  have hline : Blanks ['\n'] := by decide
  have h := Json.Spells.members (spells_member s .rounds hnone)
    (.members (spells_member s .threads hnone) (.lastMember (spells_member s .batchSize hline)))
  simpa [members, Field.all] using h

theorem spells_render (s : Settings) :
    Json.Spells (.element (.object s.members)) s.render.toList := by
  have h := (Json.Spells.object (spells_members s)).bare
  simpa [render, members, Field.all] using h

theorem parse?_render (s : Settings) : Json.parse? s.render = some (.object s.members) :=
  Json.parse?_eq_some_iff.mpr (spells_render s)

/-! ## What is read of the file -/

theorem valuesIn_members (s : Settings) (field : Field) :
    field.valuesIn s.members = [literal (s.get field)] := by
  cases field <;> rfl

theorem keysAreTexts_members (s : Settings) : KeysAreTexts s.members := by
  intro m hm
  obtain ⟨field, -, rfl⟩ := List.mem_map.mp hm
  exact ⟨_, rfl⟩

theorem means_members (machine : Machine) (s : Settings) :
    Means machine (.object s.members) (s.validate.map fun _ => s) :=
  .object s.keysAreTexts_members fun field => .inl (s.valuesIn_members field)

theorem load_render (machine : Machine) (s : Settings) :
    load machine (some (utf8 s.render)) = s.validate.map fun _ => s :=
  load_of_means s.spells_render (s.means_members machine)

theorem render_injective {s other : Settings} (h : other.render = s.render) : other = s := by
  have hparse := congrArg Json.parse? h
  rw [parse?_render, parse?_render] at hparse
  have hmembers := Json.object.inj (Option.some.inj hparse)
  refine ext_get fun field => literal_injective ?_
  have hvalues := congrArg field.valuesIn hmembers
  rw [valuesIn_members, valuesIn_members] at hvalues
  exact (List.cons.inj hvalues).1

theorem exists_fault_of_validate {s : Settings} {error : Error} (h : s.validate = .error error) :
    ∃ fault, error = .invalid fault := by
  rw [validate] at h
  split at h
  · next fault _ =>
    cases h
    exact ⟨fault, rfl⟩
  · cases h

/-- Loading undoes saving, for any three words. The settings come back if they are valid; else the
error is the one of their validation, and never one of reading the file or its text. The text
determines the settings. -/
theorem load_undoes_render (machine : Machine) (s : Settings) :
    (∀ result, load machine (some (utf8 s.render)) = .ok result ↔
        s.validate = .ok () ∧ result = s) ∧
      (∀ error, load machine (some (utf8 s.render)) = .error error ↔
        s.validate = .error error ∧ ∃ fault, error = .invalid fault) ∧
      ∀ other : Settings, other.render = s.render ↔ other = s := by
  rw [load_render]
  refine ⟨?_, ?_, ?_⟩
  · intro result
    cases s.validate <;> simp [Except.map, eq_comm]
  · intro error
    constructor
    · intro h
      have hvalidate : s.validate = .error error := by
        cases hs : s.validate with
        | ok _ => simp [hs, Except.map] at h
        | error other => simpa [hs, Except.map] using h
      exact ⟨hvalidate, exists_fault_of_validate hvalidate⟩
    · rintro ⟨h, -⟩
      rw [h]
      rfl
  · intro other
    constructor
    · exact render_injective
    · rintro rfl
      rfl

end Padwork.Settings
