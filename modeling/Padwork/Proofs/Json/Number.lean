import Padwork.Proofs.Json.Grammar

/-!
# Reading a number

What each phase of a number still accepts is a tail of the productions, so from the start it
is a number of the grammar. A scan goes as far as the phases allow. It reads a whole number
wherever the next character cannot continue one.
-/
namespace Padwork.Json.Numeral

variable {c : Char} {cs n rest done : List Char} {p q : Phase}

theorem isDigit_iff : isDigit c = true ↔ '0' ≤ c ∧ c ≤ '9' := by
  simp [isDigit]

theorem digits_cons : Digits (c :: cs) ↔ isDigit c = true ∧ Digits cs := by
  simp [Digits, isDigit_iff]

/-! ## What a phase accepts -/

/-- The text leads from the phase to one in which a number may end. -/
def Phase.Accepts (p : Phase) (cs : List Char) : Prop :=
  ∃ q, cs.foldlM Phase.next? p = some q ∧ q.isFinal = true

/-- The phase goes on with the first character of a text and accepts the rest. -/
def Phase.GoesOn (next? : Char → Option Phase) : List Char → Prop
  | [] => False
  | c :: cs => ∃ q, next? c = some q ∧ q.Accepts cs

theorem Phase.accepts_nil : p.Accepts [] ↔ p.isFinal = true := by
  simp [Accepts]

theorem Phase.accepts_cons : p.Accepts (c :: cs) ↔ GoesOn p.next? (c :: cs) := by
  simp only [GoesOn, Accepts, List.foldlM_cons, Option.bind_eq_bind, Option.bind_eq_some_iff]
  constructor
  · rintro ⟨q, ⟨r, hr, hq⟩, hfinal⟩
    exact ⟨r, hr, q, hq, hfinal⟩
  · rintro ⟨r, hr, q, hq, hfinal⟩
    exact ⟨q, ⟨r, hr, hq⟩, hfinal⟩

/-- A phase that digits lead back to accepts digits and then what comes behind them. -/
theorem Phase.accepts_iff_digits_append {T : List Char → Prop} (hfinal : p.isFinal = true)
    (hdigit : ∀ c, isDigit c = true → p.next? c = some p) (hnil : T [])
    (hcons : ∀ c cs, isDigit c = false → (GoesOn p.next? (c :: cs) ↔ T (c :: cs)))
    (hne : ∀ c cs, T (c :: cs) → isDigit c = false) :
    p.Accepts cs ↔ ∃ ds tail, cs = ds ++ tail ∧ Digits ds ∧ T tail := by
  induction cs with
  | nil =>
    rw [accepts_nil]
    exact ⟨fun _ => ⟨[], [], rfl, nofun, hnil⟩, fun _ => hfinal⟩
  | cons c cs ih =>
    rw [accepts_cons]
    cases hc : isDigit c with
    | true =>
      simp only [GoesOn, hdigit c hc, Option.some.injEq, exists_eq_left', ih]
      constructor
      · rintro ⟨ds, tail, rfl, hd, ht⟩
        exact ⟨c :: ds, tail, rfl, digits_cons.mpr ⟨hc, hd⟩, ht⟩
      · rintro ⟨ds, tail, h, hd, ht⟩
        cases ds with
        | nil =>
          rw [hne c cs (h ▸ ht)] at hc
          cases hc
        | cons d ds =>
          obtain ⟨rfl, rfl⟩ := List.cons.inj h
          exact ⟨ds, tail, rfl, (digits_cons.mp hd).2, ht⟩
    | false =>
      rw [hcons c cs hc]
      constructor
      · intro ht
        exact ⟨[], c :: cs, rfl, nofun, ht⟩
      · rintro ⟨ds, tail, h, hd, ht⟩
        cases ds with
        | nil => exact h ▸ ht
        | cons d ds =>
          obtain ⟨rfl, rfl⟩ := List.cons.inj h
          rw [(digits_cons.mp hd).1] at hc
          cases hc

/-- A phase that needs a digit accepts digits before what the next phase accepts. -/
theorem Phase.goesOn_digit (q : Phase) :
    GoesOn (fun c => if isDigit c then some q else none) (c :: cs) ↔
      isDigit c = true ∧ q.Accepts cs := by
  by_cases h : isDigit c = true <;> simp [GoesOn, h]

theorem Phase.accepts_power : power.Accepts cs ↔ Digits cs := by
  rw [accepts_iff_digits_append (T := (· = [])) rfl]
  · simp
  · intro c hc
    simp [next?, hc]
  · rfl
  · intro c cs hc
    simp [GoesOn, next?, hc]
  · simp

theorem Phase.accepts_markSign : markSign.Accepts cs ↔ cs ≠ [] ∧ Digits cs := by
  cases cs with
  | nil => simp [accepts_nil, isFinal]
  | cons c cs =>
    rw [accepts_cons, digits_cons, ← accepts_power]
    exact (goesOn_digit power).trans (iff_and_self.mpr fun _ => List.cons_ne_nil c cs)

theorem not_isDigit_sign (h : c = '+' ∨ c = '-') : isDigit c = false := by
  rcases h with rfl | rfl <;> rfl

theorem Phase.accepts_mark : mark.Accepts cs ↔ ∃ sign ds, cs = sign ++ ds ∧
    (sign = [] ∨ sign = ['+'] ∨ sign = ['-']) ∧ ds ≠ [] ∧ Digits ds := by
  cases cs with
  | nil => simp [accepts_nil, isFinal]
  | cons c cs =>
    rw [accepts_cons]
    by_cases hsign : c = '+' ∨ c = '-'
    · have hc := not_isDigit_sign hsign
      simp only [GoesOn, next?, hsign, if_true, Option.some.injEq, exists_eq_left',
        accepts_markSign]
      constructor
      · rintro ⟨hne, hd⟩
        exact ⟨[c], cs, rfl, by simpa using hsign, hne, hd⟩
      · rintro ⟨sign, ds, h, rfl | rfl | rfl, hne, hd⟩
        · obtain rfl : c :: cs = ds := h
          rw [(digits_cons.mp hd).1] at hc
          cases hc
        · exact (List.cons.inj h).2 ▸ ⟨hne, hd⟩
        · exact (List.cons.inj h).2 ▸ ⟨hne, hd⟩
    · rw [not_or] at hsign
      simp only [GoesOn, next?, hsign, or_self, if_false]
      rw [← GoesOn.eq_2 (fun c => if isDigit c then some power else none), goesOn_digit,
        accepts_power, ← digits_cons]
      constructor
      · intro hd
        exact ⟨[], c :: cs, rfl, .inl rfl, List.cons_ne_nil c cs, hd⟩
      · rintro ⟨sign, ds, h, rfl | rfl | rfl, hne, hd⟩
        · exact h ▸ hd
        · exact absurd (List.cons.inj h).1 hsign.1
        · exact absurd (List.cons.inj h).1 hsign.2

/-! ## The end of a number -/

/-- What may come behind the whole part. -/
def IsEnd (cs : List Char) : Prop :=
  ∃ fraction power, cs = fraction ++ power ∧ IsFraction fraction ∧ IsPower power

theorem isPower_cons : IsPower (c :: cs) ↔ (c = 'e' ∨ c = 'E') ∧ Phase.mark.Accepts cs := by
  rw [Phase.accepts_mark]
  constructor
  · intro h
    cases h with
    | digits hmark hsign hne hd => exact ⟨hmark, _, _, rfl, hsign, hne, hd⟩
  · rintro ⟨hmark, sign, ds, rfl, hsign, hne, hd⟩
    exact .digits hmark hsign hne hd

theorem Phase.goesOn_afterFraction : GoesOn next?.afterFraction? (c :: cs) ↔ IsPower (c :: cs) := by
  rw [isPower_cons]
  by_cases h : c = 'e' ∨ c = 'E' <;> simp [GoesOn, next?.afterFraction?, h]

theorem not_isDigit_power (h : IsPower (c :: cs)) : isDigit c = false := by
  rcases (isPower_cons.mp h).1 with rfl | rfl <;> rfl

theorem Phase.accepts_fraction : fraction.Accepts cs ↔
    ∃ ds power, cs = ds ++ power ∧ Digits ds ∧ IsPower power := by
  apply accepts_iff_digits_append rfl
  · intro c hc
    simp [next?, hc]
  · exact .absent
  · intro c cs hc
    rw [← goesOn_afterFraction]
    simp [GoesOn, next?, hc]
  · exact fun c cs => not_isDigit_power

theorem Phase.accepts_point : point.Accepts cs ↔
    ∃ ds power, cs = ds ++ power ∧ ds ≠ [] ∧ Digits ds ∧ IsPower power := by
  cases cs with
  | nil => simp [accepts_nil, isFinal]
  | cons c cs =>
    rw [accepts_cons]
    refine (goesOn_digit fraction).trans ?_
    rw [accepts_fraction]
    constructor
    · rintro ⟨hc, ds, power, rfl, hd, hp⟩
      exact ⟨c :: ds, power, rfl, List.cons_ne_nil c ds, digits_cons.mpr ⟨hc, hd⟩, hp⟩
    · rintro ⟨ds, power, h, hne, hd, hp⟩
      cases ds with
      | nil => exact absurd rfl hne
      | cons d ds =>
        obtain ⟨rfl, rfl⟩ := List.cons.inj h
        obtain ⟨hc, hd⟩ := digits_cons.mp hd
        exact ⟨hc, ds, power, rfl, hd, hp⟩

theorem isEnd_cons : IsEnd (c :: cs) ↔ c = '.' ∧ Phase.point.Accepts cs ∨ IsPower (c :: cs) := by
  rw [Phase.accepts_point]
  constructor
  · rintro ⟨fraction, power, h, ⟨⟩ | ⟨hne, hd⟩, hp⟩
    · exact .inr (h ▸ hp)
    · obtain ⟨rfl, rfl⟩ := List.cons.inj h
      exact .inl ⟨rfl, _, power, rfl, hne, hd, hp⟩
  · rintro (⟨rfl, ds, power, rfl, hne, hd, hp⟩ | hp)
    · exact ⟨'.' :: ds, power, rfl, .digits hne hd, hp⟩
    · exact ⟨[], c :: cs, rfl, .absent, hp⟩

theorem not_isDigit_end (h : IsEnd (c :: cs)) : isDigit c = false := by
  rcases isEnd_cons.mp h with ⟨rfl, -⟩ | hp
  · rfl
  · exact not_isDigit_power hp

theorem Phase.goesOn_afterWhole : GoesOn next?.afterWhole? (c :: cs) ↔ IsEnd (c :: cs) := by
  rw [isEnd_cons, ← goesOn_afterFraction]
  by_cases h : c = '.'
  · subst h
    simp [GoesOn, next?.afterWhole?, next?.afterFraction?]
  · simp [GoesOn, next?.afterWhole?, h]

theorem isEnd_nil : IsEnd [] := ⟨[], [], rfl, .absent, .absent⟩

theorem Phase.accepts_zero : zero.Accepts cs ↔ IsEnd cs := by
  cases cs with
  | nil => exact ⟨fun _ => isEnd_nil, fun _ => accepts_nil.mpr rfl⟩
  | cons c cs => exact accepts_cons.trans goesOn_afterWhole

theorem Phase.accepts_whole : whole.Accepts cs ↔
    ∃ ds tail, cs = ds ++ tail ∧ Digits ds ∧ IsEnd tail := by
  apply accepts_iff_digits_append rfl
  · intro c hc
    simp [next?, hc]
  · exact isEnd_nil
  · intro c cs hc
    rw [← goesOn_afterWhole]
    simp [GoesOn, next?, hc]
  · exact fun c cs => not_isDigit_end

/-! ## A whole number -/

/-- What may come behind the sign. -/
def IsUnsigned (cs : List Char) : Prop :=
  ∃ whole tail, cs = whole ++ tail ∧ IsWhole whole ∧ IsEnd tail

theorem first_iff : '1' ≤ c ∧ c ≤ '9' ↔ isDigit c = true ∧ c ≠ '0' := by
  rw [isDigit_iff, ne_eq, Char.ext_iff, ← UInt32.toNat_inj]
  simp only [Char.le_def, UInt32.le_iff_toNat_le]
  have h0 : ('0' : Char).val.toNat = 48 := rfl
  have h1 : ('1' : Char).val.toNat = 49 := rfl
  omega

theorem Phase.goesOn_firstDigit : GoesOn next?.firstDigit? (c :: cs) ↔ IsUnsigned (c :: cs) := by
  constructor
  · rintro ⟨q, hq, h⟩
    simp only [next?.firstDigit?] at hq
    split at hq
    · next hc =>
      cases hq
      exact ⟨['0'], cs, by rw [hc]; rfl, .zero, accepts_zero.mp h⟩
    · next hc =>
      split at hq
      · next hdigit =>
        cases hq
        obtain ⟨ds, tail, rfl, hd, ht⟩ := accepts_whole.mp h
        exact ⟨c :: ds, tail, rfl, .digits (first_iff.mpr ⟨hdigit, hc⟩) hd, ht⟩
      · cases hq
  · rintro ⟨whole, tail, h, hw, ht⟩
    cases hw with
    | zero =>
      obtain ⟨rfl, rfl⟩ := List.cons.inj h
      exact ⟨zero, rfl, accepts_zero.mpr ht⟩
    | digits first hd =>
      obtain ⟨rfl, rfl⟩ := List.cons.inj h
      obtain ⟨hdigit, hc⟩ := first_iff.mp first
      exact ⟨.whole, by simp [next?.firstDigit?, hc, hdigit],
        accepts_whole.mpr ⟨_, tail, rfl, hd, ht⟩⟩

theorem not_isUnsigned_nil : ¬IsUnsigned [] := by
  rintro ⟨whole, tail, h, hw, -⟩
  obtain ⟨rfl, -⟩ := List.append_eq_nil_iff.mp h.symm
  cases hw

theorem not_isUnsigned_minus : ¬IsUnsigned ('-' :: cs) := by
  rintro ⟨whole, tail, h, ⟨⟩ | ⟨first, hd⟩, -⟩
  · cases (List.cons.inj h).1
  · obtain ⟨rfl, -⟩ := List.cons.inj h
    exact absurd first.1 (by decide)

theorem Phase.accepts_minus : minus.Accepts cs ↔ IsUnsigned cs := by
  cases cs with
  | nil => exact ⟨fun h => absurd (accepts_nil.mp h) nofun, fun h => absurd h not_isUnsigned_nil⟩
  | cons c cs => exact accepts_cons.trans goesOn_firstDigit

theorem isNumber_iff : IsNumber cs ↔ IsUnsigned cs ∨ ∃ ds, cs = '-' :: ds ∧ IsUnsigned ds := by
  constructor
  · rintro ⟨rfl | rfl, hw, hf, hp⟩
    · exact .inl ⟨_, _, by simp, hw, _, _, rfl, hf, hp⟩
    · exact .inr ⟨_, by simp, _, _, rfl, hw, _, _, rfl, hf, hp⟩
  · rintro (⟨whole, tail, rfl, hw, fraction, power, rfl, hf, hp⟩ |
      ⟨ds, rfl, whole, tail, rfl, hw, fraction, power, rfl, hf, hp⟩)
    · simpa using IsNumber.parts (.inl rfl) hw hf hp
    · simpa using IsNumber.parts (.inr rfl) hw hf hp

theorem Phase.accepts_start : start.Accepts cs ↔ IsNumber cs := by
  rw [isNumber_iff]
  cases cs with
  | nil =>
    rw [accepts_nil]
    simp [isFinal, not_isUnsigned_nil]
  | cons c cs =>
    rw [accepts_cons]
    by_cases hc : c = '-'
    · subst hc
      simp [GoesOn, next?, accepts_minus, not_isUnsigned_minus]
    · rw [← goesOn_firstDigit]
      simp [GoesOn, next?, hc]

/-! ## Scanning -/

/-- A number that has ended is not continued by a blank or a mark that may follow a value. -/
def Ends (rest : List Char) : Prop :=
  ∀ c ∈ rest.head?,
    (c = ' ' ∨ c = '\t' ∨ c = '\n' ∨ c = '\r') ∨ c = ',' ∨ c = ']' ∨ c = '\x7d'

theorem Phase.next?_of_ends (hq : q.isFinal = true) (h : Ends (c :: rest)) : q.next? c = none := by
  revert hq
  rcases h c rfl with (rfl | rfl | rfl | rfl) | rfl | rfl | rfl <;> cases q <;> decide

theorem scan?_append (h : p.Accepts n) (hrest : Ends rest) :
    scan? p done (n ++ rest) = some (done.reverse ++ n, rest) := by
  induction n generalizing p done with
  | nil =>
    have hfinal := Phase.accepts_nil.mp h
    cases rest with
    | nil => simp [scan?, hfinal]
    | cons c rest => simp [scan?, Phase.next?_of_ends hfinal hrest, hfinal]
  | cons c n ih =>
    obtain ⟨q, hq, hn⟩ := Phase.accepts_cons.mp h
    simp [scan?, hq, ih hn]

theorem exists_accepts_of_scan? {m : Numeral} (h : scan? p done cs = some (m, rest)) :
    ∃ n, m = done.reverse ++ n ∧ cs = n ++ rest ∧ p.Accepts n := by
  fun_induction scan? p done cs with
  | case1 p done hfinal =>
    cases h
    exact ⟨[], by simp, rfl, Phase.accepts_nil.mpr hfinal⟩
  | case2 => cases h
  | case3 p done c cs q hq ih =>
    obtain ⟨n, rfl, rfl, hn⟩ := ih h
    exact ⟨c :: n, by simp, rfl, Phase.accepts_cons.mpr ⟨q, hq, hn⟩⟩
  | case4 p done c cs hq hfinal =>
    cases h
    exact ⟨[], by simp, rfl, Phase.accepts_nil.mpr hfinal⟩
  | case5 => cases h

end Padwork.Json.Numeral
