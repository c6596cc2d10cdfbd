import Padwork.Proofs.Json.Number
import Padwork.Proofs.Json.Text

/-!
# Reading tokens

A scan takes one spelled token off a text. What is read of a whole text is a sequence of
spelled tokens with blanks between them. The other way round a token is read wherever it is
spelled, but a number only where a blank or a mark follows, and blanks are skipped.
-/
namespace Padwork.Json

theorem isBlank_iff {c : Char} : isBlank c = true ↔ c = ' ' ∨ c = '\t' ∨ c = '\n' ∨ c = '\r' := by
  simp [isBlank, or_assoc]

theorem blanks_takeWhile (cs : List Char) : Blanks (cs.takeWhile isBlank) := by
  intro c hc
  exact isBlank_iff.mp (List.all_eq_true.mp List.all_takeWhile c hc)

theorem dropWhile_blanks_append {ws : List Char} (h : Blanks ws) (cs : List Char) :
    (ws ++ cs).dropWhile isBlank = cs.dropWhile isBlank :=
  List.dropWhile_append_of_pos fun c hc => isBlank_iff.mpr (h c hc)

/-! ## One token -/

/-- The texts that spell a token. -/
inductive Token.Spells : Token → List Char → Prop where
  | arrayOpen : Spells .arrayOpen ['[']
  | arrayClose : Spells .arrayClose [']']
  | objectOpen : Spells .objectOpen ['\x7b']
  | objectClose : Spells .objectClose ['\x7d']
  | comma : Spells .comma [',']
  | colon : Spells .colon [':']
  | null : Spells .null ['n', 'u', 'l', 'l']
  | true : Spells (.bool true) ['t', 'r', 'u', 'e']
  | false : Spells (.bool false) ['f', 'a', 'l', 's', 'e']
  | number {n : Numeral} (h : n.IsNumber) : Spells (.number n) n
  | text {units : Units} {cs : List Char} (h : units.Spells cs) :
      Spells (.text units) ('"' :: cs ++ ['"'])

variable {cs rest : List Char} {t : Token} {done tokens : List Token}

theorem Numeral.IsNumber.exists_cons {n : Numeral} (h : n.IsNumber) :
    ∃ c tail, n = c :: tail ∧ (c = '-' ∨ isDigit c = true) := by
  have haccepts := Phase.accepts_start.mpr h
  cases n with
  | nil => exact absurd (Phase.accepts_nil.mp haccepts) nofun
  | cons c tail =>
    refine ⟨c, tail, rfl, ?_⟩
    obtain ⟨q, hq, -⟩ := Phase.accepts_cons.mp haccepts
    simp only [Phase.next?, Phase.next?.firstDigit?] at hq
    split at hq
    · next hc => exact .inl hc
    · split at hq
      · next hc => exact .inr (hc ▸ rfl)
      · split at hq
        · next hc => exact .inr hc
        · cases hq

/-- A number takes none of the other branches of a scan. -/
theorem Token.scan?_number {n : Numeral} (h : n.IsNumber) (rest : List Char) :
    scan? (n ++ rest) =
      (Numeral.scan? .start [] (n ++ rest)).map fun (numeral, rest) => (.number numeral, rest) := by
  obtain ⟨c, tail, rfl, hc⟩ := h.exists_cons
  rw [List.cons_append]
  unfold scan?
  split
  case h_11 => rfl
  all_goals
    next heq =>
    rw [(List.cons.inj heq).1] at hc
    exact absurd hc (by decide)

/-- Only a number depends on what follows it. -/
theorem Token.scan?_append (h : t.Spells cs) (hrest : ∀ n, t = .number n → Numeral.Ends rest) :
    scan? (cs ++ rest) = some (t, rest) := by
  cases h with
  | number h =>
    have haccepts := Numeral.Phase.accepts_start.mpr h
    rw [scan?_number h, Numeral.scan?_append haccepts (hrest _ rfl)]
    rfl
  | text h => simp [scan?, Units.scan?_append h]
  | _ => rfl

theorem Token.exists_spells_of_scan? (h : scan? cs = some (t, rest)) :
    ∃ body, cs = body ++ rest ∧ t.Spells body := by
  unfold scan? at h
  split at h
  case h_10 =>
    obtain ⟨⟨units, tail⟩, hunits, heq⟩ := Option.map_eq_some_iff.mp h
    obtain ⟨body, units', rfl, rfl, hspells⟩ := Units.exists_spells_of_scan? hunits
    cases heq
    exact ⟨_, by simp, .text hspells⟩
  case h_11 =>
    obtain ⟨⟨n, tail⟩, hn, heq⟩ := Option.map_eq_some_iff.mp h
    obtain ⟨n', hn', rfl, haccepts⟩ := Numeral.exists_accepts_of_scan? hn
    cases heq
    rw [hn']
    exact ⟨n', rfl, .number (Numeral.Phase.accepts_start.mp haccepts)⟩
  all_goals cases h
  · exact ⟨_, rfl, .arrayOpen⟩
  · exact ⟨_, rfl, .arrayClose⟩
  · exact ⟨_, rfl, .objectOpen⟩
  · exact ⟨_, rfl, .objectClose⟩
  · exact ⟨_, rfl, .comma⟩
  · exact ⟨_, rfl, .colon⟩
  · exact ⟨_, rfl, .null⟩
  · exact ⟨_, rfl, .true⟩
  · exact ⟨_, rfl, .false⟩

/-! ## All tokens -/

/-- The tokens stand in the text, with blanks around them. -/
inductive Lexes : List Char → List Token → Prop where
  | nil {ws : List Char} (blanks : Blanks ws) : Lexes ws []
  | cons {ws cs ds : List Char} {t : Token} {tokens : List Token} (blanks : Blanks ws)
      (token : t.Spells cs) (rest : Lexes ds tokens) : Lexes (ws ++ cs ++ ds) (t :: tokens)

theorem lex?_blanks {ws : List Char} (h : Blanks ws) : lex? done (ws ++ cs) = lex? done cs := by
  rw [lex?, lex?, dropWhile_blanks_append h]

theorem lex?_nil : lex? done [] = some done.reverse := by
  rw [lex?]
  rfl

theorem isBlank_of_isDigit {c : Char} (h : Numeral.isDigit c = true) : isBlank c = false := by
  rw [Bool.eq_false_iff, ne_eq, isBlank_iff]
  rintro (rfl | rfl | rfl | rfl) <;> cases h

theorem Token.exists_cons_of_spells (h : t.Spells cs) :
    ∃ c tail, cs = c :: tail ∧ isBlank c = false := by
  cases h with
  | number h =>
    obtain ⟨c, tail, rfl, rfl | hc⟩ := h.exists_cons
    · exact ⟨_, _, rfl, rfl⟩
    · exact ⟨c, tail, rfl, isBlank_of_isDigit hc⟩
  | _ => exact ⟨_, _, rfl, rfl⟩

theorem lex?_of_scan? {c : Char} {tail : List Char} (hdrop : cs.dropWhile isBlank = c :: tail)
    (hscan : Token.scan? (c :: tail) = some (t, rest)) : lex? done cs = lex? (t :: done) rest := by
  rw [lex?.eq_1 done]
  split
  · next hnil =>
    rw [hdrop] at hnil
    cases hnil
  · next hcons =>
    rw [hdrop] at hcons
    cases hcons
    split
    · next hnone =>
      rw [hscan] at hnone
      cases hnone
    · next hsome =>
      rw [hscan] at hsome
      cases hsome
      rfl

theorem lex?_token (h : t.Spells cs) (hrest : ∀ n, t = .number n → Numeral.Ends rest) :
    lex? done (cs ++ rest) = lex? (t :: done) rest := by
  obtain ⟨c, tail, rfl, hc⟩ := Token.exists_cons_of_spells h
  have hdrop : ((c :: tail) ++ rest).dropWhile isBlank = c :: (tail ++ rest) := by simp [hc]
  exact lex?_of_scan? hdrop (Token.scan?_append h hrest)

theorem exists_lexes_of_lex? {all : List Token} (h : lex? done cs = some all) :
    ∃ tokens, all = done.reverse ++ tokens ∧ Lexes cs tokens := by
  fun_induction lex? done cs with
  | case1 done cs hdrop =>
    cases h
    have hblanks := blanks_takeWhile cs
    have happend := List.takeWhile_append_dropWhile (p := isBlank) (l := cs)
    rw [hdrop, List.append_nil] at happend
    rw [happend] at hblanks
    exact ⟨[], by simp, .nil hblanks⟩
  | case2 => cases h
  | case3 done cs c tail hdrop t rest hscan ih =>
    obtain ⟨tokens, rfl, hlexes⟩ := ih h
    obtain ⟨body, hbody, hspells⟩ := Token.exists_spells_of_scan? hscan
    have happend := List.takeWhile_append_dropWhile (p := isBlank) (l := cs)
    rw [hdrop, hbody, ← List.append_assoc] at happend
    rw [← happend]
    exact ⟨t :: tokens, by simp, .cons (blanks_takeWhile cs) hspells hlexes⟩

end Padwork.Json
