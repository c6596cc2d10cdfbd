import Padwork.Proofs.Json.Token
import Padwork.Proofs.Json.Value

/-!
# Texts and values

A text is read as a value exactly if it spells the value by the grammar, with any blanks
between the tokens and any nesting. The tokens of a text decide this: a spelled text has the
tokens of its value, and a text with these tokens spells the value.
-/
namespace Padwork.Json

/-! ## A spelled text has the tokens of its value -/

def Phrase.tokens : Phrase → List Token
  | .value v => v.tokens
  | .element v => v.tokens
  | .elements vs => elementTokens vs
  | .member key v => .text key :: .colon :: v.tokens
  | .members ms => memberTokens ms

namespace Numeral

theorem ends_nil : Ends [] := nofun

theorem ends_comma (cs : List Char) : Ends (',' :: cs) := by simp [Ends]

theorem ends_arrayClose (cs : List Char) : Ends (']' :: cs) := by simp [Ends]

theorem ends_objectClose (cs : List Char) : Ends ('\x7d' :: cs) := by simp [Ends]

theorem Ends.blanks_append {ws rest : List Char} (hws : Blanks ws) (h : Ends rest) :
    Ends (ws ++ rest) := by
  cases ws with
  | nil => exact h
  | cons w ws =>
    intro c hc
    obtain rfl : w = c := Option.some.inj hc
    exact .inl (hws w List.mem_cons_self)

end Numeral

open Numeral

section Lexing

variable {first last : Token} {a b : Char} {cs rest : List Char} {ts done : List Token}

theorem lex?_mark (h : first.Spells [a]) (hne : ∀ n, first ≠ .number n) :
    lex? done (a :: cs) = lex? (first :: done) cs :=
  lex?_token h fun n hn => absurd hn (hne n)

/-- What stands between two marks is read between their tokens. -/
theorem lex?_between (hfirst : first.Spells [a]) (hlast : last.Spells [b])
    (hne : ∀ n, first ≠ .number n ∧ last ≠ .number n)
    (h : ∀ done, lex? done (cs ++ b :: rest) = lex? (ts.reverse ++ done) (b :: rest)) :
    lex? done (a :: cs ++ [b] ++ rest) = lex? ((first :: (ts ++ [last])).reverse ++ done) rest := by
  rw [List.cons_append, List.cons_append, lex?_mark hfirst fun n => (hne n).1, List.append_assoc,
    List.singleton_append, h, lex?_mark hlast fun n => (hne n).2]
  simp

end Lexing

/-- The tokens of a spelled stretch of text are read if no number at its end goes on. -/
theorem lex?_append {phrase : Phrase} {cs : List Char} (h : Spells phrase cs)
    {rest : List Char} (hrest : Ends rest) (done : List Token) :
    lex? done (cs ++ rest) = lex? (phrase.tokens.reverse ++ done) rest := by
  -- Behind an inner value comes not `rest` but the mark or the blanks that follow the value.
  induction h generalizing rest done with
  | null => exact lex?_token .null (by simp)
  | true => exact lex?_token .true (by simp)
  | false => exact lex?_token .false (by simp)
  | number h => exact lex?_token (.number h) fun _ _ => hrest
  | text h => exact lex?_token (.text h) (by simp)
  | emptyArray h => exact lex?_between .arrayOpen .arrayClose (by simp) fun _ => lex?_blanks h
  | array _ ih => exact lex?_between .arrayOpen .arrayClose (by simp) (ih (ends_arrayClose rest))
  | emptyObject h => exact lex?_between .objectOpen .objectClose (by simp) fun _ => lex?_blanks h
  | object _ ih =>
    exact lex?_between .objectOpen .objectClose (by simp) (ih (ends_objectClose rest))
  | element hb _ ha ih =>
    rw [List.append_assoc, List.append_assoc, lex?_blanks hb, ih (hrest.blanks_append ha),
      lex?_blanks ha]
    rfl
  | lastElement _ ih => exact ih hrest done
  | elements _ _ ih ihs =>
    rw [List.append_assoc, List.cons_append, ih (ends_comma _), lex?_mark .comma (by simp),
      ihs hrest]
    simp [Phrase.tokens, elementTokens]
  | member hb hk ha _ ih =>
    rw [List.append_assoc, List.append_assoc, List.append_assoc, lex?_blanks hb,
      lex?_token (.text hk) (by simp), lex?_blanks ha, List.cons_append, lex?_mark .colon (by simp),
      ih hrest]
    simp [Phrase.tokens]
  | lastMember _ ih => exact ih hrest done
  | members _ _ ih ihs =>
    rw [List.append_assoc, List.cons_append, ih (ends_comma _), lex?_mark .comma (by simp),
      ihs hrest]
    simp [Phrase.tokens, memberTokens]

/-! ## A text with the tokens of a value spells it -/

section Lexes

variable {cs : List Char} {t : Token} {ts us : List Token}

theorem Lexes.blanks (h : Lexes cs []) : Blanks cs := by
  cases h with
  | nil hblanks => exact hblanks

/-- The text is cut at the body of a token, with the blanks before it in the first part. -/
theorem Lexes.exists_at (h : Lexes cs (ts ++ t :: us)) :
    ∃ as body bs, cs = as ++ body ++ bs ∧ Lexes as ts ∧ t.Spells body ∧ Lexes bs us := by
  induction ts generalizing cs with
  | nil =>
    cases h with
    | cons hblanks ht hrest => exact ⟨_, _, _, rfl, .nil hblanks, ht, hrest⟩
  | cons u ts ih =>
    cases h with
    | @cons ws body ds _ _ hblanks hu hrest =>
      obtain ⟨as, body', bs, rfl, has, ht, hbs⟩ := ih hrest
      exact ⟨ws ++ body ++ as, body', bs, by simp, .cons hblanks hu has, ht, hbs⟩

theorem Lexes.exists_first (h : Lexes cs (t :: ts)) :
    ∃ ws body ds, cs = ws ++ body ++ ds ∧ Blanks ws ∧ t.Spells body ∧ Lexes ds ts := by
  cases h with
  | cons hblanks ht hrest => exact ⟨_, _, _, rfl, hblanks, ht, hrest⟩

theorem Lexes.exists_between {first last : Token} (h : Lexes cs (first :: (ts ++ [last]))) :
    ∃ before a ds b after, cs = before ++ (a ++ ds ++ b) ++ after ∧ Blanks before ∧
      first.Spells a ∧ Lexes ds ts ∧ last.Spells b ∧ Blanks after := by
  obtain ⟨before, a, _, rfl, hbefore, ha, hrest⟩ := h.exists_first
  obtain ⟨ds, b, after, rfl, hds, hb, hafter⟩ := hrest.exists_at
  exact ⟨before, a, ds, b, after, by simp, hbefore, ha, hds, hb, hafter.blanks⟩

/-- A value of one token is an element if its spellings are those of the token. -/
theorem spells_element_of_token {v : Json} (hv : ∀ body, t.Spells body → Spells (.value v) body)
    (h : Lexes cs [t]) : Spells (.element v) cs := by
  obtain ⟨before, body, after, rfl, hbefore, ht, hafter⟩ := h.exists_first
  exact .element hbefore (hv body ht) hafter.blanks

theorem spells_member {key : Units} {v : Json}
    (hv : ∀ ds, Lexes ds (tokens v) → Spells (.element v) ds)
    (h : Lexes cs (.text key :: .colon :: tokens v)) : Spells (.member key v) cs := by
  obtain ⟨before, _, _, rfl, hbefore, hkey, hrest⟩ := h.exists_first
  obtain ⟨after, _, ds, rfl, hafter, ⟨⟩, hds⟩ := hrest.exists_first
  cases hkey with
  | text hkey => simpa using Spells.member hbefore hkey hafter (hv ds hds)

end Lexes

mutual

theorem spells_of_lexes : ∀ (v : Json) (cs : List Char), Lexes cs (tokens v) →
    Spells (.element v) cs
  | .null, _, h => spells_element_of_token (fun | _, .null => .null) h
  | .bool true, _, h => spells_element_of_token (fun | _, .true => .true) h
  | .bool false, _, h => spells_element_of_token (fun | _, .false => .false) h
  | .number _, _, h => spells_element_of_token (fun _ ht => by cases ht; exact .number ‹_›) h
  | .text _, _, h => spells_element_of_token (fun _ ht => by cases ht; exact .text ‹_›) h
  | .array [], _, h => by
    obtain ⟨before, _, ds, _, after, rfl, hbefore, ⟨⟩, hds, ⟨⟩, hafter⟩ := Lexes.exists_between h
    exact .element hbefore (.emptyArray hds.blanks) hafter
  | .array (v :: vs), _, h => by
    obtain ⟨before, _, ds, _, after, rfl, hbefore, ⟨⟩, hds, ⟨⟩, hafter⟩ := Lexes.exists_between h
    have hvs := spells_elements_of_lexes (v :: vs) (List.cons_ne_nil v vs) ds hds
    exact .element hbefore (.array hvs) hafter
  | .object [], _, h => by
    obtain ⟨before, _, ds, _, after, rfl, hbefore, ⟨⟩, hds, ⟨⟩, hafter⟩ := Lexes.exists_between h
    exact .element hbefore (.emptyObject hds.blanks) hafter
  | .object (m :: ms), _, h => by
    obtain ⟨before, _, ds, _, after, rfl, hbefore, ⟨⟩, hds, ⟨⟩, hafter⟩ := Lexes.exists_between h
    have hms := spells_members_of_lexes (m :: ms) (List.cons_ne_nil m ms) ds hds
    exact .element hbefore (.object hms) hafter

theorem spells_elements_of_lexes : ∀ (vs : List Json), vs ≠ [] → ∀ (cs : List Char),
    Lexes cs (elementTokens vs) → Spells (.elements vs) cs
  | [], h, _, _ => absurd rfl h
  | [v], _, cs, h => .lastElement (spells_of_lexes v cs h)
  | v :: next :: vs, _, _, h => by
    obtain ⟨as, _, bs, rfl, has, ⟨⟩, hbs⟩ := Lexes.exists_at h
    have hv := spells_of_lexes v as has
    have hrest := spells_elements_of_lexes (next :: vs) (List.cons_ne_nil next vs) bs hbs
    simpa using Spells.elements hv hrest

theorem spells_members_of_lexes : ∀ (ms : List (Units × Json)), ms ≠ [] → ∀ (cs : List Char),
    Lexes cs (memberTokens ms) → Spells (.members ms) cs
  | [], h, _, _ => absurd rfl h
  | [(_, v)], _, _, h => .lastMember (spells_member (spells_of_lexes v) h)
  | (key, v) :: next :: ms, _, _, h => by
    -- The key and the colon belong to the part before the comma.
    rw [memberTokens, ← List.cons_append, ← List.cons_append] at h
    obtain ⟨as, _, bs, rfl, has, ⟨⟩, hbs⟩ := h.exists_at
    have hm := spells_member (spells_of_lexes v) has
    have hrest := spells_members_of_lexes (next :: ms) (List.cons_ne_nil next ms) bs hbs
    simpa using Spells.members hm hrest

end

/-! ## Reading a text -/

/-- A text is read as a value exactly if it spells the value. -/
theorem parse?_eq_some_iff {text : String} {v : Json} :
    parse? text = some v ↔ Spells (.element v) text.toList := by
  rw [parse?, tokens?, Option.bind_eq_some_iff]
  simp only [ofTokens?_eq_some_iff]
  constructor
  · rintro ⟨_, hlex, rfl⟩
    obtain ⟨_, rfl, hlexes⟩ := exists_lexes_of_lex? hlex
    exact spells_of_lexes v _ hlexes
  · intro h
    refine ⟨tokens v, ?_, rfl⟩
    have hlex := lex?_append h ends_nil []
    rw [List.append_nil, List.append_nil, lex?_nil, List.reverse_reverse] at hlex
    exact hlex

end Padwork.Json
