import Padwork.Json.Value

/-!
# Tokens of a value

A value has one list of tokens. A reader that is fed this list has the value, whatever is
still open around it, and what a reader has been fed is always the list of what it holds. So
a list of tokens spells at most one value, and each value is spelled by one list.
-/
namespace Padwork.Json

mutual

def tokens : Json → List Token
  | .null => [.null]
  | .bool value => [.bool value]
  | .number numeral => [.number numeral]
  | .text units => [.text units]
  | .array elements => .arrayOpen :: (elementTokens elements ++ [.arrayClose])
  | .object members => .objectOpen :: (memberTokens members ++ [.objectClose])

def elementTokens : List Json → List Token
  | [] => []
  | [value] => tokens value
  | value :: next :: rest => tokens value ++ .comma :: elementTokens (next :: rest)

def memberTokens : List (Units × Json) → List Token
  | [] => []
  | [(key, value)] => .text key :: .colon :: tokens value
  | (key, value) :: next :: rest =>
    .text key :: .colon :: (tokens value ++ .comma :: memberTokens (next :: rest))

end

/-! ## A reader takes the tokens of a value -/

namespace Reader

/-- Fed these tokens, a reader is where the other is. -/
def Takes (r : Reader) (ts : List Token) (r' : Reader) : Prop := ts.foldlM feed r = some r'

variable {r r' r'' : Reader} {t : Token} {ts us : List Token}

theorem takes_nil : r.Takes [] r := rfl

theorem Takes.cons (ht : r.feed t = some r') (h : r'.Takes ts r'') : r.Takes (t :: ts) r'' := by
  simpa [Takes, ht] using h

theorem takes_singleton (ht : r.feed t = some r') : r.Takes [t] r' := takes_nil.cons ht

theorem Takes.append (h : r.Takes ts r') (h' : r'.Takes us r'') : r.Takes (ts ++ us) r'' := by
  rw [Takes, List.foldlM_append, show ts.foldlM feed r = some r' from h]
  exact h'

end Reader

theorem exists_tokens_cons (v : Json) : ∃ t ts, tokens v = t :: ts ∧ t ≠ .arrayClose := by
  cases v <;> exact ⟨_, _, rfl, by simp⟩

theorem exists_elementTokens_cons (v : Json) (vs : List Json) :
    ∃ t ts, elementTokens (v :: vs) = t :: ts ∧ t ≠ .arrayClose := by
  obtain ⟨t, ts, hv, hne⟩ := exists_tokens_cons v
  cases vs with
  | nil => exact ⟨t, ts, hv, hne⟩
  | cons next rest => exact ⟨t, _, by rw [elementTokens, hv, List.cons_append], hne⟩

/-- Behind the start of an array an element is taken as behind a comma. -/
theorem Reader.Takes.arrayStart {v : Json} {vs : List Json} {ts : List Token}
    {stack : List Frame} {r : Reader}
    (h : (valueDue (.array [] :: stack)).Takes (elementTokens (v :: vs) ++ ts) r) :
    (Reader.arrayStart stack).Takes (elementTokens (v :: vs) ++ ts) r := by
  obtain ⟨t, us, hv, hne⟩ := exists_elementTokens_cons v vs
  rw [hv, List.cons_append] at h ⊢
  simpa [Takes, feed, hne] using h

theorem Reader.Takes.objectStart {m : Units × Json} {ms : List (Units × Json)} {ts : List Token}
    {stack : List Frame} {r : Reader}
    (h : (keyDue [] stack).Takes (memberTokens (m :: ms) ++ ts) r) :
    (Reader.objectStart stack).Takes (memberTokens (m :: ms) ++ ts) r := by
  cases ms <;> exact h

open Reader in
mutual

/-- A value is taken whatever is open around it. -/
theorem takes_tokens : ∀ (v : Json) (stack : List Frame),
    (valueDue stack).Takes (tokens v) (.complete v stack)
  | .null, _ => rfl
  | .bool _, _ => rfl
  | .number _, _ => rfl
  | .text _, _ => rfl
  | .array [], _ => rfl
  | .array (v :: vs), stack =>
    .cons rfl (takes_elementTokens (v :: vs) (List.cons_ne_nil v vs) [] stack).arrayStart
  | .object [], _ => rfl
  | .object (m :: ms), stack =>
    .cons rfl (takes_memberTokens (m :: ms) (List.cons_ne_nil m ms) [] stack).objectStart

theorem takes_elementTokens : ∀ (vs : List Json), vs ≠ [] →
    ∀ (before : List Json) (stack : List Frame),
      (valueDue (.array before :: stack)).Takes (elementTokens vs ++ [.arrayClose])
        (.complete (.array (before.reverse ++ vs)) stack)
  | [], h, _, _ => absurd rfl h
  | [v], _, before, stack => by
    refine (takes_tokens v _).append (takes_singleton ?_)
    rw [feed, feedComplete, List.reverse_cons]
  | v :: next :: rest, _, before, stack => by
    have h := takes_elementTokens (next :: rest) (List.cons_ne_nil next rest) (v :: before) stack
    rw [List.reverse_cons, List.append_assoc] at h
    rw [elementTokens, List.append_assoc]
    exact (takes_tokens v _).append (.cons rfl h)

theorem takes_memberTokens : ∀ (ms : List (Units × Json)), ms ≠ [] →
    ∀ (before : List (Units × Json)) (stack : List Frame),
      (keyDue before stack).Takes (memberTokens ms ++ [.objectClose])
        (.complete (.object (before.reverse ++ ms)) stack)
  | [], h, _, _ => absurd rfl h
  | [(key, v)], _, before, stack => by
    refine .cons rfl (.cons rfl ((takes_tokens v _).append (takes_singleton ?_)))
    rw [feed, feedComplete, List.reverse_cons]
  | (key, v) :: next :: rest, _, before, stack => by
    have h :=
      takes_memberTokens (next :: rest) (List.cons_ne_nil next rest) ((key, v) :: before) stack
    rw [List.reverse_cons, List.append_assoc] at h
    rw [memberTokens, List.cons_append, List.cons_append, List.append_assoc]
    exact .cons rfl (.cons rfl ((takes_tokens v _).append (.cons rfl h)))

end

/-! ## A reader holds what it has taken -/

def commaElementTokens (vs : List Json) : List Token := vs.flatMap fun v => tokens v ++ [.comma]

def commaMemberTokens (ms : List (Units × Json)) : List Token :=
  ms.flatMap fun m => .text m.1 :: .colon :: (tokens m.2 ++ [.comma])

theorem elementTokens_append_singleton (vs : List Json) (v : Json) :
    elementTokens (vs ++ [v]) = commaElementTokens vs ++ tokens v := by
  induction vs with
  | nil => rfl
  | cons w vs ih =>
    rw [List.cons_append, commaElementTokens, List.flatMap_cons, ← commaElementTokens,
      List.append_assoc, ← ih]
    cases vs <;> simp [elementTokens]

theorem memberTokens_append_singleton (ms : List (Units × Json)) (key : Units) (v : Json) :
    memberTokens (ms ++ [(key, v)]) = commaMemberTokens ms ++ .text key :: .colon :: tokens v := by
  induction ms with
  | nil => rfl
  | cons m ms ih =>
    rw [List.cons_append, commaMemberTokens, List.flatMap_cons, ← commaMemberTokens,
      List.append_assoc, ← ih]
    cases ms <;> simp [memberTokens]

/-- The tokens of an open array or object up to the value that is being read. -/
def Frame.tokens : Frame → List Token
  | .array before => .arrayOpen :: commaElementTokens before.reverse
  | .object before key => .objectOpen :: (commaMemberTokens before.reverse ++ [.text key, .colon])

/-- The tokens of all that is open. -/
def stackTokens : List Frame → List Token
  | [] => []
  | frame :: stack => stackTokens stack ++ frame.tokens

/-- The tokens of what a reader holds. -/
def Reader.tokens : Reader → List Token
  | .valueDue stack => stackTokens stack
  | .arrayStart stack => stackTokens stack ++ [.arrayOpen]
  | .objectStart stack => stackTokens stack ++ [.objectOpen]
  | .keyDue before stack => stackTokens stack ++ .objectOpen :: commaMemberTokens before.reverse
  | .colonDue before key stack =>
    stackTokens stack ++ .objectOpen :: (commaMemberTokens before.reverse ++ [.text key])
  | .complete value stack => stackTokens stack ++ value.tokens

namespace Reader

variable {r r' : Reader} {t : Token}

theorem tokens_feedValue {stack : List Frame} (h : feedValue stack t = some r') :
    r'.tokens = stackTokens stack ++ [t] := by
  cases t <;> cases h <;> rfl

theorem tokens_feedKey {before : List (Units × Json)} {stack : List Frame}
    (h : feedKey before stack t = some r') :
    r'.tokens = stackTokens stack ++ .objectOpen :: (commaMemberTokens before.reverse ++ [t]) := by
  cases t <;> cases h
  rfl

theorem tokens_feedComplete {value : Json} {stack : List Frame}
    (h : feedComplete value stack t = some r') :
    r'.tokens = stackTokens stack ++ value.tokens ++ [t] := by
  unfold feedComplete at h
  split at h <;> cases h
  · simp [tokens, stackTokens, Frame.tokens, commaElementTokens]
  · simp [tokens, stackTokens, Frame.tokens, Json.tokens, elementTokens_append_singleton]
  · simp [tokens, stackTokens, Frame.tokens, commaMemberTokens]
  · simp [tokens, stackTokens, Frame.tokens, Json.tokens, memberTokens_append_singleton]

/-- A reader holds one token more when it is fed one. -/
theorem tokens_feed (h : r.feed t = some r') : r'.tokens = r.tokens ++ [t] := by
  cases r with
  | valueDue stack => exact tokens_feedValue h
  | arrayStart stack =>
    rw [feed] at h
    split at h
    · next ht =>
      cases h
      simp [tokens, Json.tokens, elementTokens, ht]
    · rw [tokens_feedValue h]
      simp [tokens, stackTokens, Frame.tokens, commaElementTokens]
  | objectStart stack =>
    rw [feed] at h
    split at h
    · next ht =>
      cases h
      simp [tokens, Json.tokens, memberTokens, ht]
    · rw [tokens_feedKey h]
      simp [tokens, commaMemberTokens]
  | keyDue before stack =>
    rw [tokens_feedKey h]
    simp [tokens]
  | colonDue before key stack =>
    rw [feed] at h
    split at h
    · next ht =>
      cases h
      simp [tokens, stackTokens, Frame.tokens, ht]
    · cases h
  | complete value stack => exact tokens_feedComplete h

theorem Takes.tokens_eq {ts : List Token} (h : r.Takes ts r') : r'.tokens = r.tokens ++ ts := by
  induction ts generalizing r with
  | nil =>
    cases h
    simp
  | cons t ts ih =>
    rw [Takes, List.foldlM_cons, Option.bind_eq_bind, Option.bind_eq_some_iff] at h
    obtain ⟨next, hnext, h⟩ := h
    rw [ih h, tokens_feed hnext, List.append_assoc]
    rfl

end Reader

/-- A value is spelled by its tokens and no others. -/
theorem ofTokens?_eq_some_iff {ts : List Token} {v : Json} :
    ofTokens? ts = some v ↔ ts = tokens v := by
  rw [ofTokens?, Option.bind_eq_some_iff]
  constructor
  · rintro ⟨r, htakes, hvalue⟩
    have htokens := Reader.Takes.tokens_eq htakes
    unfold Reader.value? at hvalue
    split at hvalue <;> cases hvalue
    simpa [Reader.tokens, Reader.start, stackTokens] using htokens.symm
  · rintro rfl
    exact ⟨.complete v [], takes_tokens v [], rfl⟩

end Padwork.Json
