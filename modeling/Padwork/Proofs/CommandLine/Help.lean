import Padwork.Proofs.CommandLine.Spelling

/-!
# Lines that ask for help

What stands before a request for help is read as far as it goes. Items that make a
command pass, and so does each part that comes first: behind the options of any run help
can be asked for, whatever follows.
-/
namespace Padwork.CommandLine

variable {items front back : List Item} {key : Key} {verb : Verb} {command : Command}
  {o : Overrides}

/-! ## Items that make a command -/

theorem fits_of_optional? {α : Type} {read? : String → Option α} {value? : Option α}
    (hkey : key.takesValue = true)
    (hread : ∀ text, (read? text).isSome = true → key.reads text = true)
    (h : optional? items key read? = some value?) : key.fits items = true := by
  rw [Key.fits, if_pos hkey]
  unfold optional? at h
  split at h
  · next heq =>
    rw [heq]
    rfl
  · next text heq =>
    obtain ⟨value, hvalue, -⟩ := Option.map_eq_some_iff.mp h
    have hreads := hread text (Option.isSome_of_eq_some hvalue)
    simp [heq, hreads]
  · cases h

theorem fits_of_required? {α : Type} {read? : String → Option α} {value : α}
    (hkey : key.takesValue = true)
    (hread : ∀ text, (read? text).isSome = true → key.reads text = true)
    (h : required? items key read? = some value) : key.fits items = true := by
  rw [required?, Option.join_eq_some_iff] at h
  exact fits_of_optional? hkey hread h

theorem fits_of_overrides? (h : overrides? items = some o) :
    ∀ key ∈ Key.shared, key.fits items = true := by
  simp only [overrides?, Option.bind_eq_bind, Option.bind_eq_some_iff] at h
  obtain ⟨_, hconfig, _, hrounds, _, hthreads, verbose, hverbose, -⟩ := h
  have hflag : Key.verbose.fits items = true := Option.isSome_of_eq_some hverbose
  simp [Key.shared, hflag, fits_of_optional? rfl (fun _ => id) hconfig,
    fits_of_optional? rfl (fun _ => id) hrounds, fits_of_optional? rfl (fun _ => id) hthreads]

theorem fits_of_template? {t : TemplateText} (h : template? items = some t) :
    ∀ key ∈ Key.template, key.fits items = true := by
  simp only [template?, Option.bind_eq_bind, Option.bind_eq_some_iff] at h
  obtain ⟨_, hprevious, _, hminer, _, hheader, _, htarget, -⟩ := h
  simp [Key.template, fits_of_required? rfl (fun _ _ => rfl) hprevious,
    fits_of_required? rfl (fun _ _ => rfl) hminer, fits_of_required? rfl (fun _ _ => rfl) hheader,
    fits_of_required? rfl (fun _ _ => rfl) htarget]

theorem fits_of_command? (h : command? verb items = some command) :
    (∀ key ∈ verb.keys, key.fits items = true) ∧ (wordsOf items).length ≤ verb.wordCount := by
  unfold command? at h
  -- one case for each command, and the last one for words that a command does not take
  split at h
  · obtain ⟨text, htext, h⟩ := Option.bind_eq_some_iff.mp h
    refine ⟨by simp [Verb.keys, fits_of_optional? rfl (fun _ _ => rfl) htext], ?_⟩
    split at h
    · next hwords =>
      rw [hwords]
      exact Nat.le_refl 1
    · next hwords =>
      rw [hwords]
      exact Nat.zero_le 1
    · cases h
  · next hwords =>
    obtain ⟨t, ht, h⟩ := Option.bind_eq_some_iff.mp h
    obtain ⟨nonce, hnonce, -⟩ := Option.bind_eq_some_iff.mp h
    have hfits : Key.nonce.fits items = true := fits_of_required? rfl (fun _ => id) hnonce
    rw [hwords]
    exact ⟨List.forall_mem_cons.mpr ⟨hfits, fits_of_template? ht⟩, Nat.le_refl 0⟩
  · next hwords =>
    obtain ⟨t, ht, h⟩ := Option.bind_eq_some_iff.mp h
    obtain ⟨start, hstart, h⟩ := Option.bind_eq_some_iff.mp h
    obtain ⟨count, hcount, -⟩ := Option.bind_eq_some_iff.mp h
    have hfits : Key.start.fits items = true := fits_of_optional? rfl (fun _ => id) hstart
    have hfits' : Key.nonceCount.fits items = true := fits_of_optional? rfl (fun _ => id) hcount
    rw [hwords]
    exact ⟨List.forall_mem_cons.mpr ⟨hfits, List.forall_mem_cons.mpr
      ⟨hfits', fits_of_template? ht⟩⟩, Nat.le_refl 0⟩
  · next hwords =>
    obtain ⟨count, hcount, -⟩ := Option.bind_eq_some_iff.mp h
    rw [hwords]
    exact ⟨by simp [Verb.keys, fits_of_optional? rfl (fun _ => id) hcount], Nat.le_refl 0⟩
  · next hwords =>
    rw [hwords]
    exact ⟨nofun, Nat.le_refl 0⟩
  · cases h

/-- Items that make up a run may stand before a request for help. -/
theorem acceptable_of_command? (ho : overrides? items = some o)
    (h : command? verb items = some command) : acceptable verb items = true := by
  obtain ⟨hown, hwords⟩ := fits_of_command? h
  simp only [acceptable, Bool.and_eq_true, List.all_eq_true, List.mem_append, decide_eq_true_eq]
  exact ⟨fun key hkey => hkey.elim (hown key) (fits_of_overrides? ho key), hwords⟩

/-! ## What comes first -/

theorem isSome_given?_iff : (given? items key).isSome = true ↔ items.count (.flag key) ≤ 1 := by
  unfold given?
  generalize items.count (.flag key) = count
  rcases count with _ | _ | count <;> simp

theorem fits_of_append (h : key.fits (front ++ back) = true) : key.fits front = true := by
  unfold Key.fits at h ⊢
  split
  · next hvalue =>
    simp only [if_pos hvalue, valuesOf_append, List.length_append, List.all_append,
      Bool.and_eq_true, decide_eq_true_eq] at h ⊢
    exact ⟨Nat.le_trans (Nat.le_add_right _ _) h.1, h.2.1⟩
  · next hflag =>
    rw [if_neg hflag, isSome_given?_iff, List.count_append] at h
    exact isSome_given?_iff.mpr (Nat.le_trans (Nat.le_add_right _ _) h)

theorem acceptable_of_append (h : acceptable verb (front ++ back) = true) :
    acceptable verb front = true := by
  simp only [acceptable, Bool.and_eq_true, List.all_eq_true, decide_eq_true_eq] at h ⊢
  obtain ⟨hkeys, hwords⟩ := h
  refine ⟨fun key hkey => fits_of_append (hkeys key hkey), Nat.le_trans ?_ hwords⟩
  rw [wordsOf, wordsOf, List.filterMap_append, List.length_append]
  exact Nat.le_add_right _ _

/-! ## Requests -/

theorem items?_help (level : Level) (rest : List String) :
    items? level .nothing ("--help" :: rest) = some ([], .help) := by
  have hshape : Shape.of "--help".toList = .long Key.help.long.toList none := rfl
  have hmem : Key.help ∈ level.keys := by cases level <;> simp [Level.keys]
  rw [items?.eq_def]
  simp only [hshape, ofLong?_long hmem]
  rfl

/-- Behind a command's name help is given just when what stands before the request may stand
there. -/
theorem ofArguments?_help (hitems : ∀ item ∈ items, item.IsOf (.command verb))
    (rest : List String) :
    Invocation.ofArguments? (verb.name :: (items.map Item.argument ++ "--help" :: rest)) =
      if acceptable verb items then some .help else none := by
  have houter : overrides? [] = some ⟨none, none, none, false⟩ := rfl
  have hown := items?_map_argument hitems (items?_help (.command verb) rest)
  rw [List.append_nil] at hown
  simp only [Invocation.ofArguments?, items?_outer_name, Option.bind_eq_bind, Option.bind_some,
    houter, if_neg (name_ne_help verb), ofName?_name, Invocation.ofCommand?, hown, if_true]

/-- Behind the options of a run help can be asked for, and behind any of them that come first. -/
theorem ofArguments?_help_of_line {o : Overrides} (ho : o.config ≠ some "")
    {command : Command} (h : o.items ++ command.items = front ++ back) (rest : List String) :
    Invocation.ofArguments?
        (command.verb.name :: (front.map Item.argument ++ "--help" :: rest)) = some .help := by
  have hacceptable := acceptable_of_command? (overrides?_lineItems ho command)
    (command?_lineItems o command)
  rw [lineItems, h, List.append_assoc] at hacceptable
  have hfront : ∀ item ∈ front, item.IsOf (.command command.verb) := fun item hitem =>
    isOf_items o command item (h ▸ List.mem_append_left back hitem)
  rw [ofArguments?_help hfront rest, if_pos (acceptable_of_append hacceptable)]

end Padwork.CommandLine
