import Padwork.CommandLine.Invocation

/-!
# Lines that ask for a run

Each run has a line of arguments that asks for it: the command's name, the options with
their values behind signs of equality, and the words behind two dashes. A value may be
any text this way, also one that looks like an option.
-/
namespace Padwork.CommandLine

/-! ## Numbers -/

theorem value?_cons_of_digitValue? {c : Char} (h : Decimal.digitValue? c = none) (cs : List Char) :
    Decimal.value? (c :: cs) = none := by
  simp [Decimal.value?, Decimal.append?, h]

theorem unsigned?_render {max n : Nat} (h : n ≤ max) :
    unsigned? max (Decimal.render n) = some n := by
  have hvalue := Decimal.value?_digits n
  unfold unsigned?
  rw [Decimal.render, String.toList_ofList]
  split
  · next digits heq =>
    -- a number is written without a sign
    rw [heq, value?_cons_of_digitValue? rfl] at hvalue
    cases hvalue
  · simp [hvalue, h]

def wordText (w : UInt64) : String := Decimal.render w.toNat

theorem word?_wordText (w : UInt64) : word? (wordText w) = some w := by
  rw [word?, wordText, unsigned?_render (Nat.le_sub_one_of_lt w.toNat_lt_size), Option.map_some,
    UInt64.ofNat_toNat]

theorem count?_render (n : UInt32) : count? (Decimal.render n.toNat) = some n := by
  have hvalue := Decimal.value?_digits n.toNat
  have hunsigned := unsigned?_render (Nat.le_sub_one_of_lt n.toNat_lt_size)
  unfold count? signed?
  split
  · next digits heq =>
    rw [Decimal.render, String.toList_ofList] at heq
    rw [heq, value?_cons_of_digitValue? rfl] at hvalue
    cases hvalue
  · rw [hunsigned, Option.map_some, UInt32.ofNat_toNat]

/-! ## Items as arguments -/

/-- The argument that spells an item. An option has its value attached. -/
def Item.argument : Item → String
  | .flag key => "--" ++ key.long
  | .option key value => "--" ++ key.long ++ "=" ++ value
  | .word text => text

def Item.IsOf (level : Level) : Item → Prop
  | .flag key => key ∈ level.keys ∧ key = .verbose
  | .option key _ => key ∈ level.keys ∧ key.takesValue = true
  | .word _ => False

theorem ofLong?_long {level : Level} {key : Key} (h : key ∈ level.keys) :
    level.ofLong? key.long.toList = some key := by
  revert h key
  cases level with
  | outer => decide
  | command verb => cases verb <;> decide

theorem equals_notMem_long (key : Key) : '=' ∉ key.long.toList := by
  cases key <;> decide

theorem Shape.of_dashes {body : List Char} (h : body ≠ []) :
    Shape.of ('-' :: '-' :: body) =
      .long (body.takeWhile (· != '=')) (body.dropWhile (· != '=')).tail? := by
  cases body with
  | nil => exact absurd rfl h
  | cons c body => rfl

/-- A long option is split at the first sign of equality, and its name has none. -/
theorem Shape.of_option (key : Key) (value : String) :
    Shape.of ("--" ++ key.long ++ "=" ++ value).toList =
      .long key.long.toList (some value.toList) := by
  have hname : ∀ c ∈ key.long.toList, (c != '=') = true := by
    intro c hc
    exact bne_iff_ne.mpr fun h => equals_notMem_long key (h ▸ hc)
  have hlist : ("--" ++ key.long ++ "=" ++ value).toList =
      '-' :: '-' :: (key.long.toList ++ '=' :: value.toList) := by simp
  rw [hlist, Shape.of_dashes (by simp), List.takeWhile_append_of_pos hname,
    List.dropWhile_append_of_pos hname]
  simp

theorem Shape.of_flag (key : Key) :
    Shape.of ("--" ++ key.long).toList = .long key.long.toList none := by
  cases key <;> rfl

/-- The argument of a flag or an option gives the item back. -/
theorem items?_argument {level : Level} {item : Item} (h : item.IsOf level) (rest : List String) :
    items? level .nothing (item.argument :: rest) = behind item (items? level .nothing rest) := by
  rw [items?.eq_def]
  cases item with
  | flag key =>
    obtain ⟨hmem, rfl⟩ := h
    simp only [Item.argument, Shape.of_flag, ofLong?_long hmem]
    rfl
  | option key value =>
    obtain ⟨hmem, hvalue⟩ := h
    simp only [Item.argument, Shape.of_option, ofLong?_long hmem, hvalue, String.ofList_toList]
  | word text => cases h

/-- The arguments of flags and options give them back in order, before what follows. -/
theorem items?_map_argument {level : Level} {items following : List Item} {ending : Ending}
    {rest : List String} (h : ∀ item ∈ items, item.IsOf level)
    (hrest : items? level .nothing rest = some (following, ending)) :
    items? level .nothing (items.map Item.argument ++ rest) =
      some (items ++ following, ending) := by
  induction items with
  | nil => exact hrest
  | cons item items ih =>
    obtain ⟨hitem, hitems⟩ := List.forall_mem_cons.mp h
    rw [List.map_cons, List.cons_append, items?_argument hitem, ih hitems]
    rfl

/-! ## Lines -/

/-- An option that need not be given. -/
def itemsOf (key : Key) (value? : Option String) : List Item := value?.toList.map (.option key)

def Overrides.items (o : Overrides) : List Item :=
  itemsOf .config o.config ++
    itemsOf .rounds (o.rounds.map wordText) ++ itemsOf .threads (o.threads.map wordText) ++
    (if o.verbose then [.flag .verbose] else [])

def TemplateText.items (t : TemplateText) : List Item :=
  [.option .previousHash t.previousHash, .option .minerAddress t.minerAddress,
    .option .header t.header, .option .target t.target]

def Command.verb : Command → Verb
  | .hash _ => .hash
  | .verify _ _ => .verify
  | .mine _ _ _ => .mine
  | .benchmark _ => .benchmark
  | .params => .params

def Command.items : Command → List Item
  | .hash (.hex _) | .params => []
  | .hash (.text text) => [.option .text text]
  | .verify t nonce => t.items ++ [.option .nonce (wordText nonce)]
  | .mine t start count =>
    t.items ++ .option .start (wordText start) :: itemsOf .nonceCount (count.map wordText)
  | .benchmark count => [.option .runCount (Decimal.render count.toNat)]

def Command.words : Command → List String
  | .hash (.hex digits) => [digits]
  | _ => []

def argumentsOf (o : Overrides) (command : Command) : List String :=
  (o.items ++ command.items).map Item.argument ++
    if command.words.isEmpty then [] else "--" :: command.words

def line (o : Overrides) (command : Command) : List String :=
  command.verb.name :: argumentsOf o command

theorem ofName?_name (verb : Verb) : Verb.ofName? verb.name = some verb := by
  cases verb <;> decide

theorem name_ne_help (verb : Verb) : verb.name ≠ "help" := by
  cases verb <;> decide

theorem items?_outer_name (verb : Verb) (rest : List String) :
    items? .outer .nothing (verb.name :: rest) = some ([], .command verb.name rest) := by
  have hshape : Shape.of verb.name.toList = .word := by cases verb <;> decide
  rw [items?.eq_def]
  simp only [hshape]

theorem isOf_itemsOf {level : Level} {key : Key} (hmem : key ∈ level.keys)
    (hvalue : key.takesValue = true) (value? : Option String) :
    ∀ item ∈ itemsOf key value?, item.IsOf level := by
  intro item hitem
  obtain ⟨value, -, rfl⟩ := List.mem_map.mp hitem
  exact ⟨hmem, hvalue⟩

theorem Overrides.isOf_items (o : Overrides) (verb : Verb) :
    ∀ item ∈ o.items, item.IsOf (.command verb) := by
  have hshared : ∀ key ∈ Key.shared, key ∈ (Level.command verb).keys := by
    cases verb <;> decide
  intro item hitem
  simp only [items, List.mem_append] at hitem
  rcases hitem with ((hitem | hitem) | hitem) | hitem
  · exact isOf_itemsOf (hshared _ (by decide)) rfl _ item hitem
  · exact isOf_itemsOf (hshared _ (by decide)) rfl _ item hitem
  · exact isOf_itemsOf (hshared _ (by decide)) rfl _ item hitem
  · split at hitem
    · rw [List.mem_singleton.mp hitem]
      exact ⟨hshared _ (by decide), rfl⟩
    · cases hitem

theorem TemplateText.isOf_items (t : TemplateText) {verb : Verb}
    (h : ∀ key ∈ Key.template, key ∈ (Level.command verb).keys) :
    ∀ item ∈ t.items, item.IsOf (.command verb) := by
  intro item hitem
  simp only [items, List.mem_cons, List.not_mem_nil, or_false] at hitem
  rcases hitem with rfl | rfl | rfl | rfl
  all_goals exact ⟨h _ (by decide), rfl⟩

theorem Command.isOf_items (command : Command) :
    ∀ item ∈ command.items, item.IsOf (.command command.verb) := by
  intro item hitem
  cases command with
  | hash source =>
    cases source with
    | hex digits => cases hitem
    | text text =>
      rw [verb]
      rw [List.mem_singleton.mp hitem]
      exact ⟨by decide, rfl⟩
  | verify t nonce =>
    rw [verb]
    rcases List.mem_append.mp hitem with hitem | hitem
    · exact t.isOf_items (by decide) item hitem
    · rw [List.mem_singleton.mp hitem]
      exact ⟨by decide, rfl⟩
  | mine t start count =>
    rw [verb]
    rcases List.mem_append.mp hitem with hitem | hitem
    · exact t.isOf_items (by decide) item hitem
    · rcases List.mem_cons.mp hitem with rfl | hitem
      · exact ⟨by decide, rfl⟩
      · exact isOf_itemsOf (by decide) rfl _ item hitem
  | benchmark count =>
    rw [verb]
    rw [List.mem_singleton.mp hitem]
    exact ⟨by decide, rfl⟩
  | params => cases hitem

theorem isOf_items (o : Overrides) (command : Command) :
    ∀ item ∈ o.items ++ command.items, item.IsOf (.command command.verb) := by
  intro item hitem
  rcases List.mem_append.mp hitem with hitem | hitem
  · exact o.isOf_items command.verb item hitem
  · exact command.isOf_items item hitem

/-- The words behind two dashes are read as they stand. -/
theorem items?_words (verb : Verb) (words : List String) :
    items? (.command verb) .nothing (if words.isEmpty then [] else "--" :: words) =
      some (words.map .word, .done) := by
  cases words with
  | nil => rw [List.isEmpty_nil, if_pos rfl, items?.eq_def]; rfl
  | cons word words =>
    have hshape : Shape.of "--".toList = .endOfOptions := rfl
    rw [List.isEmpty_cons, if_neg (by decide), items?.eq_def]
    simp only [hshape]

/-- The items of a line behind the command's name. -/
def lineItems (o : Overrides) (command : Command) : List Item :=
  o.items ++ command.items ++ command.words.map .word

theorem items?_argumentsOf (o : Overrides) (command : Command) :
    items? (.command command.verb) .nothing (argumentsOf o command) =
      some (lineItems o command, .done) :=
  items?_map_argument (isOf_items o command) (items?_words command.verb command.words)

/-! ## What a line asks for -/

@[simp] theorem valuesOf_append (first second : List Item) (key : Key) :
    valuesOf (first ++ second) key = valuesOf first key ++ valuesOf second key :=
  List.filterMap_append

@[simp] theorem valuesOf_nil (key : Key) : valuesOf [] key = [] := rfl

@[simp] theorem valuesOf_cons (other key : Key) (value : String) (items : List Item) :
    valuesOf (.option other value :: items) key =
      if other = key then value :: valuesOf items key else valuesOf items key := by
  by_cases h : other = key <;> simp [valuesOf, h]

@[simp] theorem valuesOf_itemsOf (other key : Key) (value? : Option String) :
    valuesOf (itemsOf other value?) key = if other = key then value?.toList else [] := by
  cases value? with
  | none => simp [itemsOf]
  | some value => exact valuesOf_cons other key value []

@[simp] theorem valuesOf_verbose (verbose : Bool) (key : Key) :
    valuesOf (if verbose then [.flag .verbose] else []) key = [] := by
  cases verbose <;> rfl

@[simp] theorem valuesOf_words (words : List String) (key : Key) :
    valuesOf (words.map .word) key = [] := by
  simp [valuesOf, List.filterMap_map]

/-- No command has an option of its own that all commands take. -/
theorem valuesOf_command (command : Command) {key : Key} (h : key ∈ Key.shared) :
    valuesOf command.items key = [] := by
  simp only [Key.shared, List.mem_cons, List.not_mem_nil, or_false] at h
  rcases command with ⟨digits | text⟩ | _ | _ | _ | _ <;> rcases h with rfl | rfl | rfl | rfl <;>
    simp [Command.items, TemplateText.items]

theorem valuesOf_lineItems (o : Overrides) (command : Command) (key : Key) :
    valuesOf (lineItems o command) key = valuesOf o.items key ++ valuesOf command.items key := by
  simp [lineItems]

theorem valuesOf_shared (o : Overrides) (command : Command) {key : Key} (h : key ∈ Key.shared) :
    valuesOf (lineItems o command) key = valuesOf o.items key := by
  rw [valuesOf_lineItems, valuesOf_command command h, List.append_nil]

theorem valuesOf_own (o : Overrides) (command : Command) {key : Key} (h : key ∉ Key.shared) :
    valuesOf (lineItems o command) key = valuesOf command.items key := by
  simp only [Key.shared, List.mem_cons, List.not_mem_nil, or_false, not_or] at h
  obtain ⟨hconfig, hrounds, hthreads, -⟩ := h
  simp [valuesOf_lineItems, Overrides.items, Ne.symm hconfig, Ne.symm hrounds, Ne.symm hthreads]

theorem wordsOf_eq_nil {level : Level} {items : List Item} (h : ∀ item ∈ items, item.IsOf level) :
    wordsOf items = [] := by
  rw [wordsOf, List.filterMap_eq_nil_iff]
  intro item hitem
  cases item with
  | flag key => rfl
  | option key value => rfl
  | word text => cases h _ hitem

theorem wordsOf_words (words : List String) : wordsOf (words.map .word) = words := by
  rw [wordsOf, List.filterMap_map]
  exact List.filterMap_some

theorem wordsOf_lineItems (o : Overrides) (command : Command) :
    wordsOf (lineItems o command) = command.words := by
  have hshared := wordsOf_eq_nil (o.isOf_items command.verb)
  have hown := wordsOf_eq_nil command.isOf_items
  have hwords := wordsOf_words command.words
  rw [wordsOf] at hshared hown hwords ⊢
  rw [lineItems, List.filterMap_append, List.filterMap_append, hshared, hown, hwords]
  rfl

theorem count_verbose_itemsOf (key : Key) (value? : Option String) :
    (itemsOf key value?).count (.flag .verbose) = 0 := by
  cases value? <;> simp [itemsOf]

theorem count_verbose_lineItems (o : Overrides) (command : Command) :
    (lineItems o command).count (.flag .verbose) = if o.verbose then 1 else 0 := by
  have hown : command.items.count (.flag .verbose) = 0 := by
    rcases command with ⟨digits | text⟩ | _ | _ | _ | _ <;>
      simp [Command.items, TemplateText.items, count_verbose_itemsOf]
  have hwords : (command.words.map Item.word).count (.flag .verbose) = 0 := by
    simp [List.count_eq_zero]
  rw [lineItems, Overrides.items]
  simp only [List.count_append, count_verbose_itemsOf, hown, hwords]
  cases o.verbose <;> rfl

section
variable {α : Type} {items : List Item} {key : Key} {read? : String → Option α}

theorem optional?_of_valuesOf (write : α → String) {value? : Option α}
    (h : valuesOf items key = (value?.map write).toList)
    (hread : ∀ value, value? = some value → read? (write value) = some value) :
    optional? items key read? = some value? := by
  cases value? with
  | none =>
    rw [optional?, h]
    rfl
  | some value =>
    rw [optional?, h]
    simp [hread value rfl]

theorem required?_of_valuesOf (write : α → String) {value : α}
    (h : valuesOf items key = [write value]) (hread : read? (write value) = some value) :
    required? items key read? = some value := by
  have hoptional : optional? items key read? = some (some value) :=
    optional?_of_valuesOf write h fun _ heq => Option.some.inj heq ▸ hread
  rw [required?, hoptional]
  rfl

end

theorem overrides?_lineItems {o : Overrides} (ho : o.config ≠ some "") (command : Command) :
    overrides? (lineItems o command) = some o := by
  have hconfig : optional? (lineItems o command) .config path? = some o.config := by
    refine optional?_of_valuesOf id ?_ ?_
    · rw [valuesOf_shared o command (by decide)]
      simp [Overrides.items]
    · intro path hpath
      have hne : path ≠ "" := fun h => ho (h ▸ hpath)
      simp [path?, hne]
  have hrounds : optional? (lineItems o command) .rounds word? = some o.rounds := by
    refine optional?_of_valuesOf wordText ?_ fun n _ => word?_wordText n
    rw [valuesOf_shared o command (by decide)]
    simp [Overrides.items]
  have hthreads : optional? (lineItems o command) .threads word? = some o.threads := by
    refine optional?_of_valuesOf wordText ?_ fun n _ => word?_wordText n
    rw [valuesOf_shared o command (by decide)]
    simp [Overrides.items]
  have hverbose : given? (lineItems o command) .verbose = some o.verbose := by
    rw [given?, count_verbose_lineItems]
    cases o.verbose <;> rfl
  rw [overrides?, hconfig, hrounds, hthreads, hverbose]
  rfl

theorem ne_of_mem_template {key other : Key} (h : key ∈ Key.template)
    (hother : other ∉ Key.template) : other ≠ key := by
  rintro rfl
  exact hother h

theorem template?_lineItems (o : Overrides) (command : Command) {t : TemplateText}
    {more : List Item} (h : command.items = t.items ++ more)
    (hmore : ∀ key ∈ Key.template, valuesOf more key = []) :
    template? (lineItems o command) = some t := by
  have hvalue (key : Key) {text : String} (hkey : key ∈ Key.template) (hown : key ∉ Key.shared)
      (htext : valuesOf t.items key = [text]) :
      required? (lineItems o command) key some = some text := by
    refine required?_of_valuesOf id ?_ rfl
    rw [valuesOf_own o command hown, h, valuesOf_append, htext, hmore key hkey]
    rfl
  have hprevious := hvalue .previousHash (by decide) (by decide) rfl
  have hminer := hvalue .minerAddress (by decide) (by decide) rfl
  have hheader := hvalue .header (by decide) (by decide) rfl
  have htarget := hvalue .target (by decide) (by decide) rfl
  rw [template?, hprevious, hminer, hheader, htarget]
  rfl

theorem command?_lineItems (o : Overrides) (command : Command) :
    command? command.verb (lineItems o command) = some command := by
  have hwords := wordsOf_lineItems o command
  unfold command?
  rw [hwords]
  cases command with
  | hash source =>
    cases source with
    | hex digits =>
      have htext : optional? (lineItems o (.hash (.hex digits))) .text some = some none := by
        refine optional?_of_valuesOf id ?_ nofun
        rw [valuesOf_own _ _ (by decide)]
        rfl
      simp only [Command.verb, Command.words, htext]
      rfl
    | text text =>
      have htext : optional? (lineItems o (.hash (.text text))) .text some = some (some text) := by
        refine optional?_of_valuesOf id ?_ fun _ _ => rfl
        rw [valuesOf_own _ _ (by decide)]
        rfl
      simp only [Command.verb, Command.words, htext]
      rfl
  | verify t nonce =>
    have ht : template? (lineItems o (.verify t nonce)) = some t := by
      refine template?_lineItems o _ rfl fun key hkey => ?_
      simp [ne_of_mem_template hkey (by decide : Key.nonce ∉ Key.template)]
    have hnonce : required? (lineItems o (.verify t nonce)) .nonce word? = some nonce := by
      refine required?_of_valuesOf wordText ?_ (word?_wordText nonce)
      rw [valuesOf_own _ _ (by decide)]
      rfl
    simp only [Command.verb, Command.words, ht, hnonce]
    rfl
  | mine t start count =>
    have ht : template? (lineItems o (.mine t start count)) = some t := by
      refine template?_lineItems o _ rfl fun key hkey => ?_
      simp [ne_of_mem_template hkey (by decide : Key.start ∉ Key.template),
        ne_of_mem_template hkey (by decide : Key.nonceCount ∉ Key.template)]
    have hstart : optional? (lineItems o (.mine t start count)) .start word? =
        some (some start) := by
      refine optional?_of_valuesOf wordText ?_ fun n _ => word?_wordText n
      rw [valuesOf_own _ _ (by decide)]
      simp [Command.items, TemplateText.items]
    have hcount : optional? (lineItems o (.mine t start count)) .nonceCount word? =
        some count := by
      refine optional?_of_valuesOf wordText ?_ fun n _ => word?_wordText n
      rw [valuesOf_own _ _ (by decide)]
      simp [Command.items, TemplateText.items]
    simp only [Command.verb, Command.words, ht, hstart, hcount]
    rfl
  | benchmark count =>
    have hcount : optional? (lineItems o (.benchmark count)) .runCount count? =
        some (some count) := by
      refine optional?_of_valuesOf (fun n => Decimal.render n.toNat) ?_ fun n _ => ?_
      · rw [valuesOf_own _ _ (by decide)]
        rfl
      · exact count?_render n
    simp only [Command.verb, Command.words, hcount]
    rfl
  | params => rfl

theorem Overrides.within_none (o : Overrides) : o.within ⟨none, none, none, false⟩ = o := by
  simp [within]

/-! ## Lines that ask for a run -/

section
variable {arguments rest : List String} {outer o : Overrides} {verb : Verb} {command : Command}

theorem ofHelp?_ne_run (rest : List String) (o : Overrides) (command : Command) :
    Invocation.ofHelp? rest ≠ some (.run o command) := by
  unfold Invocation.ofHelp?
  split
  · nofun
  · split <;> nofun
  · nofun

theorem ofCommand?_eq_run_iff :
    Invocation.ofCommand? outer verb rest = some (.run o command) ↔
      ∃ items ending inner, items? (.command verb) .nothing rest = some (items, ending) ∧
        ending ≠ .help ∧ overrides? items = some inner ∧ command? verb items = some command ∧
          o = inner.within outer := by
  simp only [Invocation.ofCommand?, Option.bind_eq_bind, Option.bind_eq_some_iff, Prod.exists]
  constructor
  · rintro ⟨items, ending, hitems, h⟩
    split at h
    · split at h <;> cases h
    · next hending =>
      simp only [Option.bind_eq_some_iff, Option.pure_def, Option.some.injEq] at h
      obtain ⟨inner, hinner, same, hcommand, heq⟩ := h
      cases heq
      exact ⟨items, ending, inner, hitems, hending, hinner, hcommand, rfl⟩
  · rintro ⟨items, ending, inner, hitems, hending, hinner, hcommand, rfl⟩
    refine ⟨items, ending, hitems, ?_⟩
    simp only [if_neg hending, hinner, hcommand, Option.bind_some, Option.pure_def]

theorem ofArguments?_eq_run_iff :
    Invocation.ofArguments? arguments = some (.run o command) ↔
      ∃ items name rest outer verb, items? .outer .nothing arguments =
          some (items, .command name rest) ∧
        overrides? items = some outer ∧ name ≠ "help" ∧ Verb.ofName? name = some verb ∧
          Invocation.ofCommand? outer verb rest = some (.run o command) := by
  simp only [Invocation.ofArguments?, Option.bind_eq_bind, Option.bind_eq_some_iff, Prod.exists]
  constructor
  · rintro ⟨items, ending, hitems, outer, houter, h⟩
    cases ending with
    | done => cases h
    | version => cases h
    | help => cases h
    | command name rest =>
      simp only at h
      split at h
      · exact absurd h (ofHelp?_ne_run rest o command)
      · next hname =>
        obtain ⟨verb, hverb, h⟩ := Option.bind_eq_some_iff.mp h
        exact ⟨items, name, rest, outer, verb, hitems, houter, hname, hverb, h⟩
  · rintro ⟨items, name, rest, outer, verb, hitems, houter, hname, hverb, h⟩
    refine ⟨items, _, hitems, outer, houter, ?_⟩
    simp only [if_neg hname, hverb, Option.bind_some, h]

end

theorem ofCommand?_argumentsOf (outer : Overrides) {o : Overrides} (ho : o.config ≠ some "")
    (command : Command) :
    Invocation.ofCommand? outer command.verb (argumentsOf o command) =
      some (.run (o.within outer) command) :=
  ofCommand?_eq_run_iff.mpr ⟨lineItems o command, .done, o, items?_argumentsOf o command, nofun,
    overrides?_lineItems ho command, command?_lineItems o command, rfl⟩

/-- The line of a run asks for the run. The path of a settings file may be any but the empty one. -/
theorem ofArguments?_line {o : Overrides} (ho : o.config ≠ some "") (command : Command) :
    Invocation.ofArguments? (line o command) = some (.run o command) := by
  have hcommand := ofCommand?_argumentsOf ⟨none, none, none, false⟩ ho command
  rw [Overrides.within_none] at hcommand
  exact ofArguments?_eq_run_iff.mpr ⟨[], command.verb.name, argumentsOf o command, _, command.verb,
    items?_outer_name _ _, rfl, name_ne_help _, ofName?_name _, hcommand⟩

theorem config_ne_of_overrides? {items : List Item} {o : Overrides}
    (h : overrides? items = some o) : o.config ≠ some "" := by
  simp only [overrides?, Option.bind_eq_bind, Option.bind_eq_some_iff, Option.pure_def,
    Option.some.injEq] at h
  obtain ⟨config, hconfig, rounds, -, threads, -, verbose, -, rfl⟩ := h
  rintro rfl
  unfold optional? at hconfig
  split at hconfig
  · cases hconfig
  · obtain ⟨path, hpath, hempty⟩ := Option.map_eq_some_iff.mp hconfig
    cases hempty
    simp only [path?] at hpath
    split at hpath
    · cases hpath
    · next hne => exact hne (by rw [Option.some.inj hpath]; rfl)
  · cases hconfig

theorem config_ne_of_ofArguments? {arguments : List String} {o : Overrides} {command : Command}
    (h : Invocation.ofArguments? arguments = some (.run o command)) : o.config ≠ some "" := by
  obtain ⟨items, name, rest, outer, verb, -, houter, -, -, hrun⟩ := ofArguments?_eq_run_iff.mp h
  obtain ⟨own, ending, inner, -, -, hinner, -, rfl⟩ := ofCommand?_eq_run_iff.mp hrun
  have houter := config_ne_of_overrides? houter
  have hinner := config_ne_of_overrides? hinner
  cases hconfig : inner.config with
  | none => simpa [Overrides.within, hconfig] using houter
  | some path => simpa [Overrides.within, hconfig] using hinner

end Padwork.CommandLine
