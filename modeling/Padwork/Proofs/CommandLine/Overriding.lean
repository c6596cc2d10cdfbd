import Padwork.Proofs.CommandLine.Failure
import Padwork.Proofs.Settings.RoundTrip

/-!
# Settings given on the line

An option that sets a field of the settings does what writing the value into the settings
file would do, for every command: both lines leave the same output, the same log and the
same failure. But the file is checked on its own first, so no option makes up for a file
that gives no valid settings.
-/
namespace Padwork

/-- The settings with new values for some of the fields that an option can set. -/
def Settings.replace (s : Settings) (rounds threads : Option UInt64) : Settings :=
  { s with rounds := rounds.getD s.rounds, threads := threads.getD s.threads }

theorem Settings.load_render_of_valid (machine : Machine) {s : Settings}
    (hs : s.validate = .ok ()) :
    Settings.load machine (some (utf8 s.render)) = .ok s := by
  rw [load_render, hs]
  rfl

namespace CommandLine

variable {machine : Machine} {files : Files} {o : Overrides} {s : Settings} {path : String}
  {arguments : List String} {command : Command} {rounds threads : Option UInt64} {verbose : Bool}

/-! ## Settings of a run with a file -/

theorem settings_of_load (hload : Settings.load machine (files path) = .ok s)
    (hs : (s.replace rounds threads).validate = .ok ()) :
    settings machine files ⟨some path, rounds, threads, verbose⟩ =
      .ok (s.replace rounds threads) := by
  simp only [settings, hload]
  exact checked_of_valid hs

/-- A file that gives no settings fails the run before anything on the line counts. -/
theorem settings_of_refused {error : Settings.Error} (ho : o.config = some path)
    (h : Settings.Refused machine (files path) error) :
    settings machine files o = .error (.settingsFile path error) := by
  simp only [settings, ho, h.load_eq]
  rfl

theorem program_of_refused {error : Settings.Error} (ho : o.config = some path)
    (h : Settings.Refused machine (files path) error)
    (hrun : Invocation.ofArguments? arguments = some (.run o command)) :
    program machine files arguments = some (.failed (.settingsFile path error)) := by
  simp only [program, hrun, Option.map_some, Invocation.outcome, settings_of_refused ho h]

/-! ## Options in front of a line -/

def overriding (rounds threads : Option UInt64) : List Item :=
  itemsOf .rounds (rounds.map wordText) ++ itemsOf .threads (threads.map wordText)

theorem isOf_overriding (rounds threads : Option UInt64) :
    ∀ item ∈ overriding rounds threads, item.IsOf .outer := by
  intro item hitem
  rcases List.mem_append.mp hitem with hitem | hitem
  · exact isOf_itemsOf (by decide) rfl _ item hitem
  · exact isOf_itemsOf (by decide) rfl _ item hitem

theorem valuesOf_eq_nil_of_optional? {α : Type} {items : List Item} {key : Key}
    {read? : String → Option α} (h : optional? items key read? = some none) :
    valuesOf items key = [] := by
  unfold optional? at h
  split at h
  · next heq => exact heq
  · obtain ⟨_, -, hvalue⟩ := Option.map_eq_some_iff.mp h
    cases hvalue
  · cases h

/-- In front of items that leave the fields open, the options set them and nothing else. -/
theorem overrides?_overriding_append (rounds threads : Option UInt64) {items : List Item}
    (h : overrides? items = some o) (hr : o.rounds = none) (ht : o.threads = none) :
    overrides? (overriding rounds threads ++ items) =
      some { o with rounds := rounds, threads := threads } := by
  simp only [overrides?, Option.bind_eq_bind, Option.bind_eq_some_iff, Option.pure_def,
    Option.some.injEq] at h
  obtain ⟨config, hconfig, _, hrounds, _, hthreads, verbose, hverbose, rfl⟩ := h
  cases hr
  cases ht
  have hconfig' : optional? (overriding rounds threads ++ items) .config path? = some config := by
    rw [← hconfig, optional?, optional?]
    simp [overriding]
  have hrounds' : optional? (overriding rounds threads ++ items) .rounds word? = some rounds := by
    refine optional?_of_valuesOf wordText ?_ fun n _ => word?_wordText n
    simp [overriding, valuesOf_eq_nil_of_optional? hrounds]
  have hthreads' : optional? (overriding rounds threads ++ items) .threads word? =
      some threads := by
    refine optional?_of_valuesOf wordText ?_ fun n _ => word?_wordText n
    simp [overriding, valuesOf_eq_nil_of_optional? hthreads]
  have hverbose' : given? (overriding rounds threads ++ items) .verbose = some verbose := by
    rw [← hverbose, given?, given?, overriding, List.count_append, List.count_append,
      count_verbose_itemsOf, count_verbose_itemsOf, Nat.zero_add]
  rw [overrides?, hconfig', hrounds', hthreads', hverbose']
  rfl

/-- A line without the options asks for the same run with the fields set when they are put in
front of it. -/
theorem ofArguments?_overriding_append (rounds threads : Option UInt64)
    (h : Invocation.ofArguments? arguments = some (.run o command))
    (hr : o.rounds = none) (ht : o.threads = none) :
    Invocation.ofArguments? ((overriding rounds threads).map Item.argument ++ arguments) =
      some (.run { o with rounds := rounds, threads := threads } command) := by
  obtain ⟨items, name, rest, outer, verb, hitems, houter, hname, hverb, hcommand⟩ :=
    ofArguments?_eq_run_iff.mp h
  obtain ⟨own, ending, inner, hown, hending, hinner, hmade, rfl⟩ :=
    ofCommand?_eq_run_iff.mp hcommand
  -- a field that is open on the line is open at both of its levels
  obtain ⟨hinnerRounds, houterRounds⟩ : inner.rounds = none ∧ outer.rounds = none := by
    simpa [Overrides.within] using hr
  obtain ⟨hinnerThreads, houterThreads⟩ : inner.threads = none ∧ outer.threads = none := by
    simpa [Overrides.within] using ht
  have hfront := items?_map_argument (isOf_overriding rounds threads) hitems
  have hset := overrides?_overriding_append rounds threads houter houterRounds houterThreads
  have hwithin : { inner.within outer with rounds := rounds, threads := threads } =
      inner.within { outer with rounds := rounds, threads := threads } := by
    simp [Overrides.within, hinnerRounds, hinnerThreads]
  rw [hwithin]
  exact ofArguments?_eq_run_iff.mpr ⟨_, name, rest, _, verb, hfront, hset, hname, hverb,
    ofCommand?_eq_run_iff.mpr ⟨own, ending, inner, hown, hending, hinner, hmade, rfl⟩⟩

/-- With valid settings in a file, and these still valid after some fields have been replaced, a
line that sets the fields and a line that finds them in the file leave the same run. Any line
without the options becomes one that sets the fields when they are put in front of it. If a file
gives no valid settings, all lines that name it fail for that reason, whatever they set. -/
theorem override_agrees_with_file (machine : Machine) (files : Files) (path : String) :
    (∀ (edited : Files) (s : Settings) (rounds threads : Option UInt64) (verbose : Bool)
        (command : Command) (overridden arguments : List String),
      files path = some (utf8 s.render) → s.validate = .ok () →
      edited path = some (utf8 (s.replace rounds threads).render) →
      (s.replace rounds threads).validate = .ok () →
      Invocation.ofArguments? overridden =
        some (.run ⟨some path, rounds, threads, verbose⟩ command) →
      Invocation.ofArguments? arguments = some (.run ⟨some path, none, none, verbose⟩ command) →
      ∃ run, program machine files overridden = some run ∧
        program machine edited arguments = some run) ∧
    (∀ (rounds threads : Option UInt64) (verbose : Bool) (command : Command)
        (arguments : List String),
      Invocation.ofArguments? arguments = some (.run ⟨some path, none, none, verbose⟩ command) →
      Invocation.ofArguments? ((overriding rounds threads).map Item.argument ++ arguments) =
        some (.run ⟨some path, rounds, threads, verbose⟩ command)) ∧
    ∀ (error : Settings.Error) (o : Overrides) (command : Command) (arguments : List String),
      Settings.Refused machine (files path) error → o.config = some path →
      Invocation.ofArguments? arguments = some (.run o command) →
      ∃ run, program machine files arguments = some run ∧ run.status = 1 ∧ run.output = [] ∧
        run.log = [] ∧
        run.errorText? = some ("loading config from " ++ path ++ ": " ++ error.message) := by
  refine ⟨?_, ?_, ?_⟩
  · intro edited s rounds threads verbose command overridden arguments hfile hs hedited hs'
      hoverridden harguments
    have hload : Settings.load machine (files path) = .ok s := by
      rw [hfile, Settings.load_render_of_valid machine hs]
    have hload' : Settings.load machine (edited path) = .ok (s.replace rounds threads) := by
      rw [hedited, Settings.load_render_of_valid machine hs']
    -- with nothing set, the settings of the edited file are left as they are
    have hsettings' : settings machine edited ⟨some path, none, none, verbose⟩ =
        .ok (s.replace rounds threads) := settings_of_load hload' hs'
    exact ⟨_, program_of_settings hoverridden (settings_of_load hload hs'),
      program_of_settings harguments hsettings'⟩
  · intro rounds threads verbose command arguments h
    exact ofArguments?_overriding_append rounds threads h rfl rfl
  · intro error o command arguments hrefused ho hrun
    exact ⟨_, program_of_refused ho hrefused hrun, rfl, rfl, rfl, rfl⟩

def fileOf (text : String) : Files :=
  fun path => if path = "pad.json" then some (utf8 text) else none

theorem fileOf_path (text : String) : fileOf text "pad.json" = some (utf8 text) := if_pos rfl

def fileLine (rounds : Option UInt64) (command : Command) : List String :=
  line ⟨some "pad.json", rounds, none, false⟩ command

theorem ofArguments?_fileLine (rounds : Option UInt64) (command : Command) :
    Invocation.ofArguments? (fileLine rounds command) =
      some (.run ⟨some "pad.json", rounds, none, false⟩ command) := by
  have hpath : (some "pad.json" : Option String) ≠ some "" := by decide
  exact ofArguments?_line hpath command

/-- Mining with fewer rounds than the file says, a file with too few rounds and a line that would
mend them, and a file that holds no value. -/
theorem override_agrees_with_file_samples :
    (∃ run, program .single (fileOf (Settings.render ⟨1024, 3, 5000⟩))
          (fileLine (some 256) (.mine lenientTemplate.texts 5 (some 3))) = some run ∧
        program .single (fileOf (Settings.render ⟨256, 3, 5000⟩))
          (fileLine none (.mine lenientTemplate.texts 5 (some 3))) = some run) ∧
      Invocation.ofArguments? ("--rounds=256" :: fileLine none .params) =
        some (.run ⟨some "pad.json", some 256, none, false⟩ .params) ∧
      (∃ run, program .single (fileOf (Settings.render ⟨100, 3, 5000⟩))
          (fileLine (some 512) .params) = some run ∧ run.status = 1 ∧
        run.errorText? = some ("loading config from pad.json: Invalid config value: " ++
          "rounds must be 256-2048, got 100")) ∧
      ∃ run, program .single (fileOf "rounds = 512") (fileLine (some 512) .params) = some run ∧
        run.status = 1 ∧
        run.errorText? = some "loading config from pad.json: Invalid config file:" := by
  have hparse : Json.parse? "rounds = 512" = none := by decide +kernel
  have hnone : Settings.Refused .single (fileOf "rounds = 512" "pad.json") .malformed := by
    rw [fileOf_path]
    refine .noValue fun v hv => ?_
    rw [← Json.parse?_eq_some_iff, hparse] at hv
    cases hv
  have hfew : Settings.Refused .single (fileOf (Settings.render ⟨100, 3, 5000⟩) "pad.json")
      (.invalid (.roundsOutOfRange 100)) := by
    rw [fileOf_path]
    exact .value (Settings.spells_render _) (Settings.means_members .single ⟨100, 3, 5000⟩)
  obtain ⟨hagree, hfront, -⟩ :=
    override_agrees_with_file .single (fileOf (Settings.render ⟨1024, 3, 5000⟩)) "pad.json"
  obtain ⟨-, -, hfewFails⟩ :=
    override_agrees_with_file .single (fileOf (Settings.render ⟨100, 3, 5000⟩)) "pad.json"
  obtain ⟨-, -, hnoneFails⟩ := override_agrees_with_file .single (fileOf "rounds = 512") "pad.json"
  have htext : (overriding (some 256) none).map Item.argument = ["--rounds=256"] := by
    decide +kernel
  refine ⟨?_, ?_, ?_, ?_⟩
  · exact hagree _ ⟨1024, 3, 5000⟩ (some 256) none false _ _ _ (fileOf_path _) rfl
      (fileOf_path _) rfl (ofArguments?_fileLine _ _) (ofArguments?_fileLine _ _)
  · have hline := hfront (some 256) none false .params _ (ofArguments?_fileLine none .params)
    rwa [htext] at hline
  · obtain ⟨run, hrun, hstatus, -, -, herror⟩ :=
      hfewFails _ _ _ _ hfew rfl (ofArguments?_fileLine (some 512) .params)
    refine ⟨run, hrun, hstatus, herror.trans (congrArg some ?_)⟩
    decide +kernel
  · obtain ⟨run, hrun, hstatus, -, -, herror⟩ :=
      hnoneFails _ _ _ _ hnone rfl (ofArguments?_fileLine (some 512) .params)
    exact ⟨run, hrun, hstatus, herror⟩

end CommandLine

end Padwork
