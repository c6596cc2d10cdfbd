import Padwork.Proofs.CommandLine.Failure

/-!
# Checking and mining fail alike

A line that checks a nonce and a line that mines look at the same template under the same
settings, though in different places: one in a single check, the other when it builds its
miner and before its first batch. They fail for the same cause, which is the first in the
order of the settings, the texts and the lengths, and differ only in how they word an
error of the engine. This is said of machines that can start the threads, which only the
line that mines needs.
-/
namespace Padwork.CommandLine

variable {machine : Machine} {s : Settings} {o : Overrides} {t : TemplateText}

/-- What keeps a run from its work: what it is given cannot be read, or the engine refuses it. -/
inductive Cause where
  | input (failure : Failure)
  | engine (error : Engine.Error)

/-- The first cause for which a run fails that needs a template. -/
def cause? (machine : Machine) (files : Files) (o : Overrides) (t : TemplateText) : Option Cause :=
  match settings machine files o with
  | .error failure => some (.input failure)
  | .ok _ => (t.hexFault?.map .input).or (t.bytes.sizeFault?.map .engine)

def Cause.checkText : Cause → String
  | .input failure => failure.message
  | .engine error => error.message

def Cause.mineText : Cause → String
  | .input failure => failure.message
  | .engine error => "Engine error: " ++ error.message ++ ": " ++ error.message

/-- The failure of a run that words an error of the engine in its own way. -/
def Cause.failure (word : Engine.Error → Failure) : Cause → Failure
  | .input failure => failure
  | .engine error => word error

theorem fault?_mine_of_starts (h : machine.Starts s.threads) (start : UInt64)
    (count : Option UInt64) :
    (Command.mine t start count).fault? machine s =
      t.hexFault?.or (t.bytes.sizeFault?.map fun error => .mining (.engine error)) := by
  have hpool : poolFault? machine s = none := Option.map_eq_none_iff.mpr h
  rw [Command.fault?, hpool, Option.none_or]

theorem exists_program_of_cause (files : Files) {arguments : List String} {command : Command}
    (word : Engine.Error → Failure)
    (hcommand : ∀ s, settings machine files o = .ok s →
      command.fault? machine s = t.hexFault?.or (t.bytes.sizeFault?.map word))
    (h : Invocation.ofArguments? arguments = some (.run o command)) :
    ∃ run, program machine files arguments = some run ∧
      run.failure? = (cause? machine files o t).map (Cause.failure word) := by
  obtain ⟨run, hrun, hanswers⟩ := exists_program machine files h
  refine ⟨run, hrun, ?_⟩
  rw [hanswers.failure?_eq, Invocation.fault?, cause?]
  cases hs : settings machine files o with
  | error failure => rfl
  | ok s =>
    simp only [hcommand s hs]
    cases t.hexFault? with
    | some failure => rfl
    | none => cases t.bytes.sizeFault? <;> rfl

theorem status_eq_one_iff_of_cause {run : Outcome} {cause? : Option Cause}
    {word : Engine.Error → Failure} (h : run.failure? = cause?.map (Cause.failure word)) :
    run.status = 1 ↔ cause?.isSome = true := by
  rw [Outcome.status_eq_one_iff, h, Option.isSome_map]

theorem errorText?_eq_of_cause {run : Outcome} {cause? : Option Cause}
    {word : Engine.Error → Failure} {text : Cause → String}
    (h : run.failure? = cause?.map (Cause.failure word))
    (htext : ∀ cause : Cause, (cause.failure word).message = text cause) :
    run.errorText? = cause?.map text := by
  rw [Outcome.errorText?, h, Option.map_map]
  congr 1
  funext cause
  exact htext cause

/-- Where the threads can be started, a line that checks a nonce and a line that mines fail
together, for the first cause among the settings, the texts and the lengths. What cannot be read
they word alike, and an error of the engine each in its own way. -/
theorem check_and_mine_fail_alike (machine : Machine) (files : Files)
    {checkArguments mineArguments : List String} {o : Overrides} {t : TemplateText}
    {nonce start : UInt64} {count : Option UInt64} {verbose : Bool}
    (hpool : ∀ s, settings machine files o = .ok s → machine.Starts s.threads)
    (hcheck : Invocation.ofArguments? checkArguments = some (.run o (.verify t nonce)))
    (hmine : Invocation.ofArguments? mineArguments =
      some (.run { o with verbose } (.mine t start count))) :
    ∃ checked mined, program machine files checkArguments = some checked ∧
      program machine files mineArguments = some mined ∧
      (checked.status = 1 ↔ mined.status = 1) ∧
      (checked.status = 1 ↔ (cause? machine files o t).isSome = true) ∧
      checked.errorText? = (cause? machine files o t).map Cause.checkText ∧
      mined.errorText? = (cause? machine files o t).map Cause.mineText := by
  -- whether debug records are wanted does not count among the settings
  have hsettings : settings machine files { o with verbose } = settings machine files o := rfl
  obtain ⟨checked, hchecked, hcheckCause⟩ :=
    exists_program_of_cause files .engine (fun _ _ => rfl) hcheck
  obtain ⟨mined, hmined, hmineCause⟩ :=
    exists_program_of_cause files (fun error => .mining (.engine error))
      (fun s hs => fault?_mine_of_starts (hpool s (hsettings ▸ hs)) start count) hmine
  have hcause : cause? machine files { o with verbose } t = cause? machine files o t := rfl
  rw [hcause] at hmineCause
  have hcheckStatus := status_eq_one_iff_of_cause hcheckCause
  have hmineStatus := status_eq_one_iff_of_cause hmineCause
  refine ⟨checked, mined, hchecked, hmined, hcheckStatus.trans hmineStatus.symm, hcheckStatus,
    ?_, ?_⟩
  · apply errorText?_eq_of_cause hcheckCause
    intro cause
    cases cause <;> rfl
  · apply errorText?_eq_of_cause hmineCause
    intro cause
    cases cause <;> rfl

def stuntedTemplate : Template :=
  { lenientTemplate with header := .replicate 100 0, target := [] }

theorem cause?_stuntedTemplate (machine : Machine) (files : Files) :
    cause? machine files fewestRounds stuntedTemplate.texts =
      some (.engine (.headerLength 100)) := by
  have hs := settings_fewestRounds machine files
  simp only [cause?, hs, Template.hexFault?_texts, Template.bytes_texts]
  rfl

/-- A header and a target that are too short, with no nonce to search. -/
theorem check_and_mine_fail_alike_stunted :
    (∀ s, settings .single (fun _ => none) fewestRounds = .ok s → Machine.single.Starts s.threads) ∧
    Invocation.ofArguments? (line fewestRounds (.verify stuntedTemplate.texts 7)) =
        some (.run fewestRounds (.verify stuntedTemplate.texts 7)) ∧
      Invocation.ofArguments?
          (line { fewestRounds with verbose := true } (.mine stuntedTemplate.texts 5 (some 0))) =
        some (.run { fewestRounds with verbose := true }
          (.mine stuntedTemplate.texts 5 (some 0))) ∧
      ∃ checked mined,
        program .single (fun _ => none) (line fewestRounds (.verify stuntedTemplate.texts 7)) =
            some checked ∧
          program .single (fun _ => none) (line { fewestRounds with verbose := true }
            (.mine stuntedTemplate.texts 5 (some 0))) = some mined ∧
          checked.status = 1 ∧ mined.status = 1 ∧
          checked.errorText? = some "header prefix must be exactly 140 bytes, got 100" ∧
          mined.errorText? = some ("Engine error: header prefix must be exactly 140 bytes, got 100"
            ++ ": header prefix must be exactly 140 bytes, got 100") := by
  have hpool (s : Settings) (_ : settings .single (fun _ => none) fewestRounds = .ok s) :
      Machine.single.Starts s.threads := Machine.single_starts _
  have hcheck := ofArguments?_line (o := fewestRounds) nofun (.verify stuntedTemplate.texts 7)
  have hmine := ofArguments?_line (o := { fewestRounds with verbose := true }) nofun
    (.mine stuntedTemplate.texts 5 (some 0))
  obtain ⟨checked, mined, hchecked, hmined, hsame, hstatus, hcheckText, hmineText⟩ :=
    check_and_mine_fail_alike .single (fun _ => none) hpool hcheck hmine
  rw [cause?_stuntedTemplate] at hstatus hcheckText hmineText
  have hfails := hstatus.mpr rfl
  refine ⟨hpool, hcheck, hmine, checked, mined, hchecked, hmined, hfails, hsame.mp hfails, ?_, ?_⟩
  · rw [hcheckText]
    decide +kernel
  · rw [hmineText]
    decide +kernel

end Padwork.CommandLine
