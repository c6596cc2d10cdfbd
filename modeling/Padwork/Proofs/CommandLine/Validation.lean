import Padwork.Proofs.CommandLine.Failure
import Padwork.Proofs.Engine.History

/-!
# Checked settings

Settings are checked before threads are started or a template is looked at, and the first
field with a fault is the one reported. The engine checks the number of rounds once more.
Its bounds are the same, so settings that have passed never meet a second refusal of their
rounds: neither when a miner is built nor on any way from the command line to the engine.
-/
namespace Padwork
open Engine CommandLine

variable {machine : Machine} {s : Settings}

namespace Settings

/-- The fault is that of the first field whose value cannot be worked with. -/
inductive IsFirstFault (s : Settings) : Fault → Prop
  | rounds (h : ¬(256 ≤ s.rounds.toNat ∧ s.rounds.toNat ≤ 2048)) :
      IsFirstFault s (.roundsOutOfRange s.rounds)
  | threads (hrounds : 256 ≤ s.rounds.toNat ∧ s.rounds.toNat ≤ 2048)
      (h : s.threads.toNat = 0) : IsFirstFault s .noThreads
  | batchSize (hrounds : 256 ≤ s.rounds.toNat ∧ s.rounds.toNat ≤ 2048)
      (hthreads : s.threads.toNat ≠ 0) (h : s.batchSize.toNat = 0) : IsFirstFault s .emptyBatch

theorem fault?_eq_some_iff {fault : Fault} : s.fault? = some fault ↔ s.IsFirstFault fault := by
  have hthreads : s.threads = 0 ↔ s.threads.toNat = 0 := UInt64.toNat_inj.symm
  have hbatch : s.batchSize = 0 ↔ s.batchSize.toNat = 0 := UInt64.toNat_inj.symm
  simp only [fault?, roundsAllowed_iff, hthreads, hbatch]
  constructor
  · intro h
    split at h
    · next hrounds =>
      cases h
      exact .rounds hrounds
    · next hrounds =>
      have hallowed := Decidable.not_not.mp hrounds
      split at h
      · next hnone =>
        cases h
        exact .threads hallowed hnone
      · next hsome =>
        split at h
        · next hempty =>
          cases h
          exact .batchSize hallowed hsome hempty
        · cases h
  · intro h
    cases h with
    | rounds h => rw [if_pos h]
    | threads hallowed h => rw [if_neg (not_not_intro hallowed), if_pos h]
    | batchSize hallowed hsome h =>
      rw [if_neg (not_not_intro hallowed), if_neg hsome, if_pos h]

theorem validate_eq_error_iff {error : Error} :
    s.validate = .error error ↔ ∃ fault, s.IsFirstFault fault ∧ error = .invalid fault := by
  simp only [← fault?_eq_some_iff, validate]
  cases s.fault? with
  | none => simp
  | some fault => simp [eq_comm]

/-- The engine and the check of the settings refuse the same rounds. -/
theorem exists_checkRounds_eq_error_iff :
    (∃ error, checkRounds s.rounds = .error error) ↔
      s.validate = .error (.invalid (.roundsOutOfRange s.rounds)) := by
  rw [validate_eq_error_iff]
  by_cases hrounds : Parameters.RoundsAllowed s.rounds
  · rw [checkRounds_of_allowed hrounds]
    constructor
    · rintro ⟨error, herror⟩
      cases herror
    · rintro ⟨fault, hfault, heq⟩
      cases heq
      cases hfault with
      | rounds h => exact absurd (roundsAllowed_iff.mp hrounds) h
  · have hfault : s.IsFirstFault (.roundsOutOfRange s.rounds) :=
      .rounds fun h => hrounds (roundsAllowed_iff.mpr h)
    exact ⟨fun _ => ⟨_, hfault, rfl⟩, fun _ => ⟨_, if_neg hrounds⟩⟩

end Settings

namespace CommandLine

theorem exists_of_checked_eq_error {failure : Failure}
    (h : (do s.validate.mapError Failure.settings; return s) = Except.error failure) :
    ∃ error, failure = .settings error := by
  cases hs : s.validate with
  | error error =>
    rw [hs] at h
    cases h
    exact ⟨error, rfl⟩
  | ok =>
    rw [hs] at h
    cases h

theorem exists_of_settings_eq_error {files : Files} {o : Overrides} {failure : Failure}
    (h : settings machine files o = .error failure) :
    (∃ path error, failure = .settingsFile path error) ∨ ∃ error, failure = .settings error := by
  unfold settings at h
  split at h
  · exact .inr (exists_of_checked_eq_error h)
  · next path _ =>
    cases hload : Settings.load machine (files path) with
    | error error =>
      rw [hload] at h
      cases h
      exact .inl ⟨path, error, rfl⟩
    | ok base =>
      rw [hload] at h
      exact .inr (exists_of_checked_eq_error h)

/-- The error of the engine that a failure reports, in the words of any command. -/
def Failure.engineError? : Failure → Option Engine.Error
  | .engine error => some error
  | .mining (.engine error) => some error
  | _ => none

theorem engineError?_of_hexFault {argument text : String} {failure : Failure}
    (h : hexFault? argument text = some failure) : failure.engineError? = none := by
  unfold hexFault? at h
  split at h
  · cases h
  · cases h
    rfl

theorem TemplateText.engineError?_of_hexFault {t : TemplateText} {failure : Failure}
    (h : t.hexFault? = some failure) : failure.engineError? = none := by
  simp only [hexFault?, Option.or_eq_some_iff] at h
  rcases h with h | ⟨-, h | ⟨-, h | ⟨-, h⟩⟩⟩
  all_goals exact CommandLine.engineError?_of_hexFault h

theorem engineError?_of_poolFault {failure : Failure}
    (h : poolFault? machine s = some failure) : failure.engineError? = none := by
  obtain ⟨error, -, rfl⟩ := Option.map_eq_some_iff.mp h
  rfl

/-- An error of the engine comes of the lengths of a template. -/
theorem exists_sizeFault_of_fault {command : Command} {failure : Failure} {error : Engine.Error}
    (h : command.fault? machine s = some failure) (herror : failure.engineError? = some error) :
    ∃ b : Template, b.sizeFault? = some error := by
  have hsize {b : Template} {word : Engine.Error → Failure}
      (hword : ∀ error, (word error).engineError? = some error)
      (hfault : b.sizeFault?.map word = some failure) : b.sizeFault? = some error := by
    obtain ⟨same, hsame, rfl⟩ := Option.map_eq_some_iff.mp hfault
    rw [hsame, ← hword same, herror]
  cases command with
  | hash source =>
    cases source with
    | hex digits =>
      rw [engineError?_of_hexFault h] at herror
      cases herror
    | text content => cases h
  | verify t nonce =>
    rcases Option.or_eq_some_iff.mp h with hhex | ⟨-, hfault⟩
    · rw [TemplateText.engineError?_of_hexFault hhex] at herror
      cases herror
    · exact ⟨t.bytes, hsize (fun _ => rfl) hfault⟩
  | mine t start count =>
    rcases Option.or_eq_some_iff.mp h with hhex | ⟨-, hrest⟩
    · rw [TemplateText.engineError?_of_hexFault hhex] at herror
      cases herror
    · rcases Option.or_eq_some_iff.mp hrest with hpool | ⟨-, hfault⟩
      · rw [engineError?_of_poolFault hpool] at herror
        cases herror
      · exact ⟨t.bytes, hsize (fun _ => rfl) hfault⟩
  | benchmark count => cases h
  | params => cases h

theorem sizeFault?_ne_roundsOutOfRange (b : Template) (rounds : UInt64) :
    b.sizeFault? ≠ some (.roundsOutOfRange rounds) := by
  simp [Template.sizeFault?, templateFault?, attemptFault?, headerFault?, shortness?,
    Option.or_eq_some_iff]

/-- No run fails because the engine refuses its rounds. -/
theorem engineError?_ne_roundsOutOfRange {files : Files} {invocation : Invocation}
    {failure : Failure} (h : (invocation.outcome machine files).failure? = some failure)
    (rounds : UInt64) : failure.engineError? ≠ some (.roundsOutOfRange rounds) := by
  intro herror
  rw [(answers_invocation machine files invocation).failure?_eq] at h
  cases invocation with
  | version => cases h
  | help => cases h
  | run o command =>
    rw [Invocation.fault?] at h
    cases hs : settings machine files o with
    | error failure =>
      rw [hs] at h
      cases h
      rcases exists_of_settings_eq_error hs with ⟨path, error, rfl⟩ | ⟨error, rfl⟩
      · cases herror
      · cases herror
    | ok s =>
      rw [hs] at h
      obtain ⟨b, hb⟩ := exists_sizeFault_of_fault h herror
      exact sizeFault?_ne_roundsOutOfRange b rounds hb

end CommandLine

/-- The miner works on the template with the settings' rounds, in batches that are not empty. -/
structure Miner.WorksOn (m : Miner) (s : Settings) (previousHash minerAddress : Bytes) : Prop where
  initialized : m.engine.initialized = true
  isTableOf : m.engine.scratchpad.IsTableOf previousHash minerAddress
  rounds_eq : m.engine.rounds = s.rounds
  batchSize_eq : m.batchSize = s.batchSize
  one_le_batchSize : 1 ≤ m.batchSize.toNat

theorem Miner.exists_worksOn {previousHash minerAddress : Bytes}
    (hpool : machine.Starts s.threads) (hs : s.fault? = none)
    (h : templateFault? previousHash minerAddress = none) :
    ∃ m, ofSettings machine s previousHash minerAddress = .ok m ∧
      m.WorksOn s previousHash minerAddress := by
  obtain ⟨m, hash, address, hm, hp, ha, hengine, hbatch⟩ := exists_ready_of_templateFault hpool hs h
  have hfor : m.engine.IsFor s.rounds (some (previousHash, minerAddress)) :=
    ⟨hash, address, hp, ha, hengine⟩
  exact ⟨m, hm, hfor.initialized_iff.mpr rfl, hfor.isTableOf, hfor.rounds_eq, hbatch,
    UInt64.lt_iff_toNat_lt.mp m.batchSize_pos⟩

theorem Miner.ofSettings_ne_roundsOutOfRange (machine : Machine) (s : Settings)
    (previousHash minerAddress : Bytes) (rounds : UInt64) :
    ofSettings machine s previousHash minerAddress ≠
      .error (.engine (.roundsOutOfRange rounds)) := by
  have htemplate : templateFault? previousHash minerAddress ≠ some (.roundsOutOfRange rounds) := by
    simp [templateFault?, shortness?, Option.or_eq_some_iff]
  intro h
  cases hs : s.fault? with
  | some fault =>
    rw [ofSettings_of_fault hs] at h
    cases h
  | none =>
    cases hpool : machine.poolError? s.threads with
    | some error =>
      rw [ofSettings_of_poolError hs hpool] at h
      cases h
    | none =>
      cases hfault : templateFault? previousHash minerAddress with
      | some error =>
        rw [ofSettings_of_templateFault hpool hs hfault] at h
        cases h
        exact htemplate hfault
      | none =>
        obtain ⟨m, hm, -⟩ := exists_worksOn hpool hs hfault
        rw [hm] at h
        cases h

/-- The engine refuses the rounds of some settings just when the settings have this fault. So the
settings are what a miner is refused for first, whatever the template is, then threads that cannot
be started, and then the inputs of the template. With none of these faults there is a miner that
works on the template. The engine's own check of the rounds is never what stops a miner from being
built, or a run of the program. -/
theorem settings_checked_first (machine : Machine) (s : Settings)
    (previousHash minerAddress : Bytes) :
    ((∃ error, checkRounds s.rounds = .error error) ↔
        s.validate = .error (.invalid (.roundsOutOfRange s.rounds))) ∧
      (∀ error, s.validate = .error error ↔
        ∃ fault, s.IsFirstFault fault ∧ error = .invalid fault) ∧
      (∀ error, s.validate = .error error →
        Miner.ofSettings machine s previousHash minerAddress = .error (.settings error)) ∧
      (s.validate = .ok () → ∀ error, machine.poolError? s.threads = some error →
        Miner.ofSettings machine s previousHash minerAddress = .error (.pool error)) ∧
      (s.validate = .ok () → machine.Starts s.threads →
        ∀ error, templateFault? previousHash minerAddress = some error →
          Miner.ofSettings machine s previousHash minerAddress = .error (.engine error)) ∧
      (s.validate = .ok () → machine.Starts s.threads →
        templateFault? previousHash minerAddress = none →
          ∃ m, Miner.ofSettings machine s previousHash minerAddress = .ok m ∧
            m.WorksOn s previousHash minerAddress) ∧
      (∀ rounds, Miner.ofSettings machine s previousHash minerAddress ≠
        .error (.engine (.roundsOutOfRange rounds))) ∧
      ∀ files arguments run failure, program machine files arguments = some run →
        run.failure? = some failure →
          ∀ rounds, failure.engineError? ≠ some (.roundsOutOfRange rounds) := by
  refine ⟨Settings.exists_checkRounds_eq_error_iff, fun error => Settings.validate_eq_error_iff,
    ?_, ?_, ?_, ?_, Miner.ofSettings_ne_roundsOutOfRange machine s previousHash minerAddress, ?_⟩
  · intro error herror
    obtain ⟨fault, hfault, rfl⟩ := Settings.validate_eq_error_iff.mp herror
    exact Miner.ofSettings_of_fault (Settings.fault?_eq_some_iff.mpr hfault)
  · intro hs error hpool
    exact Miner.ofSettings_of_poolError (Settings.validate_eq_ok_iff.mp hs) hpool
  · intro hs hpool error hfault
    exact Miner.ofSettings_of_templateFault hpool (Settings.validate_eq_ok_iff.mp hs) hfault
  · intro hs hpool hfault
    exact Miner.exists_worksOn hpool (Settings.validate_eq_ok_iff.mp hs) hfault
  · intro files arguments run failure hrun hfailure rounds
    obtain ⟨invocation, -, rfl⟩ := Option.map_eq_some_iff.mp hrun
    exact engineError?_ne_roundsOutOfRange hfailure rounds

/-- A machine that cannot start more than a few threads. -/
def Machine.few : Machine :=
  { Machine.single with
    poolError? := fun threads => if threads ≤ 8 then none else some ⟨"no more threads", []⟩ }

def Settings.threeFaults : Settings := ⟨100, 0, 0⟩

/-- Settings with three faults and no template, more threads than can be started, a miner address
that is too short, a template of the right size, and a line whose rounds are out of range. -/
theorem settings_checked_first_samples :
    (Settings.threeFaults.validate = .error (.invalid (.roundsOutOfRange 100)) ∧
      Miner.ofSettings .few .threeFaults [] [] =
        .error (.settings (.invalid (.roundsOutOfRange 100)))) ∧
    (Settings.validate ⟨512, 9, 5000⟩ = .ok () ∧
      Machine.few.poolError? 9 = some ⟨"no more threads", []⟩ ∧
      Miner.ofSettings .few ⟨512, 9, 5000⟩ [] [] = .error (.pool ⟨"no more threads", []⟩)) ∧
    (Settings.validate ⟨512, 8, 5000⟩ = .ok () ∧ Machine.few.Starts 8 ∧
      templateFault? (.replicate 32 0) (.replicate 31 1) = some (.tooShort .minerAddress 31) ∧
      Miner.ofSettings .few ⟨512, 8, 5000⟩ (.replicate 32 0) (.replicate 31 1) =
        .error (.engine (.tooShort .minerAddress 31))) ∧
    (templateFault? (.replicate 32 0) (.replicate 33 1) = none ∧
      ∃ m, Miner.ofSettings .few ⟨512, 8, 5000⟩ (.replicate 32 0) (.replicate 33 1) = .ok m ∧
        m.WorksOn ⟨512, 8, 5000⟩ (.replicate 32 0) (.replicate 33 1)) ∧
    ∃ run failure,
      program .few (fun _ => none) (line ⟨none, some 100, none, false⟩ (.benchmark 1)) =
        some run ∧
      run.failure? = some failure ∧ failure.engineError? ≠ some (.roundsOutOfRange 100) := by
  have hfaults : Settings.threeFaults.validate = .error (.invalid (.roundsOutOfRange 100)) := rfl
  have hmany : Settings.validate ⟨512, 9, 5000⟩ = .ok () := rfl
  have hnone : Machine.few.poolError? 9 = some ⟨"no more threads", []⟩ := rfl
  have hvalid : Settings.validate ⟨512, 8, 5000⟩ = .ok () := rfl
  have hpool : Machine.few.Starts 8 := rfl
  have hshort : templateFault? (.replicate 32 0) (.replicate 31 1) =
      some (.tooShort .minerAddress 31) := rfl
  have hfit : templateFault? (.replicate 32 0) (.replicate 33 1) = none := rfl
  obtain ⟨-, -, hfaulty, -⟩ := settings_checked_first .few .threeFaults [] []
  obtain ⟨-, -, -, hstopped, -⟩ := settings_checked_first .few ⟨512, 9, 5000⟩ [] []
  obtain ⟨-, -, -, -, hrefused, -⟩ :=
    settings_checked_first .few ⟨512, 8, 5000⟩ (.replicate 32 0) (.replicate 31 1)
  obtain ⟨-, -, -, -, -, hbuilt, -, hprogram⟩ :=
    settings_checked_first .few ⟨512, 8, 5000⟩ (.replicate 32 0) (.replicate 33 1)
  have hline := ofArguments?_line (o := ⟨none, some 100, none, false⟩) nofun (.benchmark 1)
  obtain ⟨run, hrun, hanswers⟩ := exists_program .few (fun _ => none) hline
  have hfailure : run.failure? = some (.settings (.invalid (.roundsOutOfRange 100))) :=
    hanswers.failure?_eq
  exact ⟨⟨hfaults, hfaulty _ hfaults⟩, ⟨hmany, hnone, hstopped hmany _ hnone⟩,
    ⟨hvalid, hpool, hshort, hrefused hvalid hpool _ hshort⟩,
    ⟨hfit, hbuilt hvalid hpool hfit⟩, run, _, hrun, hfailure, hprogram _ _ _ _ hrun hfailure 100⟩

end Padwork
