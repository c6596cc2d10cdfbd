import Padwork.Proofs.CommandLine.Mining

/-!
# Runs that fail

A run fails with the first fault that it meets: of its settings, then of the texts that
its command has to read, then of the threads it wants to start, then of the lengths of
what the texts spell. It has printed nothing by then. A benchmark prints before it builds
its engine, but settings that have passed their check give it an engine that accepts each
of its nonces.
-/
namespace Padwork.CommandLine
open Engine hiding verify

variable {machine : Machine} {files : Files} {o : Overrides} {s : Settings}

/-! ## Faults -/

def hexFault? (argument text : String) : Option Failure :=
  match Hex.decode text with
  | .ok _ => none
  | .error error => some (.hex argument error)

def bytesOf (text : String) : Bytes :=
  match Hex.decode text with
  | .ok bytes => bytes
  | .error _ => []

def TemplateText.hexFault? (t : TemplateText) : Option Failure :=
  (CommandLine.hexFault? "prev-hash" t.previousHash).or <|
    (CommandLine.hexFault? "miner-addr" t.minerAddress).or <|
      (CommandLine.hexFault? "header-prefix" t.header).or <|
        CommandLine.hexFault? "target" t.target

def TemplateText.bytes (t : TemplateText) : Template :=
  ⟨bytesOf t.previousHash, bytesOf t.minerAddress, bytesOf t.header, bytesOf t.target⟩

def Template.sizeFault? (b : Template) : Option Engine.Error :=
  (templateFault? b.previousHash b.minerAddress).or (attemptFault? b.header b.target)

/-- The threads that a miner wants cannot be started. -/
def poolFault? (machine : Machine) (s : Settings) : Option Failure :=
  (machine.poolError? s.threads).map fun error => .mining (.pool error)

/-- The first fault of what a command is given. -/
def Command.fault? (machine : Machine) (s : Settings) : Command → Option Failure
  | .hash (.hex digits) => hexFault? "input" digits
  | .hash (.text _) => none
  | .verify t _ => t.hexFault?.or (t.bytes.sizeFault?.map .engine)
  | .mine t _ _ =>
    t.hexFault?.or <| (poolFault? machine s).or <|
      t.bytes.sizeFault?.map fun error => .mining (.engine error)
  | .benchmark _ => none
  | .params => none

/-- The run fails with the fault and prints nothing, or there is no fault and it does not fail. -/
def Outcome.Answers (run : Outcome) : Option Failure → Prop
  | some failure => run.failure? = some failure ∧ run.output = []
  | none => run.failure? = none

/-! ## Texts -/

theorem decodeHex_eq (argument text : String) :
    decodeHex argument text = (hexFault? argument text).elim (.ok (bytesOf text)) .error := by
  unfold decodeHex hexFault? bytesOf
  cases Hex.decode text <;> rfl

theorem TemplateText.decode_eq (t : TemplateText) :
    t.decode = t.hexFault?.elim (.ok t.bytes) .error := by
  simp only [decode, decodeHex_eq, hexFault?, bytes, Key.long]
  cases CommandLine.hexFault? "prev-hash" t.previousHash with
  | some failure => rfl
  | none =>
    cases CommandLine.hexFault? "miner-addr" t.minerAddress with
    | some failure => rfl
    | none =>
      cases CommandLine.hexFault? "header-prefix" t.header with
      | some failure => rfl
      | none => cases CommandLine.hexFault? "target" t.target <;> rfl

theorem TemplateText.decode_of_fault {t : TemplateText} {failure : Failure}
    (h : t.hexFault? = some failure) : t.decode = .error failure := by
  rw [t.decode_eq, h, Option.elim_some]

theorem TemplateText.decode_of_none {t : TemplateText} (h : t.hexFault? = none) :
    t.decode = .ok t.bytes := by
  rw [t.decode_eq, h, Option.elim_none]

theorem Template.hexFault?_texts (b : Template) : b.texts.hexFault? = none := by
  simp only [TemplateText.hexFault?, texts, CommandLine.hexFault?, Hex.decode_encode,
    Option.or_none]

theorem Template.bytes_texts (b : Template) : b.texts.bytes = b := by
  simp only [TemplateText.bytes, texts, bytesOf, Hex.decode_encode]

/-! ## Commands -/

theorem errorOf?_verify_of_valid (hs : s.validate = .ok ()) (b : Template) (nonce : UInt64) :
    errorOf? (Padwork.verify b.previousHash b.minerAddress s.rounds b.header nonce b.target) =
      b.sizeFault? := by
  have hallowed := (Settings.fault?_eq_none_iff.mp (Settings.validate_eq_ok_iff.mp hs)).1
  rw [errorOf?_verify_template, roundsFault?_eq_none_iff.mpr hallowed, Option.none_or]
  rfl

theorem answers_hash (machine : Machine) (s : Settings) (source : Source) :
    (hash source).Answers ((Command.hash source).fault? machine s) := by
  cases source with
  | text content => rfl
  | hex digits =>
    rw [hash, Source.bytes, decodeHex_eq, Command.fault?]
    cases hexFault? "input" digits with
    | none => rfl
    | some failure => exact ⟨rfl, rfl⟩

theorem answers_verify (machine : Machine) (hs : s.validate = .ok ())
    (t : TemplateText) (nonce : UInt64) :
    (verify s t nonce).Answers ((Command.verify t nonce).fault? machine s) := by
  rw [Command.fault?]
  cases ht : t.hexFault? with
  | some failure =>
    rw [verify, TemplateText.decode_of_fault ht]
    exact ⟨rfl, rfl⟩
  | none =>
    have herror := errorOf?_verify_of_valid hs t.bytes nonce
    rw [Option.none_or, verify, TemplateText.decode_of_none ht]
    cases hsize : t.bytes.sizeFault? with
    | some error =>
      rw [hsize] at herror
      simp only [eq_error_of_errorOf? herror]
      exact ⟨rfl, rfl⟩
    | none =>
      rw [hsize] at herror
      obtain ⟨result, hresult⟩ := exists_of_errorOf?_eq_none herror
      simp only [hresult]
      rfl

/-- With a miner for its template a run fails for the header or the target, or not at all. -/
theorem answers_mine_of_ofSettings {t : TemplateText} {b : Template} {m : Miner}
    (ht : t.decode = .ok b) (hm : Miner.ofSettings machine s b.previousHash b.minerAddress = .ok m)
    (start : UInt64) (count : Option UInt64) :
    (mine machine s t start count).Answers
      ((attemptFault? b.header b.target).map fun error => .mining (.engine error)) := by
  have hattempt := errorOf?_checkAttempt_of_initialized (Miner.initialized_of_ofSettings hm)
    b.header b.target
  cases hfault : attemptFault? b.header b.target with
  | some error =>
    rw [hfault] at hattempt
    have hrun := m.mine_of_refused (eq_error_of_errorOf? hattempt) (.ofCount start count) none
    simp only [mine, ht, hm, hrun]
    exact ⟨rfl, rfl⟩
  | none =>
    rw [hfault] at hattempt
    obtain ⟨bound, hok⟩ := exists_of_errorOf?_eq_none hattempt
    have hresult := m.result_mine_none (.ofCount start count) hok
    rw [mine_of_result ht hm rfl hresult]
    rfl

theorem answers_mine (machine : Machine) (hs : s.validate = .ok ()) (t : TemplateText)
    (start : UInt64) (count : Option UInt64) :
    (mine machine s t start count).Answers ((Command.mine t start count).fault? machine s) := by
  have hvalid := Settings.validate_eq_ok_iff.mp hs
  rw [Command.fault?]
  cases ht : t.hexFault? with
  | some failure =>
    rw [mine, TemplateText.decode_of_fault ht]
    exact ⟨rfl, rfl⟩
  | none =>
    have hdecode := TemplateText.decode_of_none ht
    rw [Option.none_or, poolFault?, Template.sizeFault?]
    cases hpool : machine.poolError? s.threads with
    | some error =>
      simp only [mine, hdecode, Miner.ofSettings_of_poolError hvalid hpool]
      exact ⟨rfl, rfl⟩
    | none =>
      rw [Option.map_none, Option.none_or]
      cases htemplate : templateFault? t.bytes.previousHash t.bytes.minerAddress with
      | some error =>
        have hm := Miner.ofSettings_of_templateFault hpool hvalid htemplate
        simp only [mine, hdecode, hm]
        exact ⟨rfl, rfl⟩
      | none =>
        obtain ⟨m, hash, address, hm, -⟩ :=
          Miner.exists_ready_of_templateFault hpool hvalid htemplate
        rw [Option.none_or]
        exact answers_mine_of_ofSettings hdecode hm start count

theorem exists_leading_replicate (input : Input) (byte : UInt8) :
    ∃ head, leading input (.replicate 32 byte) = .ok head := by
  have hlength : 32 ≤ (List.replicate 32 byte).length := Nat.le_of_eq List.length_replicate.symm
  obtain ⟨head, hhead, -⟩ := exists_leading input hlength
  exact ⟨head, hhead⟩

/-- A ready engine accepts each nonce of a benchmark. -/
theorem verifyMany_eq_ok {e : Engine} (he : e.initialized = true) (next : UInt64) (count : Nat) :
    verifyMany e next count = .ok () := by
  obtain ⟨bound, hbound⟩ := exists_leading_replicate .target 0xFF
  have hok : e.checkAttempt (.replicate 140 0) (.replicate 32 0xFF) = .ok bound :=
    checkAttempt_of_leading he List.length_replicate hbound
  induction count generalizing next with
  | zero => rfl
  | succ count ih =>
    rw [verifyMany, verify_of_checkAttempt hok next]
    exact ih (next + 1)

def benchmarkResults (count : UInt32) : List Line :=
  [.text "", .text "Results:", .measured "  Scratchpad init:" .setupTime,
    .text ("  Verifications: " ++ Decimal.render count.toNat),
    .measured "  Time elapsed:" .elapsedTime, .measured "  Hashrate (single thread):" .hashRate]

theorem benchmark_of_valid (hs : s.validate = .ok ()) (count : UInt32) :
    ∃ first, benchmark s count = .success (first :: benchmarkResults count) := by
  have hallowed := (Settings.fault?_eq_none_iff.mp (Settings.validate_eq_ok_iff.mp hs)).1
  obtain ⟨hash, hhash⟩ := exists_leading_replicate .previousHash 0
  obtain ⟨address, haddress⟩ := exists_leading_replicate .minerAddress 1
  have hengine : benchmarkEngine s = .ok (ready hash address s.rounds) :=
    forTemplate_of_leading hallowed hhash haddress
  have hrun : (benchmarkEngine s >>= (verifyMany · 0 count.toNat)) = .ok () := by
    rw [hengine]
    exact verifyMany_eq_ok rfl 0 count.toNat
  simp only [benchmark, hrun]
  exact ⟨_, rfl⟩

theorem answers_outcome (machine : Machine) (hs : s.validate = .ok ()) (command : Command) :
    (command.outcome machine s).Answers (command.fault? machine s) := by
  cases command with
  | hash source => exact answers_hash machine s source
  | verify t nonce => exact answers_verify machine hs t nonce
  | mine t start count => exact answers_mine machine hs t start count
  | benchmark count =>
    obtain ⟨first, hrun⟩ := benchmark_of_valid hs count
    rw [Command.outcome, hrun]
    rfl
  | params => rfl

/-! ## The program -/

def Invocation.fault? (machine : Machine) (files : Files) : Invocation → Option Failure
  | .version | .help => none
  | .run o command =>
    match settings machine files o with
    | .error failure => some failure
    | .ok s => command.fault? machine s

theorem answers_invocation (machine : Machine) (files : Files) (invocation : Invocation) :
    (invocation.outcome machine files).Answers (invocation.fault? machine files) := by
  cases invocation with
  | version => rfl
  | help => rfl
  | run o command =>
    rw [Invocation.outcome, Invocation.fault?]
    cases hs : settings machine files o with
    | error failure => exact ⟨rfl, rfl⟩
    | ok s => exact answers_outcome machine (validate_of_settings hs) command

theorem Outcome.Answers.failure?_eq {run : Outcome} {fault? : Option Failure}
    (h : run.Answers fault?) : run.failure? = fault? := by
  cases fault? with
  | some failure => exact h.1
  | none => exact h

theorem Outcome.Answers.output_eq_nil {run : Outcome} {fault? : Option Failure}
    (h : run.Answers fault?) (hfailure : run.failure?.isSome = true) : run.output = [] := by
  cases fault? with
  | some failure => exact h.2
  | none =>
    rw [show run.failure? = none from h] at hfailure
    cases hfailure

theorem exists_program {arguments : List String} {invocation : Invocation} (machine : Machine)
    (files : Files) (h : Invocation.ofArguments? arguments = some invocation) :
    ∃ run, program machine files arguments = some run ∧
      run.Answers (invocation.fault? machine files) :=
  ⟨_, by rw [program, h, Option.map_some], answers_invocation machine files invocation⟩

def Outcome.errorText? (run : Outcome) : Option String := run.failure?.map Failure.message

theorem append_ne_empty {left middle right : String} (h : middle ≠ "") :
    left ++ middle ++ right ≠ "" := by
  rw [Ne, String.append_eq_empty_iff, String.append_eq_empty_iff]
  exact fun hempty => h hempty.1.2

theorem Failure.message_ne_empty (failure : Failure) : failure.message ≠ "" := by
  have hinvalid (fault : Settings.Fault) : Settings.Error.message (.invalid fault) ≠ "" :=
    fun hempty => absurd (String.append_eq_empty_iff.mp hempty).1 (by decide)
  have hengine (error : Engine.Error) : error.message ≠ "" := by
    cases error with
    | tooShort input length => exact append_ne_empty (by decide)
    | headerLength length => exact append_ne_empty (by decide)
    | roundsOutOfRange rounds => exact append_ne_empty (by decide)
    | notInitialized => decide
  cases failure with
  | settingsFile path error => exact append_ne_empty (by decide)
  | settings error =>
    cases error with
    | unreadable => decide
    | malformed => decide
    | invalid fault => exact hinvalid fault
  | hex argument error => exact append_ne_empty (by decide)
  | engine error => exact hengine error
  | mining error => exact append_ne_empty (by decide)

theorem Outcome.errorText?_of_failure {run : Outcome} {failure : Failure}
    (h : run.failure? = some failure) : run.errorText? = some failure.message := by
  rw [errorText?, h, Option.map_some]

theorem Outcome.status_eq_one_iff {run : Outcome} :
    run.status = 1 ↔ run.failure?.isSome = true := by
  rw [status]
  cases run.failure?.isSome <;> decide

theorem Outcome.status_eq_zero_iff {run : Outcome} : run.status = 0 ↔ run.failure? = none := by
  rw [status]
  cases run.failure? <;> simp

section
variable {arguments : List String} {run : Outcome} (h : program machine files arguments = some run)
include h

/-- A command that has no fault of its own fails only for its settings. -/
theorem failure?_eq_some_iff {command : Command}
    (hcommand : ∀ s, command.fault? machine s = none)
    (hrun : Invocation.ofArguments? arguments = some (.run o command)) (failure : Failure) :
    run.failure? = some failure ↔ settings machine files o = .error failure := by
  obtain ⟨same, hsame, hanswers⟩ := exists_program machine files hrun
  cases h.symm.trans hsame
  rw [hanswers.failure?_eq, Invocation.fault?]
  cases settings machine files o <;> simp [hcommand]

theorem output_of_benchmark {count : UInt32}
    (hrun : Invocation.ofArguments? arguments = some (.run o (.benchmark count))) {first : Line}
    (hfirst : run.output.head? = some first) : run.output = first :: benchmarkResults count := by
  rw [program, hrun, Option.map_some, Invocation.outcome] at h
  cases hs : settings machine files o with
  | error failure =>
    rw [hs] at h
    cases h
    cases hfirst
  | ok s =>
    obtain ⟨heading, hbenchmark⟩ := benchmark_of_valid (validate_of_settings hs) count
    rw [hs] at h
    simp only [Command.outcome, hbenchmark, Option.some.injEq] at h
    cases h
    cases hfirst
    rfl

end

/-- A run that fails prints nothing and leaves an error text, and one that succeeds leaves no error
text. The command that shows the parameters, and a benchmark of any length, fail only for their
settings, so a benchmark that prints its first line prints its results. -/
theorem failing_run_prints_nothing (machine : Machine) (files : Files) {arguments : List String}
    {run : Outcome} (h : program machine files arguments = some run) :
    (run.status = 0 ∨ run.status = 1) ∧
      (run.status = 1 → run.output = [] ∧ ∃ text, run.errorText? = some text ∧ text ≠ "") ∧
      (run.status = 0 → run.errorText? = none) ∧
      (∀ o, Invocation.ofArguments? arguments = some (.run o .params) →
        ∀ failure, run.failure? = some failure ↔ settings machine files o = .error failure) ∧
      ∀ o count, Invocation.ofArguments? arguments = some (.run o (.benchmark count)) →
        (∀ failure, run.failure? = some failure ↔ settings machine files o = .error failure) ∧
          ∀ first, run.output.head? = some first →
            run.output = first :: benchmarkResults count := by
  refine ⟨?_, ?_, ?_, ?_, ?_⟩
  · rw [Outcome.status]
    cases run.failure?.isSome
    · exact .inl rfl
    · exact .inr rfl
  · intro hstatus
    have hfailure := Outcome.status_eq_one_iff.mp hstatus
    obtain ⟨invocation, hinvocation, rfl⟩ := Option.map_eq_some_iff.mp h
    obtain ⟨failure, hsome⟩ := Option.isSome_iff_exists.mp hfailure
    exact ⟨(answers_invocation machine files invocation).output_eq_nil hfailure, failure.message,
      Outcome.errorText?_of_failure hsome, failure.message_ne_empty⟩
  · intro hstatus
    rw [Outcome.errorText?, Outcome.status_eq_zero_iff.mp hstatus, Option.map_none]
  · intro o hrun
    exact failure?_eq_some_iff h (fun _ => rfl) hrun
  · intro o count hrun
    exact ⟨failure?_eq_some_iff h (fun _ => rfl) hrun, fun first => output_of_benchmark h hrun⟩

/-- A benchmark of three nonces, and a text with a letter that is no digit. -/
theorem failing_run_prints_nothing_samples :
    (∃ run, program .single (fun _ => none) (line fewestRounds (.benchmark 3)) = some run ∧
      run.status = 0 ∧ run.errorText? = none ∧
        ∃ first, run.output.head? = some first ∧ run.output = first :: benchmarkResults 3) ∧
      ∃ run, program .single (fun _ => none) (line fewestRounds (.hash (.hex "0x1g"))) = some run ∧
        run.status = 1 ∧ run.output = [] ∧ ∃ text, run.errorText? = some text ∧ text ≠ "" := by
  have hs := settings_fewestRounds .single fun _ => none
  constructor
  · have hline := ofArguments?_line (o := fewestRounds) nofun (.benchmark 3)
    have hrun := program_of_settings hline hs
    obtain ⟨first, hbenchmark⟩ := benchmark_of_valid (validate_of_settings hs) 3
    rw [Command.outcome, hbenchmark] at hrun
    obtain ⟨-, -, hsuccess, -, hresults⟩ := failing_run_prints_nothing .single _ hrun
    exact ⟨_, hrun, rfl, hsuccess rfl, first, rfl, (hresults fewestRounds 3 hline).2 first rfl⟩
  · have hline := ofArguments?_line (o := fewestRounds) nofun (.hash (.hex "0x1g"))
    have hfault : hexFault? "input" "0x1g" = some (.hex "input" (.badDigit 0x67 1)) := by
      decide +kernel
    obtain ⟨run, hrun, hanswers⟩ := exists_program .single (fun _ => none) hline
    have hstatus : run.status = 1 := by
      rw [Outcome.status_eq_one_iff, hanswers.failure?_eq]
      simp only [Invocation.fault?, hs, Command.fault?, hfault, Option.isSome_some]
    exact ⟨run, hrun, hstatus, (failing_run_prints_nothing .single _ hrun).2.1 hstatus⟩

end Padwork.CommandLine
