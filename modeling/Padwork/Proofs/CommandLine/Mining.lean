import Padwork.CommandLine.Run
import Padwork.Proofs.Bytes.Hex
import Padwork.Proofs.CommandLine.Spelling
import Padwork.Proofs.Mining.Agreement
import Padwork.Proofs.Mining.Ending

/-!
# Mining and checking from the command line

The line that checks a nonce has the options and the texts of the line that mines, and
the nonce as the text that mining prints. A line that mines and succeeds prints the
lowest nonce of its range that such a line accepts, or warns that there is none, and
then such lines refuse each nonce of the range.
-/
namespace Padwork.CommandLine
open Mining hiding Outcome

variable {machine : Machine} {files : Files} {o : Overrides} {t : TemplateText} {s : Settings}
  {b : Template} {start : UInt64} {count : Option UInt64} {stop : Nat}

/-! ## Lines that check a nonce -/

def verifyLine (o : Overrides) (t : TemplateText) (nonce : String) : List String :=
  "verify" :: (o.items ++ (t.items ++ [Item.option .nonce nonce])).map Item.argument

/-- The line that checks the nonce succeeds, and prints the digest and that it is valid. -/
def Accepts (machine : Machine) (files : Files) (o : Overrides) (t : TemplateText)
    (nonce digest : String) : Prop :=
  ∃ rounds, program machine files (verifyLine o t nonce) = some (.success
    [.text ("Digest: " ++ digest), .text ("Rounds: " ++ rounds), .text "Valid:  true"])

/-- The line that checks the nonce succeeds, and prints that it is not valid. -/
def Refuses (machine : Machine) (files : Files) (o : Overrides) (t : TemplateText)
    (nonce : String) : Prop :=
  ∃ digest rounds, program machine files (verifyLine o t nonce) = some (.success
    [.text ("Digest: " ++ digest), .text ("Rounds: " ++ rounds), .text "Valid:  false"])

theorem Refuses.not_accepts {nonce digest : String} (h : Refuses machine files o t nonce) :
    ¬Accepts machine files o t nonce digest := by
  obtain ⟨_, _, hrefuses⟩ := h
  rintro ⟨_, haccepts⟩
  rw [hrefuses] at haccepts
  simp [Outcome.success] at haccepts

theorem line_verify (o : Overrides) (t : TemplateText) (nonce : UInt64) :
    line o (.verify t nonce) = verifyLine o t (wordText nonce) :=
  congrArg ("verify" :: ·) (List.append_nil _)

theorem program_of_settings {arguments : List String} {command : Command}
    (h : Invocation.ofArguments? arguments = some (.run o command))
    (hs : settings machine files o = .ok s) :
    program machine files arguments = some (command.outcome machine s) := by
  simp only [program, h, Option.map_some, Invocation.outcome, hs]

section
variable (ho : o.config ≠ some "") (hs : settings machine files o = .ok s) (ht : t.decode = .ok b)
  {nonce : UInt64}
include ho hs ht

theorem program_verifyLine {result : Verification}
    (h : Padwork.verify b.previousHash b.minerAddress s.rounds b.header nonce b.target =
      .ok result) :
    program machine files (verifyLine o t (wordText nonce)) = some (.success
      [.text ("Digest: " ++ Hex.encode result.digest.toList),
        .text ("Rounds: " ++ Decimal.render s.rounds.toNat),
        .text ("Valid:  " ++ if result.valid then "true" else "false")]) := by
  rw [← line_verify, program_of_settings (ofArguments?_line ho _) hs]
  simp only [Command.outcome, verify, ht, h]

theorem accepts_of_verify {digest : Bytes32}
    (h : Padwork.verify b.previousHash b.minerAddress s.rounds b.header nonce b.target =
      .ok ⟨digest, true⟩) :
    Accepts machine files o t (wordText nonce) (Hex.encode digest.toList) := by
  have hvalid : "Valid:  " ++ "true" = "Valid:  true" := rfl
  refine ⟨Decimal.render s.rounds.toNat, ?_⟩
  rw [program_verifyLine ho hs ht h, if_pos rfl, hvalid]

theorem refuses_of_verify {digest : Bytes32}
    (h : Padwork.verify b.previousHash b.minerAddress s.rounds b.header nonce b.target =
      .ok ⟨digest, false⟩) :
    Refuses machine files o t (wordText nonce) := by
  have hvalid : "Valid:  " ++ "false" = "Valid:  false" := rfl
  refine ⟨Hex.encode digest.toList, Decimal.render s.rounds.toNat, ?_⟩
  rw [program_verifyLine ho hs ht h, if_neg Bool.false_ne_true, hvalid]

end

/-! ## What mining leaves -/

/-- The end of the nonces that are tried. It is not one of them. -/
def stopOf (start : UInt64) : Option UInt64 → Nat
  | some count => min (start.toNat + count.toNat) (2 ^ 64 - 1)
  | none => 2 ^ 64 - 1

theorem toNat_stop_ofCount (start : UInt64) (count : Option UInt64) :
    (NonceRange.ofCount start count).stop.toNat = stopOf start count := by
  cases count with
  | none => rfl
  | some count => exact toNat_addSaturating start count

theorem start_ofCount (start : UInt64) (count : Option UInt64) :
    (NonceRange.ofCount start count).start = start := by
  cases count <;> rfl

theorem text_ofCount (start : UInt64) (count : Option UInt64) :
    (NonceRange.ofCount start count).text =
      wordText start ++ ".." ++ Decimal.render (stopOf start count) := by
  rw [NonceRange.text, toNat_stop_ofCount, start_ofCount, wordText]

/-- What a run over the nonces from `start` on and below `stop` leaves when it succeeds, in terms of
lines that check single nonces. -/
inductive Settled (machine : Machine) (files : Files) (o : Overrides) (t : TemplateText)
    (start : UInt64) (stop : Nat) : Outcome → Prop
  | found {log : List Record} {nonce : UInt64} {digest : String}
      (hlog : ∀ record ∈ log, record.severity = .info)
      (hstart : start ≤ nonce) (hstop : nonce.toNat < stop)
      (haccepts : Accepts machine files o t (wordText nonce) digest)
      (hrefuses : ∀ m, start ≤ m → m < nonce → Refuses machine files o t (wordText m)) :
      Settled machine files o t start stop
        ⟨[.text "Found valid proof!", .text ("Nonce: " ++ wordText nonce),
          .text ("Digest: " ++ digest)], log, none⟩
  | exhausted {log : List Record}
      (hlog : ∀ record ∈ log, record.severity = .info)
      (hrefuses : ∀ m, start ≤ m → m.toNat < stop → Refuses machine files o t (wordText m)) :
      Settled machine files o t start stop
        ⟨[], log ++ [⟨.warn, "No valid nonce in " ++
          (wordText start ++ ".." ++ Decimal.render stop)⟩], none⟩

theorem stopped_notMem_of_info {log : List Record}
    (h : ∀ record ∈ log, record.severity = .info) : ⟨.warn, "Mining stopped"⟩ ∉ log := by
  intro hmem
  cases h _ hmem

theorem Settled.stopped_notMem {run : Outcome} (h : Settled machine files o t start stop run) :
    ⟨.warn, "Mining stopped"⟩ ∉ run.log := by
  cases h with
  | found hlog => exact stopped_notMem_of_info hlog
  | exhausted hlog =>
    have hne (text : String) : "Mining stopped" ≠ "No valid nonce in " ++ text := by
      intro h
      have hlist := congrArg String.toList h
      simp at hlist
    simp [stopped_notMem_of_info hlog, hne]

theorem info_of_mem_miningHeading {s : Settings} {range : NonceRange} {record : Record}
    (h : record ∈ miningHeading s range) : record.severity = .info := by
  simp only [miningHeading, List.mem_cons, List.not_mem_nil, or_false] at h
  rcases h with rfl | rfl | rfl | rfl <;> rfl

def miningLog (s : Settings) (range : NonceRange) (run : Run) : List Record :=
  miningHeading s range ++ ((run.notice? range).map (Record.mk .info)).toList

theorem info_of_mem_miningLog {s : Settings} {range : NonceRange} {run : Run} {record : Record}
    (h : record ∈ miningLog s range run) : record.severity = .info := by
  rcases List.mem_append.mp h with h | h
  · exact info_of_mem_miningHeading h
  · obtain ⟨text, -, rfl⟩ := Option.map_eq_some_iff.mp (Option.mem_toList.mp h)
    rfl

theorem mine_of_result {m : Miner} {outcome : Mining.Outcome} (ht : t.decode = .ok b)
    (hm : Miner.ofSettings machine s b.previousHash b.minerAddress = .ok m) {range : NonceRange}
    (hrange : range = .ofCount start count)
    (hresult : (m.mine b.header b.target range none).result = .ok outcome) :
    mine machine s t start count =
      ⟨(miningConclusion range outcome).1,
        miningLog s range (m.mine b.header b.target range none) ++
          (miningConclusion range outcome).2, none⟩ := by
  subst hrange
  simp only [mine, ht, hm, hresult, miningLog]

/-- A run that mines fails without a warning, or all that it needs is usable. -/
theorem mine_cases (machine : Machine) (s : Settings) (t : TemplateText) (start : UInt64)
    (count : Option UInt64) :
    ((mine machine s t start count).failure?.isSome = true ∧
        ∀ record ∈ (mine machine s t start count).log, record.severity = .info) ∨
      ∃ b m bound, t.decode = .ok b ∧
        Miner.ofSettings machine s b.previousHash b.minerAddress = .ok m ∧
        m.engine.checkAttempt b.header b.target = .ok bound := by
  cases ht : t.decode with
  | error failure =>
    simp only [mine, ht]
    exact .inl ⟨rfl, nofun⟩
  | ok b =>
    cases hm : Miner.ofSettings machine s b.previousHash b.minerAddress with
    | error error =>
      simp only [mine, ht, hm]
      exact .inl ⟨rfl, fun _ => info_of_mem_miningHeading⟩
    | ok m =>
      cases hresult : (m.mine b.header b.target (.ofCount start count) none).result with
      | error error =>
        simp only [mine, ht, hm, hresult]
        exact .inl ⟨rfl, fun _ => info_of_mem_miningHeading⟩
      | ok outcome =>
        obtain ⟨bound, hok⟩ := m.exists_checkAttempt_of_result hresult
        exact .inr ⟨b, m, bound, rfl, hm, hok⟩

/-- When all that it needs is usable, lines that check single nonces confirm what a run that mines
leaves. -/
theorem settled_mine (ho : o.config ≠ some "") (hs : settings machine files o = .ok s)
    (ht : t.decode = .ok b) {m : Miner} {bound : Bytes32}
    (hm : Miner.ofSettings machine s b.previousHash b.minerAddress = .ok m)
    (hok : m.engine.checkAttempt b.header b.target = .ok bound) (start : UInt64)
    (count : Option UInt64) :
    Settled machine files o t start (stopOf start count) (mine machine s t start count) := by
  obtain ⟨outcome, hresult, hholds⟩ := m.mine_spec (.ofCount start count) none hok
  have hconfirmed := hholds.confirmed (m.verify_of_ofSettings hm hok)
  rw [mine_of_result ht hm rfl hresult]
  cases outcome with
  | found solution =>
    obtain ⟨hstart, hlt, hvalid, hlower⟩ := hconfirmed
    rw [start_ofCount] at hstart hlower
    rw [UInt64.lt_iff_toNat_lt, toNat_stop_ofCount] at hlt
    rw [miningConclusion, List.append_nil]
    refine .found (fun _ => info_of_mem_miningLog) hstart hlt (accepts_of_verify ho hs ht hvalid) ?_
    intro nonce hnonce hbelow
    obtain ⟨digest, hdigest⟩ := hlower nonce hnonce hbelow
    exact refuses_of_verify ho hs ht hdigest
  | exhausted =>
    rw [miningConclusion, text_ofCount]
    refine .exhausted (fun _ => info_of_mem_miningLog) ?_
    intro nonce hnonce hbelow
    rw [← toNat_stop_ofCount, ← UInt64.lt_iff_toNat_lt] at hbelow
    rw [← start_ofCount start count] at hnonce
    obtain ⟨digest, hdigest⟩ := hconfirmed nonce hnonce hbelow
    exact refuses_of_verify ho hs ht hdigest
  | stopped => exact absurd hresult (m.result_mine_none_ne_stopped _ hok)

/-! ## Usable templates -/

/-- What the lengths of the inputs have to be. -/
structure Template.Usable (b : Template) : Prop where
  previousHash : 32 ≤ b.previousHash.length
  minerAddress : 32 ≤ b.minerAddress.length
  header : b.header.length = 140
  target : 32 ≤ b.target.length

theorem checked_of_valid (hs : s.validate = .ok ()) :
    (do s.validate.mapError Failure.settings; return s) = Except.ok s := by
  rw [hs]
  rfl

theorem validate_of_checked {checked : Settings}
    (h : (do s.validate.mapError Failure.settings; return s) = Except.ok checked) :
    checked.validate = .ok () := by
  cases hs : s.validate with
  | error error =>
    rw [hs] at h
    cases h
  | ok =>
    rw [hs] at h
    cases h
    exact hs

theorem validate_of_settings (h : settings machine files o = .ok s) : s.validate = .ok () := by
  unfold settings at h
  split at h
  · exact validate_of_checked h
  · next path _ =>
    cases hload : Settings.load machine (files path) with
    | error error =>
      rw [hload] at h
      cases h
    | ok base =>
      rw [hload] at h
      exact validate_of_checked h

theorem Template.Usable.exists_miner (hb : b.Usable) (hpool : machine.Starts s.threads)
    (hs : settings machine files o = .ok s) :
    ∃ m bound, Miner.ofSettings machine s b.previousHash b.minerAddress = .ok m ∧
      m.engine.checkAttempt b.header b.target = .ok bound ∧ bound.toList = b.target.take 32 := by
  obtain ⟨m, hm⟩ := Miner.exists_ofSettings hpool (validate_of_settings hs) hb.previousHash
    hb.minerAddress
  obtain ⟨bound, hok, hlist⟩ := Miner.exists_checkAttempt hm hb.header hb.target
  exact ⟨m, bound, hm, hok, hlist⟩

theorem exists_settled {arguments : List String}
    (h : Invocation.ofArguments? arguments = some (.run o (.mine t start count)))
    (hs : settings machine files o = .ok s) (hpool : machine.Starts s.threads)
    (ht : t.decode = .ok b) (hb : b.Usable) :
    ∃ run, program machine files arguments = some run ∧
      Settled machine files o t start (stopOf start count) run := by
  obtain ⟨m, bound, hm, hok, -⟩ := hb.exists_miner hpool hs
  exact ⟨_, program_of_settings h hs,
    settled_mine (config_ne_of_ofArguments? h) hs ht hm hok start count⟩

def Template.texts (b : Template) : TemplateText :=
  ⟨Hex.encode b.previousHash, Hex.encode b.minerAddress, Hex.encode b.header, Hex.encode b.target⟩

theorem Template.decode_texts (b : Template) : b.texts.decode = .ok b := by
  have hdecode (argument : String) (bytes : Bytes) :
      decodeHex argument (Hex.encode bytes) = .ok bytes := by
    rw [decodeHex, Hex.decode_encode]
    rfl
  simp only [TemplateText.decode, texts, hdecode]
  rfl

/-- What a line that mines leaves agrees with what lines that check single nonces print. -/
theorem mine_line_agrees (machine : Machine) (files : Files) {arguments : List String}
    {o : Overrides} {t : TemplateText} {start : UInt64} {count : Option UInt64}
    (h : Invocation.ofArguments? arguments = some (.run o (.mine t start count))) :
    ∃ run, program machine files arguments = some run ∧
      ⟨.warn, "Mining stopped"⟩ ∉ run.log ∧
      (run.status = 0 → Settled machine files o t start (stopOf start count) run) := by
  have ho := config_ne_of_ofArguments? h
  refine ⟨_, by rw [program, h, Option.map_some], ?_⟩
  rw [Invocation.outcome]
  cases hs : settings machine files o with
  | error failure => exact ⟨nofun, nofun⟩
  | ok s =>
    simp only [Command.outcome]
    rcases mine_cases machine s t start count with ⟨hfailure, hlog⟩ | ⟨b, m, bound, ht, hm, hok⟩
    · refine ⟨stopped_notMem_of_info hlog, fun hstatus => ?_⟩
      rw [Outcome.status, if_pos hfailure] at hstatus
      cases hstatus
    · have hsettled := settled_mine ho hs ht hm hok start count
      exact ⟨hsettled.stopped_notMem, fun _ => hsettled⟩

/-- A template under whose target each nonce is valid. -/
def lenientTemplate : Template :=
  ⟨.replicate 32 0, .replicate 32 1, .replicate 140 0, .replicate 32 0xFF⟩

theorem usable_lenientTemplate : lenientTemplate.Usable where
  previousHash := by simp [lenientTemplate]
  minerAddress := by simp [lenientTemplate]
  header := by simp [lenientTemplate]
  target := by simp [lenientTemplate]

def fewestRounds : Overrides := ⟨none, some 256, none, false⟩

theorem settings_fewestRounds (machine : Machine) (files : Files) :
    settings machine files fewestRounds = .ok { Settings.default machine with rounds := 256 } := by
  obtain ⟨-, hthreads, hbatch⟩ :=
    Settings.fault?_eq_none_iff.mp (Settings.fault?_default machine)
  have hrounds : Parameters.RoundsAllowed 256 := by decide
  have hvalid : Settings.fault? { Settings.default machine with rounds := 256 } = none :=
    Settings.fault?_eq_none_iff.mpr ⟨hrounds, hthreads, hbatch⟩
  exact checked_of_valid (Settings.validate_eq_ok_iff.mpr hvalid)

theorem Settled.status_eq {run : Outcome} (h : Settled machine files o t start stop run) :
    run.status = 0 := by
  cases h <;> rfl

theorem mine_line_agrees_lenient :
    Invocation.ofArguments? (line fewestRounds (.mine lenientTemplate.texts 5 (some 3))) =
        some (.run fewestRounds (.mine lenientTemplate.texts 5 (some 3))) ∧
      ∃ run, program .single (fun _ => none)
          (line fewestRounds (.mine lenientTemplate.texts 5 (some 3))) = some run ∧
        run.status = 0 ∧ ⟨.warn, "Mining stopped"⟩ ∉ run.log ∧
        Settled .single (fun _ => none) fewestRounds lenientTemplate.texts 5 8 run := by
  have hline := ofArguments?_line (o := fewestRounds) nofun
    (.mine lenientTemplate.texts 5 (some 3))
  obtain ⟨run, hrun, hlog, hsettled⟩ := mine_line_agrees .single (fun _ => none) hline
  obtain ⟨same, hsame, hstatus⟩ := exists_settled hline
    (settings_fewestRounds .single fun _ => none) (Machine.single_starts _)
    (Template.decode_texts _) usable_lenientTemplate
  rw [hrun] at hsame
  cases hsame
  exact ⟨hline, run, hrun, hstatus.status_eq, hlog, hsettled hstatus.status_eq⟩

end Padwork.CommandLine
