import Padwork.CommandLine.Invocation
import Padwork.CommandLine.Outcome
import Padwork.Settings.File

/-!
# Runs

The program as a function of its invocation, of the machine it runs on and of the files
it may read. Settings are loaded, overridden and checked before any command looks at its
arguments.
-/
namespace Padwork.CommandLine
open Parameters

abbrev Files := String → Option Bytes

/-- The settings of a run: from the file or by default, with the overrides put in. A file is
checked on its own first. -/
def settings (machine : Machine) (files : Files) (o : Overrides) : Except Failure Settings := do
  let base ← match o.config with
    | none => pure (Settings.default machine)
    | some path => (Settings.load machine (files path)).mapError (.settingsFile path)
  let s := { base with rounds := o.rounds.getD base.rounds, threads := o.threads.getD base.threads }
  s.validate.mapError .settings
  return s

structure Template where
  previousHash : Bytes
  minerAddress : Bytes
  header : Bytes
  target : Bytes

def decodeHex (argument text : String) : Except Failure Bytes :=
  (Hex.decode text).mapError (.hex argument)

def TemplateText.decode (t : TemplateText) : Except Failure Template := do
  let previousHash ← decodeHex Key.previousHash.long t.previousHash
  let minerAddress ← decodeHex Key.minerAddress.long t.minerAddress
  let header ← decodeHex Key.header.long t.header
  let target ← decodeHex Key.target.long t.target
  return ⟨previousHash, minerAddress, header, target⟩

def Source.bytes : Source → Except Failure Bytes
  | .hex digits => decodeHex "input" digits
  | .text content => .ok (utf8 content)

def hash (source : Source) : Outcome :=
  match source.bytes with
  | .error failure => .failed failure
  | .ok bytes => .success [.text (Hex.encode (Sha3.hash bytes).toList)]

def verify (s : Settings) (template : TemplateText) (nonce : UInt64) : Outcome :=
  match template.decode with
  | .error failure => .failed failure
  | .ok t =>
    match Padwork.verify t.previousHash t.minerAddress s.rounds t.header nonce t.target with
    | .error error => .failed (.engine error)
    | .ok result => .success
        [.text ("Digest: " ++ Hex.encode result.digest.toList),
         .text ("Rounds: " ++ Decimal.render s.rounds.toNat),
         .text ("Valid:  " ++ if result.valid then "true" else "false")]

def miningHeading (s : Settings) (range : NonceRange) : List Record :=
  [⟨.info, "Starting mining..."⟩,
   ⟨.info, "Threads: " ++ Decimal.render s.threads.toNat⟩,
   ⟨.info, "Rounds: " ++ Decimal.render s.rounds.toNat⟩,
   ⟨.info, "Nonce range: " ++ range.text⟩]

/-- What is printed, and what is logged as a warning, when a mining run has ended. -/
def miningConclusion (range : NonceRange) : Mining.Outcome → List Line × List Record
  | .found solution =>
    ([.text "Found valid proof!",
      .text ("Nonce: " ++ Decimal.render solution.nonce.toNat),
      .text ("Digest: " ++ Hex.encode solution.digest.toList)], [])
  | .exhausted => ([], [⟨.warn, "No valid nonce in " ++ range.text⟩])
  | .stopped => ([], [⟨.warn, "Mining stopped"⟩])

def mine (machine : Machine) (s : Settings) (template : TemplateText) (start : UInt64)
    (count : Option UInt64) : Outcome :=
  match template.decode with
  | .error failure => .failed failure
  | .ok t =>
    let range := NonceRange.ofCount start count
    let heading := miningHeading s range
    match Miner.ofSettings machine s t.previousHash t.minerAddress with
    | .error error => ⟨[], heading, some (.mining error)⟩
    | .ok miner =>
      let run := miner.mine t.header t.target range none
      match run.result with
      | .error error => ⟨[], heading, some (.mining error)⟩
      | .ok outcome =>
        let notice := ((run.notice? range).map (Record.mk .info)).toList
        let (output, warnings) := miningConclusion range outcome
        ⟨output, heading ++ notice ++ warnings, none⟩

def benchmarkEngine (s : Settings) : Except Engine.Error Engine :=
  Engine.forTemplate (.replicate seedInputSize 0) (.replicate seedInputSize 1) s.rounds

def verifyMany (e : Engine) (next : UInt64) : Nat → Except Engine.Error Unit
  | 0 => .ok ()
  | count + 1 =>
    match e.verify (.replicate headerSize 0) next (.replicate targetSize 0xFF) with
    | .error error => .error error
    | .ok _ => verifyMany e (next + 1) count

def benchmark (s : Settings) (count : UInt32) : Outcome :=
  let heading := Line.text ("Running benchmark: scratchpad init + " ++
    Decimal.render count.toNat ++ " verifications at " ++ Decimal.render s.rounds.toNat ++
    " rounds...")
  match benchmarkEngine s >>= (verifyMany · 0 count.toNat) with
  | .error error => ⟨[heading], [], some (.engine error)⟩
  | .ok () => .success
      [heading, .text "", .text "Results:",
       .measured "  Scratchpad init:" .setupTime,
       .text ("  Verifications: " ++ Decimal.render count.toNat),
       .measured "  Time elapsed:" .elapsedTime,
       .measured "  Hashrate (single thread):" .hashRate]

def params : Outcome := .success
  [.text "Algorithm parameters:",
   .text ("  Hash: SHA3-256 (domain 0x" ++ Hex.encode [domain] ++ ")"),
   .text ("  Scratchpad: " ++ Decimal.render chunkCount ++ " chunks x " ++
     Decimal.render chunkSize ++ " bytes = " ++ Decimal.render (scratchpadSize / 1048576) ++
     " MiB"),
   .text ("  Rounds: " ++ Decimal.render defaultRounds.toNat ++ " (allowed " ++
     Decimal.render minRounds.toNat ++ "-" ++ Decimal.render maxRounds.toNat ++ ")"),
   .text ("  Header prefix: " ++ Decimal.render headerSize ++ " bytes")]

def Command.outcome (machine : Machine) (s : Settings) : Command → Outcome
  | .hash source => CommandLine.hash source
  | .verify template nonce => CommandLine.verify s template nonce
  | .mine template start count => CommandLine.mine machine s template start count
  | .benchmark count => CommandLine.benchmark s count
  | .params => CommandLine.params

def Invocation.outcome (machine : Machine) (files : Files) : Invocation → Outcome
  | .version => .success [.text "scratchpow 0.1.0"]
  | .help => .success [.text usage]
  | .run overrides command =>
    match settings machine files overrides with
    | .error failure => .failed failure
    | .ok s => command.outcome machine s

def Invocation.config? : Invocation → Option String
  | .version | .help => none
  | .run overrides _ => overrides.config

/-- The engine and the number of hashes of a benchmark, if that is what is asked for. -/
def Invocation.benchmark? (machine : Machine) (files : Files) : Invocation → Option (Engine × Nat)
  | .run overrides (.benchmark count) => do
    let s ← (settings machine files overrides).toOption
    let engine ← (benchmarkEngine s).toOption
    return (engine, count.toNat)
  | _ => none

/-- The whole program. Nothing comes of arguments that are not usable. -/
def program (machine : Machine) (files : Files) (arguments : List String) : Option Outcome :=
  (Invocation.ofArguments? arguments).map (·.outcome machine files)

end Padwork.CommandLine
