import Padwork.CommandLine.Argument
import Padwork.CommandLine.Number

/-!
# Invocations

What a usable line of arguments asks for. An option may stand once at each level,
and one that belongs to every command may stand at both: then the one behind the
command's name counts. Numbers are checked here, hexadecimal texts are not. What stands
before a request for help has to be usable as far as it goes.
-/
namespace Padwork.CommandLine

/-- What the user sets for one run, in place of the settings. Debug records, which are all that
`verbose` asks for, are not part of what a run leaves here. -/
structure Overrides where
  config : Option String
  rounds : Option UInt64
  threads : Option UInt64
  verbose : Bool
deriving DecidableEq

inductive Source where
  | hex (digits : String)
  | text (text : String)
deriving DecidableEq

structure TemplateText where
  previousHash : String
  minerAddress : String
  header : String
  target : String
deriving DecidableEq

inductive Command where
  | hash (source : Source)
  | verify (template : TemplateText) (nonce : UInt64)
  | mine (template : TemplateText) (start : UInt64) (count : Option UInt64)
  | benchmark (count : UInt32)
  | params
deriving DecidableEq

inductive Invocation where
  | version
  | help
  | run (overrides : Overrides) (command : Command)
deriving DecidableEq

def valuesOf (items : List Item) (key : Key) : List String :=
  items.filterMap fun
    | .option other value => if other = key then some value else none
    | .flag _ | .word _ => none

def wordsOf (items : List Item) : List String :=
  items.filterMap fun
    | .word text => some text
    | .flag _ | .option _ _ => none

/-- The value of an option that need not be given, read by `read?`. -/
def optional? {α : Type} (items : List Item) (key : Key) (read? : String → Option α) :
    Option (Option α) :=
  match valuesOf items key with
  | [] => some none
  | [value] => (read? value).map some
  | _ :: _ :: _ => none

def required? {α : Type} (items : List Item) (key : Key) (read? : String → Option α) : Option α :=
  (optional? items key read?).join

def given? (items : List Item) (key : Key) : Option Bool :=
  match items.count (.flag key) with
  | 0 => some false
  | 1 => some true
  | _ => none

def path? (text : String) : Option String := if text.isEmpty then none else some text

def overrides? (items : List Item) : Option Overrides := do
  let config ← optional? items .config path?
  let rounds ← optional? items .rounds word?
  let threads ← optional? items .threads word?
  let verbose ← given? items .verbose
  return ⟨config, rounds, threads, verbose⟩

/-- Overrides from both levels, where the inner ones count. -/
def Overrides.within (inner outer : Overrides) : Overrides :=
  ⟨inner.config <|> outer.config, inner.rounds <|> outer.rounds, inner.threads <|> outer.threads,
    inner.verbose || outer.verbose⟩

def template? (items : List Item) : Option TemplateText := do
  let previousHash ← required? items .previousHash some
  let minerAddress ← required? items .minerAddress some
  let header ← required? items .header some
  let target ← required? items .target some
  return ⟨previousHash, minerAddress, header, target⟩

/-- The command that a verb and its items make, words included. -/
def command? (verb : Verb) (items : List Item) : Option Command :=
  match verb, wordsOf items with
  | .hash, words => do
    match ← optional? items .text some, words with
    | none, [digits] => some (.hash (.hex digits))
    | some text, [] => some (.hash (.text text))
    | _, _ => none
  | .verify, [] => do
    let template ← template? items
    let nonce ← required? items .nonce word?
    return .verify template nonce
  | .mine, [] => do
    let template ← template? items
    let start ← optional? items .start word?
    let count ← optional? items .nonceCount word?
    return .mine template (start.getD 0) count
  | .benchmark, [] => do
    let count ← optional? items .runCount count?
    return .benchmark (count.getD 1000)
  | .params, [] => some .params
  | _, _ :: _ => none

def Key.reads (key : Key) (value : String) : Bool :=
  match key with
  | .config => (path? value).isSome
  | .rounds | .threads | .nonce | .start | .nonceCount => (word? value).isSome
  | .runCount => (count? value).isSome
  | _ => true

/-- Whether an option stands at most once, with a value that can be read if it takes one. -/
def Key.fits (key : Key) (items : List Item) : Bool :=
  if key.takesValue then (valuesOf items key).length ≤ 1 && (valuesOf items key).all key.reads
  else (given? items key).isSome

def Verb.wordCount : Verb → Nat
  | .hash => 1
  | _ => 0

/-- Whether the items may stand before a request for help on a command. Options that the command
needs may be missing. -/
def acceptable (verb : Verb) (items : List Item) : Bool :=
  (verb.keys ++ Key.shared).all (·.fits items) && (wordsOf items).length ≤ verb.wordCount

def Invocation.ofCommand? (outer : Overrides) (verb : Verb) (rest : List String) :
    Option Invocation := do
  let (items, ending) ← items? (.command verb) .nothing rest
  if ending = .help then
    if acceptable verb items then some .help else none
  else
    let inner ← overrides? items
    let command ← command? verb items
    return .run (inner.within outer) command

/-- What the command that shows help asks for: help on all, on one command or on itself. -/
def Invocation.ofHelp? : List String → Option Invocation
  | [] => some .help
  | [name] => if name = "help" ∨ (Verb.ofName? name).isSome then some .help else none
  | _ => none

/-- What the arguments ask for, if they are usable. -/
def Invocation.ofArguments? (arguments : List String) : Option Invocation := do
  let (items, ending) ← items? .outer .nothing arguments
  let outer ← overrides? items
  match ending with
  | .done => none
  | .version => return .version
  | .help => return .help
  | .command name rest =>
    if name = "help" then ofHelp? rest
    else
      let verb ← Verb.ofName? name
      ofCommand? outer verb rest

/-- What is shown on request, or when the arguments are not usable. -/
def usage : String :=
  "Usage: scratchpow [--config FILE] [--rounds N] [-t N] [-v] COMMAND\n\n" ++
  "Commands:\n" ++
  "  hash (HEX | --text TEXT)\n" ++
  "  verify TEMPLATE --nonce N\n" ++
  "  mine TEMPLATE [--start N] [--count N]\n" ++
  "  benchmark [-c N]\n" ++
  "  params\n" ++
  "  help [COMMAND]\n\n" ++
  "TEMPLATE: --prev-hash HEX --miner-addr HEX --header-prefix HEX --target HEX"

end Padwork.CommandLine
