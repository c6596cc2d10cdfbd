/-!
# Commands and options

The commands of the program and the options that each of them takes. The shared
options stand before or behind the command's name, and so does the request for help;
the version can only be asked for before it.
-/
namespace Padwork.CommandLine

inductive Verb where
  | hash
  | verify
  | mine
  | benchmark
  | params
deriving DecidableEq

def Verb.all : List Verb := [.hash, .verify, .mine, .benchmark, .params]

def Verb.name : Verb → String
  | .hash => "hash"
  | .verify => "verify"
  | .mine => "mine"
  | .benchmark => "benchmark"
  | .params => "params"

def Verb.ofName? (name : String) : Option Verb := all.find? fun verb => verb.name == name

inductive Key where
  | config
  | rounds
  | threads
  | verbose
  | version
  | help
  | text
  | previousHash
  | minerAddress
  | header
  | target
  | nonce
  | start
  | nonceCount
  | runCount
deriving DecidableEq

namespace Key

def long : Key → String
  | config => "config"
  | rounds => "rounds"
  | threads => "threads"
  | verbose => "verbose"
  | version => "version"
  | help => "help"
  | text => "text"
  | previousHash => "prev-hash"
  | minerAddress => "miner-addr"
  | header => "header-prefix"
  | target => "target"
  | nonce => "nonce"
  | start => "start"
  | nonceCount => "count"
  | runCount => "count"

def short? : Key → Option Char
  | threads => some 't'
  | verbose => some 'v'
  | version => some 'V'
  | help => some 'h'
  | runCount => some 'c'
  | _ => none

def takesValue : Key → Bool
  | verbose | version | help => false
  | _ => true

/-- The options that any command takes, before or after its name. -/
def shared : List Key := [config, rounds, threads, verbose]

def template : List Key := [previousHash, minerAddress, header, target]

end Key

/-- Where an argument stands: before the command's name, or behind it. -/
inductive Level where
  | outer
  | command (verb : Verb)

/-- The options that only this command takes, or commands like it. -/
def Verb.keys : Verb → List Key
  | .hash => [.text]
  | .verify => .nonce :: Key.template
  | .mine => .start :: .nonceCount :: Key.template
  | .benchmark => [.runCount]
  | .params => []

def Level.keys : Level → List Key
  | .outer => .version :: .help :: Key.shared
  | .command verb => .help :: verb.keys ++ Key.shared

def Level.ofLong? (level : Level) (name : List Char) : Option Key :=
  level.keys.find? fun key => key.long.toList == name

def Level.ofShort? (level : Level) (letter : Char) : Option Key :=
  level.keys.find? fun key => key.short? == some letter

end Padwork.CommandLine
