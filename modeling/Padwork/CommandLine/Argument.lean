import Padwork.CommandLine.Key

/-!
# Arguments

The arguments of a level are read from left to right. At the outer level the first
word names the command, inside a command words are collected. The value of an
option is attached to it or is the next argument, and then must not look like an
option itself. After two dashes alone everything is a word.
-/
namespace Padwork.CommandLine

/-- What an argument looks like. A single dash is a word. -/
inductive Shape where
  | endOfOptions
  | long (name : List Char) (value : Option (List Char))
  | short (letters : List Char)
  | word
deriving DecidableEq

def Shape.of : List Char → Shape
  | ['-', '-'] => .endOfOptions
  | '-' :: '-' :: body =>
    .long (body.takeWhile (· != '=')) (body.dropWhile (· != '=')).tail?
  | '-' :: letter :: letters => .short (letter :: letters)
  | _ => .word

inductive Item where
  | flag (key : Key)
  | option (key : Key) (value : String)
  | word (text : String)
deriving DecidableEq

inductive Ending where
  | done
  | version
  | help
  | command (name : String) (rest : List String)
deriving DecidableEq

def Key.ending? : Key → Option Ending
  | .version => some .version
  | .help => some .help
  | _ => none

/-- The value that is attached to a short option, with or without a sign of equality. -/
def afterEquals : List Char → String
  | '=' :: value => String.ofList value
  | value => String.ofList value

/-- What is left to do before the next argument is looked at. -/
inductive Pending where
  | nothing
  | value (key : Key)
  | letters (letters : List Char)

def Pending.size : Pending → Nat
  | .nothing => 0
  | .value _ => 1
  | .letters rest => rest.length + 1

def behind (item : Item) (following : Option (List Item × Ending)) : Option (List Item × Ending) :=
  following.map fun (items, ending) => (item :: items, ending)

/-- Reads the items of a level. Behind a request for the version or for help nothing is looked
at. -/
def items? (level : Level) : Pending → List String → Option (List Item × Ending)
  | .nothing, [] => some ([], .done)
  | .nothing, argument :: rest =>
    match Shape.of argument.toList with
    | .word =>
      match level with
      | .outer => some ([], .command argument rest)
      | .command _ => behind (.word argument) (items? level .nothing rest)
    | .endOfOptions =>
      match level with
      | .outer => none
      | .command _ => some (rest.map .word, .done)
    | .short letters => items? level (.letters letters) rest
    | .long name attached =>
      match level.ofLong? name with
      | none => none
      | some key =>
        match key.takesValue, attached with
        | true, some value =>
          behind (.option key (String.ofList value)) (items? level .nothing rest)
        | true, none => items? level (.value key) rest
        | false, some _ => none
        | false, none =>
          match key.ending? with
          | some ending => some ([], ending)
          | none => behind (.flag key) (items? level .nothing rest)
  | .value _, [] => none
  | .value key, value :: rest =>
    if Shape.of value.toList = .word then behind (.option key value) (items? level .nothing rest)
    else none
  | .letters [], arguments => items? level .nothing arguments
  | .letters (letter :: letters), arguments =>
    match level.ofShort? letter with
    | none => none
    | some key =>
      if key.takesValue then
        if letters.isEmpty then items? level (.value key) arguments
        else behind (.option key (afterEquals letters)) (items? level .nothing arguments)
      else
        match key.ending? with
        | some ending => some ([], ending)
        | none => behind (.flag key) (items? level (.letters letters) arguments)
termination_by pending arguments => (arguments.length, pending.size)
decreasing_by all_goals simp_wf; simp [Pending.size, Prod.lex_def]

end Padwork.CommandLine
