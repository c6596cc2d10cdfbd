import Padwork.Bytes.Utf8
import Padwork.Json.Value
import Padwork.Settings.Basic

/-!
# The settings file

A settings file holds one JSON value. An object names fields in any order, an array
gives them by position, and a field that is not given has its default. Members with
other keys are skipped whatever their values, but a field may not be given twice,
and its value must be a plain natural number that fits a word.
-/
namespace Padwork.Settings

inductive Field where
  | rounds
  | threads
  | batchSize
deriving DecidableEq

namespace Field

/-- The fields by position. -/
def all : List Field := [rounds, threads, batchSize]

def name : Field → String
  | rounds => "rounds"
  | threads => "threads"
  | batchSize => "batch_size"

def ofKey? (key : Json.Units) : Option Field :=
  all.find? fun field => Json.Units.ofString field.name == key

end Field

def get (s : Settings) : Field → UInt64
  | .rounds => s.rounds
  | .threads => s.threads
  | .batchSize => s.batchSize

abbrev Given := Field → Option UInt64

namespace Given

def none : Given := fun _ => .none

def put (g : Given) (field : Field) (value : UInt64) : Given :=
  fun other => if other = field then some value else g other

def settings (machine : Machine) (g : Given) : Settings where
  rounds := (g .rounds).getD (default machine).rounds
  threads := (g .threads).getD (default machine).threads
  batchSize := (g .batchSize).getD (default machine).batchSize

end Given

/-- The word that a JSON value stands for. -/
def wordOf? : Json → Option UInt64
  | .number numeral =>
    (Decimal.value? numeral).bind fun n => if n < UInt64.size then some (.ofNat n) else none
  | _ => none

/-- Adds the members of an object to the fields given so far. -/
def ofMembers? (g : Given) : List (Json.Units × Json) → Option Given
  | [] => some g
  | (key, value) :: rest =>
    match Field.ofKey? key with
    | some field =>
      if (g field).isSome then none
      else (wordOf? value).bind fun word => ofMembers? (g.put field word) rest
    | none => if key.isWellFormed then ofMembers? g rest else none

def ofElements? (g : Given) : List Field → List Json → Option Given
  | _, [] => some g
  | [], _ :: _ => none
  | field :: fields, value :: rest =>
    (wordOf? value).bind fun word => ofElements? (g.put field word) fields rest

def ofJson? (machine : Machine) : Json → Option Settings
  | .object members => (ofMembers? .none members).map (·.settings machine)
  | .array elements => (ofElements? .none Field.all elements).map (·.settings machine)
  | _ => none

/-- Reads and checks the settings of a file, where `none` is a file that cannot be read. A file that
is not UTF-8 cannot be read either. -/
def load (machine : Machine) (file : Option Bytes) : Except Error Settings :=
  match file.bind ofUtf8? with
  | none => .error .unreadable
  | some text =>
    match (Json.parse? text).bind (ofJson? machine) with
    | none => .error .malformed
    | some s => s.validate.map fun _ => s

def member (s : Settings) (field : Field) : String :=
  "  \"" ++ field.name ++ "\": " ++ Decimal.render (s.get field).toNat

def render (s : Settings) : String :=
  "\x7b\n" ++ s.member .rounds ++ ",\n" ++ s.member .threads ++ ",\n" ++
    s.member .batchSize ++ "\n\x7d"

end Padwork.Settings
