import Padwork.Engine.Error
import Padwork.NonceRange
import Padwork.Scratchpad

/-!
# The engine

An engine holds the scratchpad of a template and a number of rounds. It checks
single nonces and searches ranges of nonces; both refuse to work before a template
has been prepared. An engine is changed in place: a change that is refused half-way
would leave it half-changed, so all checks come first.
-/
namespace Padwork
open Parameters

structure Engine where
  scratchpad : Scratchpad
  initialized : Bool
  rounds : UInt64

/-- The outcome of one nonce. The digest is there whether or not it meets the target. -/
structure Verification where
  digest : Bytes32
  valid : Bool
deriving DecidableEq

structure Solution where
  nonce : UInt64
  digest : Bytes32
deriving DecidableEq

namespace Engine

def fresh : Engine := ⟨.zeroed, false, defaultRounds⟩

/-- A change of an engine in place. What is done before a refusal stays done. -/
abbrev Change := EStateM Error Engine Unit

def setRounds (rounds : UInt64) : Change := do
  ofExcept (checkRounds rounds)
  modify ({ · with rounds })

/-- One of the steps in which a scratchpad is built in place. -/
inductive BuildStep where
  | lower
  | clear
  | write (i : Fin chunkCount)
  | raise

def BuildStep.apply (seed : Bytes32) (e : Engine) : BuildStep → Engine
  | .lower => { e with initialized := false }
  | .clear => { e with scratchpad := e.scratchpad.cleared }
  | .write i => { e with scratchpad := e.scratchpad.write seed i }
  | .raise => { e with initialized := true }

/-- The steps that are taken while the flag is down, with the chunks in the given order. -/
def fillSteps (order : List (Fin chunkCount)) : List BuildStep := .clear :: order.map .write

/-- The steps that build a scratchpad. While it is incomplete, the engine is not ready. -/
def buildSteps (order : List (Fin chunkCount)) : List BuildStep :=
  .lower :: (fillSteps order ++ [.raise])

def build (seed : Bytes32) (steps : List BuildStep) : Change :=
  steps.forM fun step => modify (step.apply seed ·)

def prepare (previousHash minerAddress : Bytes) : Change := do
  let hash ← ofExcept (leading .previousHash previousHash)
  let address ← ofExcept (leading .minerAddress minerAddress)
  build (deriveSeed hash address) (buildSteps (List.finRange chunkCount))

def forTemplate (previousHash minerAddress : Bytes) (rounds : UInt64) : Except Error Engine := do
  checkRounds rounds
  let _ ← leading .previousHash previousHash
  let _ ← leading .minerAddress minerAddress
  match (prepare previousHash minerAddress).run { fresh with rounds } with
  | .ok () e => return e
  | .error error _ => throw error

/-- What must hold before any nonce is tried; gives the part of the target that counts. -/
def checkAttempt (e : Engine) (header target : Bytes) : Except Error Bytes32 :=
  if !e.initialized then .error .notInitialized
  else if header.length ≠ headerSize then .error (.headerLength header.length)
  else leading .target target

def digest (e : Engine) (header : Bytes) (nonce : UInt64) : Bytes32 :=
  e.scratchpad.mix e.rounds.toNat header nonce

def verify (e : Engine) (header : Bytes) (nonce : UInt64) (target : Bytes) :
    Except Error Verification := do
  let bound ← e.checkAttempt header target
  let digest := e.digest header nonce
  return ⟨digest, meets digest bound⟩

/-- The lowest nonce from `next` on and below `stop` whose digest meets the target. -/
def scan (e : Engine) (header : Bytes) (target : Bytes32) (next stop : UInt64) : Option Solution :=
  if next < stop then
    let digest := e.digest header next
    if meets digest target then some ⟨next, digest⟩ else e.scan header target (next + 1) stop
  else none
termination_by stop.toNat - next.toNat
decreasing_by
  have := stop.toNat_lt
  rename_i h _
  rw [UInt64.lt_iff_toNat_lt] at h
  rw [UInt64.toNat_add, UInt64.toNat_one]
  omega

def search (e : Engine) (header target : Bytes) (range : NonceRange) :
    Except Error (Option Solution) := do
  let bound ← e.checkAttempt header target
  return e.scan header bound range.start range.stop

end Engine

/-- Checks one nonce of a template from scratch. -/
def verify (previousHash minerAddress : Bytes) (rounds : UInt64) (header : Bytes) (nonce : UInt64)
    (target : Bytes) : Except Engine.Error Verification := do
  let e ← Engine.forTemplate previousHash minerAddress rounds
  e.verify header nonce target

end Padwork
