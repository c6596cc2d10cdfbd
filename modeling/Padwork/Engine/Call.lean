import Padwork.Engine.Basic

/-!
# Calls on an engine

The life of a long-lived engine is a sequence of calls. Each call gets a reply
and leaves an engine behind. An engine for a new template takes the place of the one
before it, if it can be had.
-/
namespace Padwork.Engine

inductive Call where
  | fresh
  | forTemplate (previousHash minerAddress : Bytes) (rounds : UInt64)
  | setRounds (rounds : UInt64)
  | prepare (previousHash minerAddress : Bytes)
  | verify (header : Bytes) (nonce : UInt64) (target : Bytes)
  | search (header target : Bytes) (range : NonceRange)

inductive Reply where
  | done
  | verified (result : Verification)
  | searched (result : Option Solution)
  | refused (error : Error)

/-- The engine as a change leaves it, with the reply to the change. -/
def change (e : Engine) (change : Change) : Engine × Reply :=
  match change.run e with
  | .ok () new => (new, .done)
  | .error error new => (new, .refused error)

def replace (e : Engine) : Except Error Engine → Engine × Reply
  | .ok new => (new, .done)
  | .error error => (e, .refused error)

def reply {α : Type} (f : α → Reply) : Except Error α → Reply
  | .ok a => f a
  | .error error => .refused error

def perform (e : Engine) : Call → Engine × Reply
  | .fresh => (.fresh, .done)
  | .forTemplate previousHash minerAddress rounds =>
    e.replace (forTemplate previousHash minerAddress rounds)
  | .setRounds rounds => e.change (setRounds rounds)
  | .prepare previousHash minerAddress => e.change (prepare previousHash minerAddress)
  | .verify header nonce target => (e, reply .verified (e.verify header nonce target))
  | .search header target range => (e, reply .searched (e.search header target range))

def run (e : Engine) (calls : List Call) : Engine :=
  calls.foldl (fun e call => (e.perform call).1) e

@[simp] theorem run_nil (e : Engine) : e.run [] = e := rfl

@[simp] theorem run_append (e : Engine) (first second : List Call) :
    e.run (first ++ second) = (e.run first).run second := List.foldl_append

end Padwork.Engine
