import Mathlib.Data.List.Induction
import Padwork.Proofs.Sha3.Digest
import Padwork.Sha3.Session

/-!
# The history of a hasher

A hasher is a log of the bytes that it was fed. Of all that has happened in a
session, its digest depends only on its own history: the pieces it was fed since it
was started, behind those of its source if it is a copy. How the bytes were split
into pieces, what other hashers were fed and which digests were read makes no
difference.
-/
namespace Padwork.Sha3

variable {ι : Type} [DecidableEq ι]

/-- The pieces that the named hasher was fed, given the steps of a session from the last one
back to the first. There are none of a hasher that was never started. -/
def pieces? (name : ι) : List (Step ι) → Option (List Bytes)
  | [] => none
  | .fresh started :: earlier => if name = started then some [] else pieces? name earlier
  | .update fed data :: earlier =>
    if name = fed then (pieces? name earlier).map (· ++ [data]) else pieces? name earlier
  | .clone copy source :: earlier =>
    if name = copy then pieces? source earlier else pieces? name earlier
  | .digest _ :: earlier => pieces? name earlier

/-- Each hasher holds the pieces of its own history. -/
def Follows (hashers : ι → Option Hasher) (earlier : List (Step ι)) : Prop :=
  ∀ name, Option.Rel (fun h pieces => h.Holds pieces.flatten) (hashers name) (pieces? name earlier)

variable {hashers : ι → Option Hasher} {earlier : List (Step ι)} {name : ι} {step : Step ι}

theorem Step.apply_name : step.apply hashers step.name = step.result hashers := if_pos rfl

theorem Step.apply_of_ne (h : name ≠ step.name) : step.apply hashers name = hashers name :=
  if_neg h

theorem pieces?_cons_of_ne (h : name ≠ step.name) :
    pieces? name (step :: earlier) = pieces? name earlier := by
  cases step with
  | fresh started => exact if_neg h
  | update fed data => exact if_neg h
  | clone copy source => exact if_neg h
  | digest read => rfl

theorem holds_map_update {h? : Option Hasher} {pieces? : Option (List Bytes)}
    (hold : Option.Rel (fun h pieces => h.Holds pieces.flatten) h? pieces?) (data : Bytes) :
    Option.Rel (fun h pieces => h.Holds pieces.flatten) (h?.map (·.update data))
      (pieces?.map (· ++ [data])) := by
  cases hold with
  | none => exact .none
  | some hold =>
    refine .some ?_
    rw [List.flatten_append, List.flatten_cons, List.flatten_nil, List.append_nil]
    exact hold.update data

/-- The step changes the history of the hasher that it names as it changes that hasher. -/
theorem Follows.result (h : Follows hashers earlier) (step : Step ι) :
    Option.Rel (fun h pieces => h.Holds pieces.flatten) (step.result hashers)
      (pieces? step.name (step :: earlier)) := by
  cases step with
  | fresh started =>
    rw [Step.name, pieces?, if_pos rfl]
    exact .some Hasher.holds_empty
  | update fed data =>
    rw [Step.name, pieces?, if_pos rfl]
    exact holds_map_update (h fed) data
  | clone copy source =>
    rw [Step.name, pieces?, if_pos rfl]
    exact h source
  | digest read => exact h read

theorem Follows.apply (h : Follows hashers earlier) (step : Step ι) :
    Follows (step.apply hashers) (step :: earlier) := by
  intro name
  by_cases hname : name = step.name
  · subst hname
    rw [Step.apply_name]
    exact h.result step
  · rw [Step.apply_of_ne hname, pieces?_cons_of_ne hname]
    exact h name

theorem follows_session (steps : List (Step ι)) : Follows (session steps) steps.reverse := by
  -- the history of a hasher is read from the last step back
  induction steps using List.reverseRecOn with
  | nil => exact fun _ => .none
  | append_singleton steps step ih =>
    rw [session, List.foldl_append, List.reverse_append]
    exact ih.apply step

/-- After any session, the digest that is read of a hasher is the hash of all bytes of its
history, which is their SHA3-256. So the hash of two strings is that of the strings put together. -/
theorem answer_session (ι : Type) [DecidableEq ι] :
    (∀ (steps : List (Step ι)) (name : ι),
      (Step.digest name).answer? (session steps) =
          ((pieces? name steps.reverse).map fun pieces => hash pieces.flatten) ∧
        ((Step.digest name).answer? (session steps)).map Vector.toList =
          (pieces? name steps.reverse).map fun pieces => Fips202.sha3OfBytes pieces.flatten) ∧
      ∀ first second, hashConcat first second = hash (first ++ second) := by
  refine ⟨?_, hashConcat_eq_hash_append⟩
  intro steps name
  have hfollows := follows_session steps name
  rw [Step.answer?]
  generalize session steps name = h?, pieces? name steps.reverse = pieces? at hfollows ⊢
  cases hfollows with
  | none => exact ⟨rfl, rfl⟩
  | some hold =>
    have hdigest := hold.digest_eq_hash
    refine ⟨congrArg some hdigest, congrArg some ?_⟩
    exact (congrArg Vector.toList hdigest).trans (toList_hash _)

end Padwork.Sha3
