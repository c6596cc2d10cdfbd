import Padwork.Engine.Call
import Padwork.Proofs.Engine.Accepted

/-!
# Refused calls

A call is refused exactly when one of its conditions fails, and the error is that of
the first. All conditions are checked before anything is changed, so a refused call
leaves the engine as it was, down to each byte of the scratchpad.
-/
namespace Padwork
namespace Engine

/-! ## The conditions of a call -/

def shortness? (input : Input) (bytes : Bytes) : Option Error :=
  if 32 ≤ bytes.length then none else some (.tooShort input bytes.length)

def roundsFault? (rounds : UInt64) : Option Error :=
  if 256 ≤ rounds.toNat ∧ rounds.toNat ≤ 2048 then none else some (.roundsOutOfRange rounds)

def headerFault? (header : Bytes) : Option Error :=
  if header.length = 140 then none else some (.headerLength header.length)

def idleness? (e : Engine) : Option Error := if e.initialized then none else some .notInitialized

def templateFault? (previousHash minerAddress : Bytes) : Option Error :=
  (shortness? .previousHash previousHash).or (shortness? .minerAddress minerAddress)

def attemptFault? (header target : Bytes) : Option Error :=
  (headerFault? header).or (shortness? .target target)

/-- The error of the first condition of a call that fails on an engine. -/
def Call.fault? (e : Engine) : Call → Option Error
  | .fresh => none
  | .forTemplate previousHash minerAddress rounds =>
    (roundsFault? rounds).or (templateFault? previousHash minerAddress)
  | .setRounds rounds => roundsFault? rounds
  | .prepare previousHash minerAddress => templateFault? previousHash minerAddress
  | .verify header _ target => e.idleness?.or (attemptFault? header target)
  | .search header target _ => e.idleness?.or (attemptFault? header target)

/-- That an engine is idle is no fault of its inputs. -/
theorem templateFault?_ne_notInitialized (previousHash minerAddress : Bytes) :
    templateFault? previousHash minerAddress ≠ some .notInitialized := by
  simp [templateFault?, shortness?, Option.or_eq_some_iff]

theorem attemptFault?_ne_notInitialized (header target : Bytes) :
    attemptFault? header target ≠ some .notInitialized := by
  simp [attemptFault?, headerFault?, shortness?, Option.or_eq_some_iff]

/-! ## Checks report the first fault -/

def errorOf? {α : Type} : Except Error α → Option Error
  | .ok _ => none
  | .error error => some error

theorem eq_error_of_errorOf? {α : Type} {x : Except Error α} {error : Error}
    (h : errorOf? x = some error) : x = .error error := by
  cases x with
  | ok a => cases h
  | error other => rw [Option.some.inj h]

theorem exists_of_errorOf?_eq_none {α : Type} {x : Except Error α} (h : errorOf? x = none) :
    ∃ a, x = .ok a := by
  cases x with
  | ok a => exact ⟨a, rfl⟩
  | error error => cases h

def Reply.error? : Reply → Option Error
  | .refused error => some error
  | _ => none

theorem errorOf?_bind {α β : Type} {x : Except Error α} {f : α → Except Error β}
    {second? : Option Error} (h : ∀ a, x = .ok a → errorOf? (f a) = second?) :
    errorOf? (x >>= f) = (errorOf? x).or second? := by
  cases x with
  | error error => rfl
  | ok a => exact h a rfl

theorem errorOf?_leading (input : Input) (bytes : Bytes) :
    errorOf? (leading input bytes) = shortness? input bytes := by
  unfold shortness?
  by_cases h : 32 ≤ bytes.length
  · obtain ⟨head, hhead, -⟩ := exists_leading input h
    rw [hhead, if_pos h]
    rfl
  · rw [leading, Bytes32.leading?_eq_none_iff.mpr (Nat.not_le.mp h), if_neg h]
    rfl

theorem errorOf?_checkRounds (rounds : UInt64) :
    errorOf? (checkRounds rounds) = roundsFault? rounds := by
  unfold checkRounds roundsFault?
  by_cases h : Parameters.RoundsAllowed rounds
  · rw [if_pos h, if_pos (roundsAllowed_iff.mp h)]
    rfl
  · rw [if_neg h, if_neg fun hr => h (roundsAllowed_iff.mpr hr)]
    rfl

theorem errorOf?_checkAttempt (e : Engine) (header target : Bytes) :
    errorOf? (e.checkAttempt header target) = e.idleness?.or (attemptFault? header target) := by
  unfold checkAttempt idleness? attemptFault? headerFault?
  cases e.initialized with
  | false => rfl
  | true =>
    by_cases h : header.length = 140
    · simp [h, errorOf?_leading]
    · simp [h, errorOf?]

theorem errorOf?_checkAttempt_of_initialized {e : Engine} (he : e.initialized = true)
    (header target : Bytes) :
    errorOf? (e.checkAttempt header target) = attemptFault? header target := by
  rw [errorOf?_checkAttempt, idleness?, if_pos he, Option.none_or]

/-- An answer that is computed when all checks have passed brings no further error. -/
theorem errorOf?_bind_pure {α β : Type} (x : Except Error α) (f : α → β) :
    errorOf? (x >>= fun a => pure (f a)) = errorOf? x := by
  cases x <;> rfl

theorem errorOf?_verify (e : Engine) (header : Bytes) (nonce : UInt64) (target : Bytes) :
    errorOf? (e.verify header nonce target) = e.idleness?.or (attemptFault? header target) :=
  (errorOf?_bind_pure _ _).trans (e.errorOf?_checkAttempt header target)

theorem errorOf?_search (e : Engine) (header target : Bytes) (range : NonceRange) :
    errorOf? (e.search header target range) = e.idleness?.or (attemptFault? header target) :=
  (errorOf?_bind_pure _ _).trans (e.errorOf?_checkAttempt header target)

/-! ## A change is made only if there is no fault -/

/-- With a fault the change is refused before anything is touched. Without one it is made. -/
def Change.Guarded (change : Change) (fault? : Option Error) : Prop :=
  ∀ e, match fault? with
    | some error => change.run e = .error error e
    | none => ∃ new, change.run e = .ok () new

/-- A change that starts with a check has the fault of the check before its own. -/
theorem Change.Guarded.bind {α : Type} {check : Except Error α} {change : α → Change}
    {fault? : Option Error} (h : ∀ a, check = .ok a → (change a).Guarded fault?) :
    Change.Guarded (ofExcept check >>= change) ((errorOf? check).or fault?) := by
  cases check with
  | error error => exact fun e => rfl
  | ok a => exact h a rfl

theorem guarded_modify (f : Engine → Engine) : Change.Guarded (modify f) none :=
  fun e => ⟨f e, rfl⟩

/-- Nothing is checked any more once the engine has been touched. -/
theorem guarded_build (seed : Bytes32) (steps : List BuildStep) :
    (build seed steps).Guarded none := fun e => ⟨_, run_build seed steps e⟩

theorem guarded_setRounds (rounds : UInt64) : (setRounds rounds).Guarded (roundsFault? rounds) := by
  rw [← Option.or_none (o := roundsFault? rounds), ← errorOf?_checkRounds]
  exact .bind fun _ _ => guarded_modify _

theorem guarded_prepare (previousHash minerAddress : Bytes) :
    (prepare previousHash minerAddress).Guarded (templateFault? previousHash minerAddress) := by
  rw [templateFault?, ← errorOf?_leading, ← errorOf?_leading,
    ← Option.or_none (o := errorOf? (leading .minerAddress minerAddress))]
  refine .bind fun hash _ => .bind fun address _ => ?_
  exact guarded_build _ _

/-! ## Templates -/

theorem shortness?_eq_none_iff {input : Input} {bytes : Bytes} :
    shortness? input bytes = none ↔ 32 ≤ bytes.length := by
  simp [shortness?]

theorem roundsFault?_eq_none_iff {rounds : UInt64} :
    roundsFault? rounds = none ↔ Parameters.RoundsAllowed rounds := by
  simp [roundsFault?, roundsAllowed_iff]

theorem exists_leading_of_templateFault? {previousHash minerAddress : Bytes}
    (h : templateFault? previousHash minerAddress = none) :
    ∃ hash address, leading .previousHash previousHash = .ok hash ∧
      leading .minerAddress minerAddress = .ok address := by
  obtain ⟨hp, ha⟩ := Option.or_eq_none_iff.mp h
  obtain ⟨hash, hhash, -⟩ := exists_leading .previousHash (shortness?_eq_none_iff.mp hp)
  obtain ⟨address, haddress, -⟩ := exists_leading .minerAddress (shortness?_eq_none_iff.mp ha)
  exact ⟨hash, address, hhash, haddress⟩

/-- The inputs of a template are checked again when its scratchpad is built. The second check
finds nothing that the first has not found. -/
theorem errorOf?_forTemplate (previousHash minerAddress : Bytes) (rounds : UInt64) :
    errorOf? (forTemplate previousHash minerAddress rounds) =
      (roundsFault? rounds).or (templateFault? previousHash minerAddress) := by
  rw [templateFault?, ← errorOf?_checkRounds, ← errorOf?_leading, ← errorOf?_leading,
    ← Option.or_none (o := errorOf? (leading .minerAddress minerAddress))]
  refine errorOf?_bind fun _ _ => errorOf?_bind fun hash hp => errorOf?_bind fun address ha => ?_
  -- both inputs have passed the first check by now
  rw [prepare_of_leading hp ha]
  rfl

theorem exists_ready_of_forTemplate {previousHash minerAddress : Bytes} {rounds : UInt64}
    {e : Engine} (h : forTemplate previousHash minerAddress rounds = .ok e) :
    Parameters.RoundsAllowed rounds ∧ ∃ hash address,
      leading .previousHash previousHash = .ok hash ∧
        leading .minerAddress minerAddress = .ok address ∧ e = ready hash address rounds := by
  have hfault := errorOf?_forTemplate previousHash minerAddress rounds
  rw [h] at hfault
  obtain ⟨hrounds, htemplate⟩ := Option.or_eq_none_iff.mp hfault.symm
  obtain ⟨hash, address, hp, ha⟩ := exists_leading_of_templateFault? htemplate
  have hallowed := roundsFault?_eq_none_iff.mp hrounds
  rw [forTemplate_of_leading hallowed hp ha] at h
  exact ⟨hallowed, hash, address, hp, ha, (Except.ok.inj h).symm⟩

end Engine

open Engine

/-- A single check has an engine that is ready, so it never finds the engine idle. -/
theorem errorOf?_verify_template (previousHash minerAddress : Bytes) (rounds : UInt64)
    (header : Bytes) (nonce : UInt64) (target : Bytes) :
    errorOf? (verify previousHash minerAddress rounds header nonce target) =
      ((roundsFault? rounds).or (templateFault? previousHash minerAddress)).or
        (attemptFault? header target) := by
  rw [← errorOf?_forTemplate]
  refine errorOf?_bind fun e he => ?_
  obtain ⟨-, hash, address, -, -, rfl⟩ := exists_ready_of_forTemplate he
  exact errorOf?_verify ..

/-! ## Replies -/

/-- With a fault a call is refused and the engine is as it was. Without one it is not refused. -/
def Engine.Answered (e : Engine) (fault? : Option Error) (outcome : Engine × Reply) : Prop :=
  match fault? with
  | some error => outcome = (e, .refused error)
  | none => outcome.2.error? = none

theorem Engine.Answered.error?_eq {e : Engine} {fault? : Option Error} {outcome : Engine × Reply}
    (h : e.Answered fault? outcome) : outcome.2.error? = fault? := by
  cases fault? with
  | some error => rw [show outcome = (e, .refused error) from h, Reply.error?]
  | none => exact h

theorem Engine.Change.Guarded.answered {change : Change} {fault? : Option Error}
    (h : change.Guarded fault?) (e : Engine) : e.Answered fault? (e.change change) := by
  cases fault? with
  | some error => rw [Answered, Engine.change, h e]
  | none =>
    obtain ⟨new, hnew⟩ := h e
    rw [Answered, Engine.change, hnew]
    rfl

theorem Engine.answered_replace (e : Engine) (new : Except Error Engine) :
    e.Answered (errorOf? new) (e.replace new) := by
  cases new <;> rfl

theorem Engine.answered_reply {α : Type} (e : Engine) {f : α → Reply}
    (hf : ∀ a, (f a).error? = none) (answer : Except Error α) :
    e.Answered (errorOf? answer) (e, reply f answer) := by
  cases answer with
  | error error => rfl
  | ok a => exact hf a

theorem Engine.answered_perform (e : Engine) (call : Call) :
    e.Answered (call.fault? e) (e.perform call) := by
  cases call with
  | fresh => rfl
  | forTemplate previousHash minerAddress rounds =>
    rw [Call.fault?, ← errorOf?_forTemplate]
    exact e.answered_replace _
  | setRounds rounds => exact (guarded_setRounds rounds).answered e
  | prepare previousHash minerAddress => exact (guarded_prepare _ _).answered e
  | verify header nonce target =>
    rw [Call.fault?, ← errorOf?_verify e header nonce target]
    exact e.answered_reply (fun _ => rfl) _
  | search header target range =>
    rw [Call.fault?, ← errorOf?_search e header target range]
    exact e.answered_reply (fun _ => rfl) _

theorem Engine.perform_of_fault {e : Engine} {call : Call} {error : Error}
    (h : call.fault? e = some error) : e.perform call = (e, .refused error) := by
  have hanswered := e.answered_perform call
  rw [h] at hanswered
  exact hanswered

theorem verify_ne_notInitialized (previousHash minerAddress : Bytes) (rounds : UInt64)
    (header : Bytes) (nonce : UInt64) (target : Bytes) :
    verify previousHash minerAddress rounds header nonce target ≠ .error .notInitialized := by
  intro h
  have hfault := errorOf?_verify_template previousHash minerAddress rounds header nonce target
  rw [h] at hfault
  simp [errorOf?, roundsFault?, templateFault?_ne_notInitialized, attemptFault?_ne_notInitialized,
    eq_comm (a := some Error.notInitialized), Option.or_eq_some_iff] at hfault

/-- A call is refused with the error of its first condition that fails, and is not refused when
none fails. A refused call leaves the engine as it was. A single check has the conditions of its
template, its header and its target, in this order, and no other. -/
theorem refused_iff_fault :
    (∀ (e : Engine) (call : Call), (e.perform call).2.error? = call.fault? e ∧
      ∀ error, (e.perform call).2 = .refused error → (e.perform call).1 = e) ∧
      ∀ (previousHash minerAddress : Bytes) (rounds : UInt64) (header : Bytes) (nonce : UInt64)
        (target : Bytes),
        errorOf? (verify previousHash minerAddress rounds header nonce target) =
          ((roundsFault? rounds).or (templateFault? previousHash minerAddress)).or
            (attemptFault? header target) ∧
          verify previousHash minerAddress rounds header nonce target ≠ .error .notInitialized := by
  constructor
  · intro e call
    have herror := (e.answered_perform call).error?_eq
    refine ⟨herror, ?_⟩
    intro error hrefused
    rw [hrefused] at herror
    rw [perform_of_fault herror.symm]
  · intro previousHash minerAddress rounds header nonce target
    exact ⟨errorOf?_verify_template previousHash minerAddress rounds header nonce target,
      verify_ne_notInitialized previousHash minerAddress rounds header nonce target⟩

end Padwork
