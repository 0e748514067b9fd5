import Mathlib.Data.List.GetD
import Mathlib.Tactic.ByContra
import Tconcurrent.Builtins

/-! `submit_to_future` when `submit` throws.

A receiver holds a promise of the shared state until it is moved from or
destroyed, and it is destroyed with its last owner: the frame whose variable it
is, the canceler in the token of the receiver, or whatever else keeps it.  The
exception destroys the frames on its way to the catch block. -/
namespace Tconcurrent.SubmitToFuture
open Builtins

inductive Error where
  | brokenPromise
  | runtimeError (what : String)
  | user (code : ℕ)
  deriving DecidableEq

inductive Owner where
  /-- A variable of the function at this depth of the call stack. -/
  | frame (depth : ℕ)
  /-- The canceler in the receiver's token. -/
  | canceler
  /-- A queue, a timer, or a data structure of the user. -/
  | elsewhere (k : ℕ)
  deriving DecidableEq

/-- A `shared_receiver`, or a receiver that wraps one. -/
structure Receiver where
  owners : List Owner
  /-- Whether its `promise_ptr` is not null. -/
  promise : Bool
  deriving DecidableEq

/-- `shared_receiver_priv`, and the receivers made from the first one. -/
structure State where
  receivers : List Receiver := []
  promiseCount : ℕ := 0
  /-- `_r` and how often `finish` has set it. -/
  result : Option Error := none
  resolutions : ℕ := 0
  /-- Whether the token's `_cancel` is set. -/
  cancelerSet : Bool := false
  assertFailed : Bool := false
  deriving DecidableEq

instance : Asserting State := ⟨fun s => { s with assertFailed := true }⟩

namespace State

/-- `shared_base::finish`.  Nobody has the future yet, so it has no continuations. -/
def setException (s : State) (e : Error) : State :=
  { check s (s.result = none) with result := some e, resolutions := s.resolutions + 1 }

/-- `shared_base::decrement_promise`. -/
def decrementPromise (s : State) : State :=
  let s := { check s (0 < s.promiseCount) with promiseCount := s.promiseCount - 1 }
  if s.promiseCount = 0 ∧ s.result = none then s.setException .brokenPromise else s

def receiver (s : State) (i : ℕ) : Receiver := s.receivers.getD i ⟨[], false⟩

def setReceiver (s : State) (i : ℕ) (receiver : Receiver) : State :=
  { s with receivers := s.receivers.set i receiver }

/-- A new receiver that copies the promise of another one. -/
def copyTo (s : State) (i : ℕ) (owner : Owner) : State :=
  { s with
    receivers := s.receivers ++ [⟨[owner], (s.receiver i).promise⟩]
    promiseCount := s.promiseCount + (s.receiver i).promise.toNat }

/-- A new receiver that takes the promise of another one. -/
def moveTo (s : State) (i : ℕ) (owner : Owner) : State :=
  let moved := s.setReceiver i { s.receiver i with promise := false }
  { moved with receivers := moved.receivers ++ [⟨[owner], (s.receiver i).promise⟩] }

/-- A receiver gets one more owner. -/
def share (s : State) (i : ℕ) (owner : Owner) : State :=
  s.setReceiver i { s.receiver i with owners := owner :: (s.receiver i).owners }

/-- An owner lets go of a receiver; the last one destroys it. -/
def release (owner : Owner) (s : State) (i : ℕ) : State :=
  let owners := (s.receiver i).owners.filter (· ≠ owner)
  if owners = [] then
    let destroyed := s.setReceiver i ⟨[], false⟩
    if (s.receiver i).promise then destroyed.decrementPromise else destroyed
  else s.setReceiver i { s.receiver i with owners }

/-- An owner goes away, and lets go of everything it owns. -/
def releaseAll (s : State) (owner : Owner) : State :=
  (List.range s.receivers.length).foldl (release owner) s

/-- `cancelation_token::set_canceler`.  The assertion is about the sender, whose
program it ends. -/
def setCanceler (s : State) (captured : List ℕ) : Option State :=
  if s.cancelerSet then none
  else some { captured.foldl (·.share · .canceler) s with cancelerSet := true }

/-- `cancelation_token::reset`. -/
def reset (s : State) : State := { s.releaseAll .canceler with cancelerSet := false }

end State

/-- A receiver that a `submit` names. -/
inductive Place where
  /-- Its parameter. -/
  | parameter
  /-- Counted from the receiver that was made last. -/
  | recent (k : ℕ)

def Place.index (s : State) (parameter : ℕ) : Place → ℕ
  | .parameter => parameter
  | .recent k => s.receivers.length - 1 - k

/-- What a `submit` does with receivers before anything is signalled.  It owns
its variables, and what it has elsewhere. -/
inductive Op where
  | copy (place : Place) (owner : Option ℕ)
  | move (place : Place) (owner : Option ℕ)
  | share (place : Place) (owner : Option ℕ)
  | release (place : Place) (owner : Option ℕ)
  | setCanceler (captured : List Place)
  | reset

/-- A variable of the frame, or another owner. -/
def owned (depth : ℕ) : Option ℕ → Owner
  | none => .frame depth
  | some k => .elsewhere k

def Op.run (depth parameter : ℕ) (s : State) : Op → Option State
  | .copy place owner => some (s.copyTo (place.index s parameter) (owned depth owner))
  | .move place owner => some (s.moveTo (place.index s parameter) (owned depth owner))
  | .share place owner => some (s.share (place.index s parameter) (owned depth owner))
  | .release place owner => some (s.release (owned depth owner) (place.index s parameter))
  | .setCanceler captured => s.setCanceler (captured.map (·.index s parameter))
  | .reset => some s.reset

/-- A sender, given by what its `submit` does. -/
inductive Sender where
  /-- A user's `submit`: it returns, throws, does something with receivers, or
  submits another sender, whose exception it lets through or catches. -/
  | returns
  | throws (e : Error)
  | does (op : Op) (rest : Sender)
  | submits (sender : Sender) (receiver : Place) (catches : Bool) (rest : Sender)
  /-- `then_sender`. -/
  | andThen (sender : Sender)
  /-- `async_then_sender`. -/
  | asyncThen (sender : Sender)
  /-- `task_canceler_sender`. -/
  | wrap (terminating : Bool) (sender : Sender)

namespace Sender

/-- `connect`: the second sender is submitted by the receiver of the first one. -/
def connect (sender1 _sender2 : Sender) : Sender := asyncThen sender1

/-- A receiver of the library is made of the parameter, and destroyed when the
submit of the sender inside returns or throws. -/
def submitWrapped (submit : ℕ → ℕ → State → Option (State × Option Error))
    (depth parameter : ℕ) (s : State) : Option (State × Option Error) := do
  let (s, thrown) ← submit (depth + 1) s.receivers.length (s.moveTo parameter (.frame depth))
  return (s.releaseAll (.frame depth), thrown)

/-- `submit`, with the exception it throws.  There is no result when the
assertion of `set_canceler` ends the program. -/
def submit : Sender → ℕ → ℕ → State → Option (State × Option Error)
  | returns, depth, _, s => some (s.releaseAll (.frame depth), none)
  | throws e, depth, _, s => some (s.releaseAll (.frame depth), some e)
  | does op rest, depth, parameter, s => do
    rest.submit depth parameter (← op.run depth parameter s)
  | submits sender receiver catches rest, depth, parameter, s => do
    match ← sender.submit (depth + 1) (receiver.index s parameter) s with
    | (s, none) => rest.submit depth parameter s
    | (s, some e) =>
      if catches then rest.submit depth parameter s
      else return (s.releaseAll (.frame depth), some e)
  | andThen sender, depth, parameter, s => submitWrapped sender.submit depth parameter s
  | asyncThen sender, depth, parameter, s => submitWrapped sender.submit depth parameter s
  | wrap terminating sender, depth, parameter, s =>
    if terminating then
      some (s, some (.runtimeError "submitting a task to a terminating task_canceler"))
    else submitWrapped sender.submit depth parameter s

end Sender

/-- The first receiver, a variable of `submit_to_future`. -/
def start : State := { receivers := [⟨[.frame 0], true⟩], promiseCount := 1 }

/-- The catch block of `submit_to_future`. -/
def catchBlock (s : State) (e : Error) : State := s.reset.setException e

/-- `submit_to_future`, up to the future it returns. -/
def submitToFuture (sender : Sender) : Option State := do
  let (s, thrown) ← sender.submit 1 0 start
  let s := match thrown with
    | none => s
    | some e => catchBlock s e
  return s.releaseAll (.frame 0)

end Tconcurrent.SubmitToFuture
