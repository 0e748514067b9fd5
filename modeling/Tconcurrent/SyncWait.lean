import Tconcurrent.SenderValuesSends

/-! `lazy::sync_wait`: a thread submits a composition of senders and sleeps until it has completed.

The composition may complete on any thread.  The mutex, the condition variable and the data are on
the stack of the thread that waits, and so are destroyed when it returns. -/
namespace Tconcurrent.SyncWait
open Interleaving Completion SenderValues

variable {V E : Type}

inductive Exc (E : Type) where
  | operationCanceled
  | user (e : E)

/-- The end of `sync_wait`: it returns or throws. -/
def outcome : Completion V E → Except (Exc E) V
  | .value v => .ok v
  | .error e => .error (.user e)
  | .done => .error .operationCanceled

inductive SyncCall (V E : Type) where
  | sender (call : SenderCall V E)
  /-- `sync_receiver_base::_set` under the mutex, and the notification after it. -/
  | emplace (completion : Completion V E)
  | notifyOne
  /-- `sync_wait` under the mutex, and in `cv.wait`. -/
  | wait
  | sleep

inductive Choice (V E : Type) where
  | sender (choice : SenderValues.Choice V E)
  | go
  /-- The thread wakes up though nobody has notified it. -/
  | wake

def Choice.isWake : Choice V E → Bool
  | .wake => true
  | _ => false

structure State (V E : Type) where
  composition : SenderValues.State V E
  /-- `sync_state`. -/
  data : Option (Completion V E) := none
  asleep : Bool := false
  /-- How often `cv` was notified, and whether `sync_wait` has returned before. -/
  notified : ℕ := 0
  returnedEarly : Bool := false
  returned : Option (Except (Exc E) V) := none
  /-- Whether a `sync_state` was used after it was destroyed. -/
  usedDestroyed : Bool := false

/-- The mutex is locked, or `cv` is notified, by a receiver. -/
def State.use (s : State V E) : State V E :=
  { s with usedDestroyed := s.usedDestroyed || s.returned.isSome }

abbrev SyncStep (V E : Type) := State V E × List (SyncCall V E)

variable [Inhabited V]

/-- The last receiver resets the token first. -/
def senderExec (thread : ℕ) (choice : SenderValues.Choice V E) (s : State V E) :
    SenderCall V E → Option (SyncStep V E)
  | .signal completion [] =>
    some ({ s with composition := (signal completion [] s.composition).1 }, [.emplace completion])
  | call => (SenderValues.exec thread choice s.composition call).map fun (composition, calls) =>
    ({ s with composition }, calls.map .sender)

def wait (s : State V E) : SyncStep V E :=
  match s.data with
  | some completion =>
    ({ s with returned := some (outcome completion), returnedEarly := s.notified == 0 }, [])
  | none => ({ s with asleep := true }, [.sleep])

def exec : Machine (State V E) (SyncCall V E) (Choice V E) := fun thread choice s call =>
  match call with
  | .sender made =>
    match choice with
    | .sender choice => senderExec thread choice s made
    | _ => none
  | .emplace completion => some ({ s.use with data := some completion }, [.notifyOne])
  | .notifyOne => some ({ s.use with asleep := false, notified := s.notified + 1 }, [])
  | .wait => some (wait s)
  | .sleep =>
    if s.asleep && !choice.isWake then none else some ({ s with asleep := false }, [.wait])

/-- One thread calls `sync_wait`, and others run executors, timers and code that cancels. -/
def start (sender : Sender V E) (threads : ℕ) : Config (State V E) (SyncCall V E) where
  state := { composition := { sender, submitted := true } }
  threads := [.sender (.submit sender []), .wait] :: List.replicate threads [.sender .user]

end Tconcurrent.SyncWait
