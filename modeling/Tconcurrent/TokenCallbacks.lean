import Tconcurrent.CancelationToken
import Tconcurrent.Interleaving

/-! Threads that push, pop and request on one cancelation token.

Callback `i` is the `i`th that is pushed.  An operation is one step under `_mutex`; what it
copies there is the thread's next call, and other threads may go on in between.  A callback
that is called may itself use the token. -/
namespace Tconcurrent.TokenCallbacks
open Interleaving

/-- What a thread has done. -/
inductive Event where
  | pushed (thread i : ℕ)
  | popped (thread i : ℕ)
  | requested (thread : ℕ)
  /-- The callback was copied, to be called after the lock is released. -/
  | selected (thread i : ℕ)
  | invoked (thread i : ℕ)
  deriving DecidableEq

structure State where
  token : CancelationToken ℕ := {}
  pushed : ℕ := 0
  /-- What has happened, the last first. -/
  log : List Event := []

inductive TokenCall where
  | user
  /-- `current` or `f`, which is called after the lock is released. -/
  | current (i : ℕ)
  /-- The code of the callback. -/
  | callback (i : ℕ)
  deriving DecidableEq

inductive Choice where
  | return
  | push
  | pop
  | requestCancel
  deriving DecidableEq

/-- An operation, and what it has selected. -/
def operate (thread : ℕ) (s : State) : Choice → Option (State × List ℕ)
  | .push =>
    let (token, current) := s.token.pushCancelationCallback s.pushed
    some ({ token, pushed := s.pushed + 1
            log := current.map (.selected thread) ++ .pushed thread s.pushed :: s.log }, current)
  | .pop =>
    let (token, current) := s.token.popCancelationCallback
    let popped := s.token.doCancels.head?.toList
    some ({ s with
            token
            log := current.map (.selected thread) ++ popped.map (.popped thread) ++ s.log }, current)
  | .requestCancel =>
    let (token, current) := s.token.requestCancel
    some ({ s with
            token
            log := current.map (.selected thread) ++ .requested thread :: s.log }, current)
  | .return => none

def exec : Machine State TokenCall Choice
  | thread, _, s, .current i => some ({ s with log := .invoked thread i :: s.log }, [.callback i])
  | _, .return, s, _ => some (s, [])
  | thread, choice, s, call =>
    (operate thread s choice).map fun (s, current) => (s, current.map .current ++ [call])

def start (threads : ℕ) : Config State TokenCall := ⟨{}, List.replicate threads [.user]⟩

/-- Pops never outnumber pushes. -/
def PopsPushed (s : State) (_ : TokenCall) (choice : Choice) : Prop :=
  choice = .pop → s.token.doCancels ≠ []

end Tconcurrent.TokenCallbacks
