import Mathlib.Algebra.BigOperators.Group.Finset.Basic
import Tconcurrent.Interleaving

/-! Compositions of senders and the one token that they share.

A receiver is the list of the stages that a signal has still to go through, the final
receiver behind them.  Any number of threads submit, request cancelation and run the
tasks and timers; each access to the token and to a flag `fired` is one step.  The
wrapped senders of a `task_canceler` only register the token besides, which no stage
looks at, and none is submitted to a `task_canceler` that is being destroyed. -/
namespace Tconcurrent.SenderComposition
open Interleaving

inductive Signal where
  | value
  | error
  | done
  deriving DecidableEq

inductive Sender where
  | async
  | asyncWait
  /-- A sender of the user, which signals once. -/
  | user
  | then (sender : Sender)
  | asyncThen (sender : Sender)
  | connect (sender1 sender2 : Sender)
  | wrap (sender : Sender)
  deriving DecidableEq

/-- `then_receiver`, `async_then_receiver`, that of `connect`, and
`task_canceler_receiver`. -/
inductive Stage where
  | then
  | asyncThen
  | connect (sender2 : Sender)
  | wrap
  deriving DecidableEq

abbrev Receiver := List Stage

inductive Kind where
  | async
  | asyncWait
  | user
  deriving DecidableEq

/-- `async_data`, `async_wait_data`, and what a sender of the user keeps. -/
structure Leaf where
  kind : Kind := .async
  receiver : Receiver := []
  fired : Bool := false
  /-- The task was posted, or the timer started. -/
  armed : Bool := false
  /-- Its canceler was set, or it has none. -/
  installed : Bool := false

inductive SenderCall where
  /-- Code that is not part of the composition. -/
  | user
  | submit (sender : Sender) (receiver : Receiver)
  | setCanceler (i : ℕ)
  | arm (i : ℕ)
  /-- The canceler of a leaf. -/
  | cancelLeaf (i : ℕ)
  | signal (signal : Signal) (receiver : Receiver)
  /-- `is_cancel_requested` in `set_value`, and whether it was when the value arrived. -/
  | check (requested : Bool) (stage : Stage) (receiver : Receiver)
  /-- `reset`, and the call of the function. -/
  | enter (requested : Bool) (stage : Stage) (receiver : Receiver)
  /-- The function of a `then`, and that of an `async_then`. -/
  | function (receiver : Receiver)
  | asyncFunction (receiver : Receiver)
  deriving DecidableEq

/-- What user code and the environment decide. -/
inductive Choice where
  | return
  | throw
  | submit
  | requestCancel
  /-- A task or a timer runs, or a sender of the user signals. -/
  | fire (i : ℕ) (signal : Signal)
  /-- A sender of the user sets a canceler, or goes without. -/
  | install
  | bare
  /-- Its canceler does nothing. -/
  | ignore
  /-- The function of an `async_then` gives its receiver away. -/
  | submitTo (sender : Sender)
  deriving DecidableEq

structure State where
  sender : Sender
  submitted : Bool := false
  /-- `lazy::cancelation_token`: `_canceled`, and the leaf whose canceler is `_cancel`. -/
  canceled : Bool := false
  canceler : Option ℕ := none
  leaves : ℕ → Leaf := fun _ => {}
  next : ℕ := 0
  /-- The signals of the final receiver. -/
  signals : List Signal := []
  /-- For each function that was entered, whether cancelation was requested before its
  value arrived. -/
  entered : List Bool := []
  assertFailed : Bool := false

abbrev SenderStep := State × List SenderCall

namespace State

def setLeaf (s : State) (i : ℕ) (leaf : Leaf) : State :=
  { s with leaves := Function.update s.leaves i leaf }

def newLeaf (s : State) (leaf : Leaf) : State :=
  { s with leaves := Function.update s.leaves s.next leaf, next := s.next + 1 }

def reset (s : State) : State := { s with canceler := none }

end State

/-- `submit` of each sender. -/
def submit (sender : Sender) (r : Receiver) (choice : Choice) (s : State) : Option SenderStep :=
  match sender with
  | .async => some (s.newLeaf { receiver := r }, [.setCanceler s.next])
  | .asyncWait =>
    some (s.newLeaf { kind := .asyncWait, receiver := r, armed := true }, [.setCanceler s.next])
  | .user =>
    match choice with
    | .install => some (s.newLeaf { kind := .user, receiver := r }, [.setCanceler s.next])
    | .bare =>
      some (s.newLeaf { kind := .user, receiver := r, installed := true }, [.arm s.next])
    | _ => none
  | .then sender => some (s, [.submit sender (.then :: r)])
  | .asyncThen sender => some (s, [.submit sender (.asyncThen :: r)])
  | .connect sender1 sender2 => some (s, [.submit sender1 (.connect sender2 :: r)])
  | .wrap sender => some (s, [.submit sender (.wrap :: r)])

/-- `set_canceler`, and what the `submit` of the leaf does after it. -/
def setCanceler (i : ℕ) (s : State) : SenderStep :=
  let leaf := s.leaves i
  ({ s.setLeaf i { leaf with installed := true } with
      canceler := some i
      assertFailed := s.assertFailed || s.canceler.isSome },
    (if s.canceled then [.cancelLeaf i] else []) ++ if leaf.armed then [] else [.arm i])

/-- `fired.exchange(true)` and the signal. -/
def fireLeaf (i : ℕ) (signal : Signal) (s : State) : SenderStep :=
  let leaf := s.leaves i
  if leaf.fired then (s, [])
  else (s.setLeaf i { leaf with fired := true }, [.signal signal leaf.receiver])

def cancelLeaf (i : ℕ) (choice : Choice) (s : State) : SenderStep :=
  if (s.leaves i).kind = .user ∧ choice = .ignore then (s, []) else fireLeaf i .done s

def requestCancel (s : State) : SenderStep :=
  if s.canceled then (s, [])
  else
    ({ s with canceled := true },
      match s.canceler with
      | none => []
      | some i => [.cancelLeaf i])

/-- `set_value`, `set_error` and `set_done` of each receiver. -/
def signal (signal : Signal) (r : Receiver) (s : State) : SenderStep :=
  match r with
  | [] => ({ s.reset with signals := s.signals ++ [signal] }, [.user])
  | .wrap :: r => (s, [.signal signal r])
  | stage :: r =>
    match signal with
    | .value => (s, [.check s.canceled stage r])
    | _ => (s.reset, [.signal signal r])

def check (requested : Bool) (stage : Stage) (r : Receiver) (s : State) : SenderStep :=
  if s.canceled then (s, [.signal .done (stage :: r)]) else (s, [.enter requested stage r])

def enter (requested : Bool) (stage : Stage) (r : Receiver) (s : State) : SenderStep :=
  ({ s.reset with entered := s.entered ++ [requested] },
    match stage with
    | .then => [.function r]
    | .asyncThen => [.asyncFunction r]
    | .connect sender2 => [.submit sender2 r]
    | .wrap => [.signal .value r])

/-- The function of a `then` requests cancelation, returns or throws. -/
def function (r : Receiver) (s : State) : Choice → Option SenderStep
  | .return => some (s, [.signal .value r])
  | .throw => some (s, [.signal .error r])
  | .requestCancel =>
    let (s, calls) := requestCancel s
    some (s, calls ++ [.function r])
  | _ => none

/-- The function of an `async_then` throws, or sees to it that its receiver is
signalled. -/
def asyncFunction (r : Receiver) (s : State) : Choice → Option SenderStep
  | .throw => some (s, [.signal .error r])
  | .submitTo sender => some (s, [.submit sender r])
  | .requestCancel =>
    let (s, calls) := requestCancel s
    some (s, calls ++ [.asyncFunction r])
  | _ => none

def user (s : State) : Choice → Option SenderStep
  | .return => some (s, [])
  | .submit =>
    if s.submitted then none
    else some ({ s with submitted := true }, [.submit s.sender [], .user])
  | .requestCancel =>
    let (s, calls) := requestCancel s
    some (s, calls ++ [.user])
  | .fire i signal =>
    if i < s.next ∧ (s.leaves i).armed ∧ ((s.leaves i).kind = .user ∨ signal = .value) then
      let (s, calls) := fireLeaf i signal s
      some (s, calls ++ [.user])
    else none
  | _ => none

/-- One step of a thread. -/
def exec : Machine State SenderCall Choice
  | _, choice, s, .user => user s choice
  | _, choice, s, .submit sender r => submit sender r choice s
  | _, _, s, .setCanceler i => some (setCanceler i s)
  | _, _, s, .arm i => some (s.setLeaf i { s.leaves i with armed := true }, [])
  | _, choice, s, .cancelLeaf i => some (cancelLeaf i choice s)
  | _, _, s, .signal sig r => some (signal sig r s)
  | _, _, s, .check requested stage r => some (check requested stage r s)
  | _, _, s, .enter requested stage r => some (enter requested stage r s)
  | _, choice, s, .function r => function r s choice
  | _, choice, s, .asyncFunction r => asyncFunction r s choice

def start (sender : Sender) (threads : ℕ) : Config State SenderCall :=
  ⟨{ sender }, List.replicate threads [.user]⟩

end Tconcurrent.SenderComposition
