import Mathlib.Logic.Function.Basic
import Tconcurrent.Future
import Tconcurrent.Interleaving

/-! The cancelers of `package_cancelable`, `async` and `async_wait` on the tokens they
were pushed on.

A token may be given to any number of tasks and carry other callbacks, a future may be
broken off its chain, and the copies of a task may all be destroyed.  User code runs in
the functions, in their destructors and in the continuations. -/
namespace Tconcurrent.Primitives
open Interleaving

inductive Kind where
  /-- `package_cancelable` and `async`. -/
  | task
  /-- `async_wait`. -/
  | timer
  /-- A callback that someone else pushes and pops. -/
  | callback
  deriving DecidableEq

inductive Outcome where
  | value
  | exception (e : Exc)
  deriving DecidableEq

/-- What a pop belongs to. -/
inductive Path where
  | run
  | cancel
  deriving DecidableEq

inductive PrimitiveCall where
  /-- User code. -/
  | user
  /-- A callback that was on a token. -/
  | canceler (i : ℕ)
  /-- The rest of a canceler, once it has locked the promise. -/
  | cancel (i : ℕ)
  | popCancelationCallback (i : ℕ) (path : Path)
  /-- The function of a task returns or throws. -/
  | functionReturn (i : ℕ)
  | finish (i : ℕ) (r : Outcome)
  /-- The destructor of the copy that is run, or of `pp`. -/
  | dropLock (i : ℕ)
  deriving DecidableEq

/-- What user code does next; a function is given its outcome. -/
inductive Choice where
  | return
  | create (kind : Kind) (token : Option ℕ)
  | run (i : ℕ)
  | copy (i : ℕ)
  | destroy (i : ℕ)
  | requestCancel (token : ℕ)
  | breakCancelationChain (i : ℕ)
  /-- A callback is popped by who has pushed it. -/
  | pop (i : ℕ)
  | outcome (r : Outcome)
  deriving DecidableEq

/-- A shared state with its promise. -/
structure Primitive where
  kind : Kind
  /-- The token its canceler was pushed on, and `_cancelation_token`. -/
  token : ℕ
  cancelationToken : Option ℕ
  /-- `_done`, or `fired`. -/
  isDone : Bool := false
  /-- Whether its own pop was made. -/
  popped : Bool := false
  /-- `_promise_count`: the copies of the task, and who holds it meanwhile. -/
  copies : ℕ := 1
  locks : ℕ := 0
  r : Option Outcome := none
  deriving DecidableEq

structure State where
  tokens : ℕ → CancelationToken ℕ := fun _ => {}
  nextToken : ℕ := 0
  primitives : ℕ → Primitive := fun _ => { kind := .callback, token := 0, cancelationToken := none }
  next : ℕ := 0
  /-- What a pop has removed from a token: nothing, or what was not its own; or there
  was no token. -/
  poppedEmpty : Bool := false
  poppedOther : Bool := false
  noToken : Bool := false
  assertFailed : Bool := false

abbrev PrimitiveStep := State × List PrimitiveCall

namespace State

def set (s : State) (i : ℕ) (primitive : Primitive) : State :=
  { s with primitives := Function.update s.primitives i primitive }

def setToken (s : State) (t : ℕ) (token : CancelationToken ℕ) : State :=
  { s with tokens := Function.update s.tokens t token }

end State

/-- `promise_ptr::make_shared`, or a callback: what is created, and its canceler is
pushed. -/
def push (kind : Kind) (t : ℕ) (s : State) : PrimitiveStep :=
  let cancelationToken := if kind = .callback then none else some t
  let (token, callbacks) := (s.tokens t).pushCancelationCallback s.next
  ({ (s.set s.next { kind, token := t, cancelationToken }).setToken t token with
      next := s.next + 1 },
    callbacks.map .canceler)

/-- `package` with a given token or a new one; `async_wait` always makes a new one. -/
def create (kind : Kind) (given : Option ℕ) (s : State) : Option PrimitiveStep :=
  match given with
  | some t => if t < s.nextToken ∧ kind ≠ .timer then some (push kind t s) else none
  | none => some (push kind s.nextToken { s with nextToken := s.nextToken + 1 })

/-- `shared::operator()`, or the handler of the timer, up to the pop.  The copy that is
called outlives the call. -/
def run (i : ℕ) (s : State) : PrimitiveStep :=
  let primitive := s.primitives i
  if primitive.isDone then (s, [])
  else
    (s.set i { primitive with isDone := true, locks := primitive.locks + 1 },
      [.popCancelationCallback i .run, .dropLock i])

/-- `packaged_task_canceler::operator()` up to `_done`, or the canceler of the timer. -/
def canceler (i : ℕ) (s : State) : PrimitiveStep :=
  let primitive := s.primitives i
  match primitive.kind with
  | .callback => (s, [.user])
  | .timer => (s, [.cancel i])
  | .task =>
    if primitive.copies + primitive.locks = 0 then
      ({ s with assertFailed := s.assertFailed || !primitive.isDone }, [])
    else (s.set i { primitive with locks := primitive.locks + 1 }, [.cancel i])

/-- The rest of a canceler: the destructor of the function is user code. -/
def cancel (i : ℕ) (s : State) : PrimitiveStep :=
  let primitive := s.primitives i
  let unlock : List PrimitiveCall := if primitive.kind = .task then [.dropLock i] else []
  if primitive.isDone then (s, unlock)
  else
    (s.set i { primitive with isDone := true },
      [.popCancelationCallback i .cancel, .user, .finish i (.exception .operationCanceled)] ++
        unlock)

/-- The token that a pop goes to: the canceler of a task has kept its token, everyone
else asks the shared state. -/
def Primitive.popsFrom (primitive : Primitive) : Path → Option ℕ
  | .cancel => if primitive.kind = .task then some primitive.token else primitive.cancelationToken
  | .run =>
    if primitive.kind = .callback then some primitive.token else primitive.cancelationToken

/-- What follows the pop. -/
def afterPop (i : ℕ) : Kind → Path → List PrimitiveCall
  | .task, .run => [.user, .functionReturn i]
  | .timer, .run => [.finish i .value]
  | _, _ => []

/-- `pop_cancelation_callback` for a primitive. -/
def popCancelationCallback (i : ℕ) (path : Path) (s : State) : PrimitiveStep :=
  let primitive := s.primitives i
  match primitive.popsFrom path with
  | none => ({ s with noToken := true }, [])
  | some t =>
    let (token, callbacks) := (s.tokens t).popCancelationCallback
    let top := (s.tokens t).doCancels.head?
    ({ (s.set i { primitive with popped := true }).setToken t token with
        poppedEmpty := s.poppedEmpty || top.isNone
        poppedOther := s.poppedOther || top.any (· ≠ i) },
      callbacks.map .canceler ++ afterPop i primitive.kind path)

/-- `shared_base::finish`: the continuations of the future are user code. -/
def finish (i : ℕ) (r : Outcome) (s : State) : PrimitiveStep :=
  (s.set i { s.primitives i with r := some r, cancelationToken := none }, [.user])

/-- `shared_base::decrement_promise`, where what is destroyed has been taken off. -/
def decrementPromise (i : ℕ) (primitive : Primitive) (s : State) : PrimitiveStep :=
  if primitive.copies + primitive.locks = 0 ∧ primitive.r = none then
    (s.set i primitive, [.finish i (.exception .brokenPromise)])
  else (s.set i primitive, [])

/-- `request_cancel` on a token. -/
def requestCancel (t : ℕ) (s : State) : PrimitiveStep :=
  let (token, callbacks) := (s.tokens t).requestCancel
  (s.setToken t token, callbacks.map .canceler)

/-- `break_cancelation_chain`: the shared state gets a new token. -/
def breakCancelationChain (i : ℕ) (s : State) : State :=
  { s.set i { s.primitives i with cancelationToken := some s.nextToken } with
    nextToken := s.nextToken + 1 }

/-- What user code can do: only a task has copies, and whoever pushed a callback pops it
once. -/
def user (s : State) : Choice → Option PrimitiveStep
  | .return => some (s, [])
  | .create kind given =>
    (create kind given s).map fun (s, calls) => (s, calls ++ [.user])
  | .run i =>
    if i < s.next ∧ (s.primitives i).kind ≠ .callback ∧ 0 < (s.primitives i).copies then
      let (s, calls) := run i s
      some (s, calls ++ [.user])
    else none
  | .copy i =>
    if i < s.next ∧ (s.primitives i).kind = .task ∧ 0 < (s.primitives i).copies then
      let primitive := s.primitives i
      some (s.set i { primitive with copies := primitive.copies + 1 }, [.user])
    else none
  | .destroy i =>
    if i < s.next ∧ (s.primitives i).kind = .task ∧ 0 < (s.primitives i).copies then
      let primitive := s.primitives i
      let (s, calls) := decrementPromise i { primitive with copies := primitive.copies - 1 } s
      some (s, calls ++ [.user])
    else none
  | .requestCancel t =>
    let (s, calls) := requestCancel t s
    some (s, calls ++ [.user])
  | .breakCancelationChain i =>
    if i < s.next ∧ (s.primitives i).kind ≠ .callback then
      some (breakCancelationChain i s, [.user])
    else none
  | .pop i =>
    if i < s.next ∧ (s.primitives i).kind = .callback ∧ (s.primitives i).isDone = false then
      some (s.set i { s.primitives i with isDone := true }, [.popCancelationCallback i .run, .user])
    else none
  | .outcome _ => none

/-- One step of a thread. -/
def exec : Machine State PrimitiveCall Choice
  | _, choice, s, .user => user s choice
  | _, _, s, .canceler i => some (canceler i s)
  | _, _, s, .cancel i => some (cancel i s)
  | _, _, s, .popCancelationCallback i path => some (popCancelationCallback i path s)
  | _, .outcome r, s, .functionReturn i => some (s, [.finish i r, .user])
  | _, _, _, .functionReturn _ => none
  | _, _, s, .finish i r => some (finish i r s)
  | _, _, s, .dropLock i =>
    let primitive := s.primitives i
    some (decrementPromise i { primitive with locks := primitive.locks - 1 } s)

/-- Any number of threads, and nothing created yet. -/
def start (threads : ℕ) : Config State PrimitiveCall :=
  ⟨{}, List.replicate threads [.user]⟩

end Tconcurrent.Primitives
