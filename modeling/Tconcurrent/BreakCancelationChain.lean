import Mathlib.Logic.Function.Basic
import Mathlib.Logic.Relation
import Tconcurrent.CancelationToken
import Tconcurrent.Future
import Tconcurrent.Interleaving

/-! Chains of futures and `break_cancelation_chain`.

A stage is a shared state with what produces it and the future it was given out as.  The
stages of a chain share a token until the chain is broken: then the shared state and the
future get a new one, and what was captured before stays.  User code runs everywhere, so
what is due may run at any time. -/
namespace Tconcurrent.BreakChain
open Interleaving

inductive Kind where
  | promise
  /-- `package`, `package_cancelable` and `async`. -/
  | task (cancelable : Bool)
  /-- `async_wait`. -/
  | timer
  /-- `then` and `and_then`. -/
  | continuation
  | unwrap
  deriving DecidableEq

/-- What a stage can hold: a plain value, the future of another stage, or an exception. -/
inductive Outcome where
  | value
  | future (m : ℕ)
  | exception (e : Exc)
  deriving DecidableEq

structure Stage where
  kind : Kind := .promise
  /-- The stage whose future it was attached to, and the stage it waits for: they differ
  where it was attached to the future that a continuation is given. -/
  parent : Option ℕ := none
  source : ℕ := 0
  /-- The stage whose making captured the token of the parent's future. -/
  since : ℕ := 0
  /-- The token it was made with, and the one that a continuation has kept. -/
  home : Option ℕ := none
  captured : Option ℕ := none
  /-- `_cancelation_token` of the shared state and of the future. -/
  cancelationToken : Option ℕ := none
  future : Option ℕ := none
  /-- Whether the future object exists. -/
  built : Bool := false
  /-- `_done`, `fired`, or whether the closure was called. -/
  isDone : Bool := false
  /-- What an unwrapped future waits for, and the token its canceler was pushed on. -/
  inner : Option (ℕ × Option ℕ) := none
  r : Option Outcome := none

/-- What is pushed on tokens. -/
inductive Callback where
  | canceler (i : ℕ)
  /-- `make_canceler` of an inner future. -/
  | inner (k m : ℕ)
  deriving DecidableEq

/-- The stage that a callback cancels. -/
def Callback.stage : Callback → ℕ
  | .canceler i => i
  | .inner k _ => k

inductive ChainCall where
  /-- User code. -/
  | user
  | requestCancel (i : ℕ)
  /-- A callback that was on a token. -/
  | callback (callback : Callback) (t : ℕ)
  /-- `pop_cancelation_callback` on a token, or on the one that a shared state has. -/
  | pop (t : Option ℕ)
  | popCurrent (i : ℕ)
  /-- The function of a task or a continuation is called, and returns. -/
  | enter (i : ℕ)
  | functionReturn (i : ℕ)
  | finish (i : ℕ) (r : Outcome)
  /-- The future object of `unwrap` is made. -/
  | buildFuture (i : ℕ)
  deriving DecidableEq

/-- What user code does next; a function is given its outcome. -/
inductive Choice where
  | return
  | create (kind : Kind) (token : Option ℕ)
  /-- `then` and `and_then`, on a future or on the one that a continuation is given. -/
  | attach (i : ℕ) (given : Bool)
  | unwrap (i : ℕ)
  | breakCancelationChain (i : ℕ)
  | requestCancel (i : ℕ)
  /-- `promise::get_cancelation_token`. -/
  | getCancelationToken (i : ℕ)
  | resolve (i : ℕ) (r : Outcome)
  | run (i : ℕ)
  | innerReady (i : ℕ)
  | outcome (r : Outcome)
  deriving DecidableEq

/-- What has happened, as far as requests are concerned. -/
inductive Event where
  /-- A future was broken off its chain, and the new token and the stages that there were. -/
  | broke (i token stages : ℕ)
  /-- A request on a future has reached a token. -/
  | request (i token : ℕ)
  /-- What produces a stage has been given a token, or was called by it. -/
  | see (i token : ℕ)
  deriving DecidableEq

structure State where
  stages : ℕ → Stage := fun _ => {}
  next : ℕ := 0
  tokens : ℕ → CancelationToken Callback := fun _ => {}
  nextToken : ℕ := 0
  /-- The newest event first. -/
  events : List Event := []

abbrev ChainStep := State × List ChainCall

namespace State

def set (s : State) (i : ℕ) (stage : Stage) : State :=
  { s with stages := Function.update s.stages i stage }

def log (s : State) (event : Event) : State := { s with events := event :: s.events }

/-- A new stage. -/
def add (s : State) (stage : Stage) : State :=
  { s.set s.next stage with next := s.next + 1 }

end State

/-- An operation on a token. -/
def onToken (s : State) (t : ℕ)
    (op : CancelationToken Callback → CancelationToken Callback × List Callback) : ChainStep :=
  let (token, callbacks) := op (s.tokens t)
  ({ s with tokens := Function.update s.tokens t token }, callbacks.map (.callback · t))

/-- The beginning of a chain, on a given token or a new one. -/
def create (kind : Kind) (t : ℕ) (s : State) : ChainStep :=
  let made := s.add
    { kind, since := s.next, home := some t, cancelationToken := some t, future := some t,
      built := true }
  if kind = .task true ∨ kind = .timer then
    onToken made t (·.pushCancelationCallback (.canceler s.next))
  else (made, [])

/-- The constructor of a shared state: without a token it makes a new one. -/
def makeShared (token : Option ℕ) (stage : ℕ → Stage) (s : State) : State :=
  match token with
  | some t => s.add (stage t)
  | none => { s with nextToken := s.nextToken + 1 }.add (stage s.nextToken)

/-- `then_impl`.  A continuation is given its future with the token it has kept. -/
def attach (i : ℕ) (given : Bool) (s : State) : State :=
  let stage := s.stages i
  let captured := if given then stage.captured else stage.future
  makeShared captured (fun t =>
    { kind := .continuation
      parent := if given then stage.parent else some i
      source := if given then stage.source else i
      since := if given then stage.since else s.next
      home := some t
      captured
      cancelationToken := some t
      future := some t
      built := true }) s

/-- `unwrap`: the closure is registered, then the future is made. -/
def unwrap (i : ℕ) (s : State) : ChainStep :=
  (makeShared (s.stages i).future (fun t =>
    { kind := .unwrap, parent := some i, source := i, since := s.next, home := some t,
      cancelationToken := some t }) s,
    [.user, .buildFuture s.next])

/-- `break_cancelation_chain`. -/
def breakCancelationChain (i : ℕ) (s : State) : State :=
  { (s.set i
      { s.stages i with cancelationToken := some s.nextToken, future := some s.nextToken }).log
      (.broke i s.nextToken s.next) with
    nextToken := s.nextToken + 1 }

/-- `request_cancel`: a resolved state has no token any more. -/
def requestCancel (i : ℕ) (s : State) : ChainStep :=
  match (s.stages i).cancelationToken with
  | none => (s, [])
  | some t => onToken (s.log (.request i t)) t (·.requestCancel)

/-- `pop_cancelation_callback`, where there is a token with a callback. -/
def pop (t : Option ℕ) (s : State) : ChainStep :=
  match t with
  | none => (s, [])
  | some t => onToken s t (·.popCancelationCallback)

/-- What produces a stage gets to know a token. -/
def see (i : ℕ) (t : Option ℕ) (s : State) : State :=
  match t with
  | none => s
  | some t => s.log (.see i t)

/-- The first closure of `unwrap`, where the outer future has a value.  The canceler of
the inner future is pushed on the token that the shared state has now. -/
def unwrapOuter (i m : ℕ) (s : State) : ChainStep :=
  let stage := s.stages i
  if stage.cancelationToken = (s.stages m).future then
    (s.set i { stage with isDone := true, inner := some (m, none) }, [])
  else
    let s := s.set i { stage with isDone := true, inner := some (m, stage.cancelationToken) }
    match stage.cancelationToken with
    | none => (s, [])
    | some t => onToken s t (·.pushCancelationCallback (.inner i m))

/-- What a stage does once it is due: a task is called, a timer fires, a continuation or
the closure of `unwrap` runs. -/
def run (i : ℕ) (s : State) : Option ChainStep :=
  let stage := s.stages i
  let done := s.set i { stage with isDone := true }
  if stage.isDone then some (s, [])
  else
    match stage.kind with
    | .promise => none
    | .task cancelable => some (done, (if cancelable then [.popCurrent i] else []) ++ [.enter i])
    | .timer => some (done, [.popCurrent i, .finish i .value])
    | .continuation =>
      if (s.stages stage.source).r = none then none else some (done, [.enter i])
    | .unwrap =>
      match (s.stages stage.source).r with
      | some (.exception e) => some (done, [.finish i (.exception e)])
      | some (.future m) => some (unwrapOuter i m s)
      | _ => none

/-- A callback is called: a canceler that comes first ends its stage, the other one
requests the cancelation of the inner future. -/
def callback (cb : Callback) (t : ℕ) (s : State) : ChainStep :=
  match cb with
  | .inner k m => (s.log (.see k t), [.requestCancel m])
  | .canceler i =>
    let stage := s.stages i
    if stage.isDone then (s.log (.see i t), [])
    else
      ((s.set i { stage with isDone := true }).log (.see i t),
        [if stage.kind = .timer then .popCurrent i else .pop stage.home, .user,
          .finish i (.exception .operationCanceled)])

/-- The function of a task is given the token that the shared state has, that of a
continuation the one it has kept. -/
def enter (i : ℕ) (s : State) : ChainStep :=
  let stage := s.stages i
  (see i (if stage.kind = .continuation then stage.captured else stage.cancelationToken) s,
    [.user, .functionReturn i])

def finish (i : ℕ) (r : Outcome) (s : State) : ChainStep :=
  (s.set i { s.stages i with r := some r, cancelationToken := none }, [.user])

/-- Whether there is a future to attach to. -/
def usable (i : ℕ) (given : Bool) (s : State) : Bool :=
  if given then decide ((s.stages i).kind = .continuation) && (s.stages i).isDone
  else (s.stages i).built

/-- What user code can do with the stages that exist. -/
def user (s : State) : Choice → Option ChainStep
  | .return => some (s, [])
  | .create kind given =>
    if kind = .continuation ∨ kind = .unwrap then none
    else
      match given with
      | none =>
        let (s, calls) := create kind s.nextToken { s with nextToken := s.nextToken + 1 }
        some (s, calls ++ [.user])
      | some t =>
        if t < s.nextToken ∧ kind ≠ .timer then
          let (s, calls) := create kind t s
          some (s, calls ++ [.user])
        else none
  | .attach i given =>
    if i < s.next ∧ usable i given s then some (attach i given s, [.user]) else none
  | .unwrap i =>
    if i < s.next ∧ (s.stages i).built then
      let (s, calls) := unwrap i s
      some (s, calls ++ [.user])
    else none
  | .breakCancelationChain i =>
    if i < s.next ∧ (s.stages i).built ∧ (s.stages i).r = none then
      some (breakCancelationChain i s, [.user])
    else none
  | .requestCancel i =>
    if i < s.next ∧ (s.stages i).built then some (s, [.requestCancel i, .user]) else none
  | .getCancelationToken i =>
    if i < s.next ∧ (s.stages i).kind = .promise ∧ (s.stages i).r = none then
      some (see i (s.stages i).cancelationToken s, [.user])
    else none
  | .resolve i r =>
    if i < s.next ∧ (s.stages i).kind = .promise ∧ (s.stages i).r = none then
      some (s, [.finish i r, .user])
    else none
  | .run i =>
    if i < s.next then (run i s).map fun (s, calls) => (s, calls ++ [.user]) else none
  | .innerReady i =>
    match (s.stages i).inner with
    | some (m, t) =>
      (s.stages m).r.map fun r =>
        (s.set i { s.stages i with inner := none }, [.pop t, .finish i r, .user])
    | none => none
  | .outcome _ => none

/-- One step of a thread. -/
def exec : Machine State ChainCall Choice
  | _, choice, s, .user => user s choice
  | _, _, s, .requestCancel i => some (requestCancel i s)
  | _, _, s, .callback cb t => some (callback cb t s)
  | _, _, s, .pop t => some (pop t s)
  | _, _, s, .popCurrent i => some (pop (s.stages i).cancelationToken s)
  | _, _, s, .enter i => some (enter i s)
  | _, .outcome r, s, .functionReturn i => some (s, [.finish i r])
  | _, _, _, .functionReturn _ => none
  | _, _, s, .finish i r => some (finish i r s)
  | _, _, s, .buildFuture i =>
    some (s.set i { s.stages i with future := (s.stages i).cancelationToken, built := true }, [])

/-- Any number of threads, and nothing made yet. -/
def start (threads : ℕ) : Config State ChainCall :=
  ⟨{}, List.replicate threads [.user]⟩

end Tconcurrent.BreakChain
