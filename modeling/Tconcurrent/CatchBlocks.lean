import Mathlib.Data.List.Flatten
import Mathlib.Data.List.Zip
import Tconcurrent.Future
import Tconcurrent.Interleaving

/-! Packaged tasks, coroutines and `when_any`, and the catch blocks they run in.

A future is named by the order in which the futures were made, and a token by the
first future it was made for.  A catch block of the library is open from the call it
makes first until `endCatch`; each thread counts its own, as `std::current_exception`
and `std::uncaught_exceptions` do. -/
namespace Tconcurrent.CatchBlocks
open Interleaving

/-- The two implementations of coroutines. -/
inductive Engine where
  | stackful
  | stackless
  deriving DecidableEq

/-- What is posted to an executor: a packaged task, the start of a coroutine, and what
goes on after an await. -/
inductive Work where
  | task (q : ℕ)
  | start (c : ℕ)
  | resume (c : ℕ)
  deriving DecidableEq

inductive Closure where
  /-- Code of the user and the executors' loops, at the bottom of a thread's stack. -/
  | user
  /-- `packaged_task::operator()`, its function, and `packaged_task_canceler`. -/
  | task (q : ℕ)
  | function (q : ℕ)
  | cancelTask (q : ℕ)
  /-- An executor is given work. -/
  | post (work : Work)
  /-- `when_any_callback::operator()`, and what cancels a `when_any`. -/
  | whenAny (w index : ℕ)
  | cancelAny (w : ℕ)
  /-- The canceler of `shared_receiver_priv`. -/
  | cancelCoroutine (c : ℕ)
  /-- The canceler of a suspended coroutine, and the end of a canceled coroutine. -/
  | cancelAwait (c : ℕ)
  | abort (c : ℕ)
  /-- A coroutine is started, goes on after an await, and runs. -/
  | start (c : ℕ)
  | resume (c : ℕ)
  | coroutine (c : ℕ)
  | endCatch
  deriving DecidableEq

def Work.closure : Work → Closure
  | task q => .task q
  | start c => .start c
  | resume c => .resume c

abbrev CatchCall := Call ℕ ℕ Closure

/-- What a future was made by. -/
inductive Kind where
  | async
  | then (p : ℕ) (synchronous : Bool)
  | whenAny (futures : List ℕ) (autoCancel : Bool)
  | coroutine
  deriving DecidableEq

/-- A future, and its copy of the cancelation token. -/
structure Made where
  kind : Kind
  token : ℕ
  deriving DecidableEq

/-- A coroutine that runs may have been suspended before. -/
inductive Phase where
  | running (resumed : Bool)
  | awaiting (p : Option ℕ)
  | ended
  deriving DecidableEq

structure Coroutine where
  phase : Phase := .ended
  /-- `_canceled` of the `lazy::cancelation_token`. -/
  requested : Bool := false

/-- What follows on the same stack when a future is resolved or its cancelation is
requested. -/
inductive Signal where
  | resolved (p : ℕ)
  | requested (p : ℕ)
  deriving DecidableEq

/-- What a catch block has set going on a thread, and the tasks, `when_any`s and
coroutines that had run, triggered or started before. -/
structure Catching where
  thread : ℕ
  root : Signal
  spent : ℕ → Bool

structure State where
  engine : Engine
  heap : Heap ℕ ℕ Closure := {}
  made : List Made := []
  /-- `_done` of a packaged task, `triggered` of a `when_any`, and `fired` of the
  `lazy::async` that starts a coroutine. -/
  done : ℕ → Bool := fun _ => false
  coroutines : ℕ → Coroutine := fun _ => {}
  queue : List Work := []
  /-- The exceptions that are being handled on a thread. -/
  handlers : ℕ → ℕ := fun _ => 0
  /-- What the open catch blocks have set going.  No step reads it. -/
  catching : List Catching := []
  terminated : Bool := false

abbrev CatchStep := State × List CatchCall

/-- What user code decides. -/
inductive Choice where
  | return
  | throw
  | async (synchronous : Bool)
  | asyncResumable
  | then (p : ℕ) (synchronous : Bool)
  | whenAny (futures : List ℕ) (autoCancel : Bool)
  | requestCancel (p : ℕ)
  /-- `TC_AWAIT` of a future, and `TC_YIELD`. -/
  | await (p : Option ℕ)
  /-- An executor runs what was posted. -/
  | run (index : ℕ)
  deriving DecidableEq

/-! ## What follows from a signal -/

/-- What a `when_any` does on behalf of the future at an index. -/
def triggers (w index : ℕ) (futures : List ℕ) (autoCancel : Bool) : List Signal :=
  .resolved w :: if autoCancel then (futures.eraseIdx index).map .requested else []

/-- What the future `q` does when `p` is resolved. -/
def Made.follows (p q : ℕ) (m : Made) : List Signal :=
  match m.kind with
  | .then p' true => if p' = p then [.resolved q] else []
  | .whenAny futures autoCancel =>
    futures.zipIdx.flatMap fun (p', index) =>
      if p' = p then triggers q index futures autoCancel else []
  | _ => []

/-- What the canceler on a token does. -/
def cancels (made : List Made) (spent : ℕ → Bool) (t : ℕ) : List Signal :=
  match made[t]?.map Made.kind with
  | some .async | some .coroutine => if spent t then [] else [.resolved t]
  | some (.whenAny futures _) => futures.map .requested
  | _ => []

/-- What follows at once from a signal. -/
def leads (made : List Made) (spent : ℕ → Bool) : Signal → List Signal
  | .resolved p =>
    made.zipIdx.flatMap fun (m, q) => if spent q then [] else m.follows p q
  | .requested p =>
    match made[p]? with
    | some m => .requested m.token :: cancels made spent m.token
    | none => []

/-- What follows from a signal on the same stack. -/
def Downstream (made : List Made) (spent : ℕ → Bool) : Signal → Signal → Prop :=
  Relation.ReflTransGen fun signal next => next ∈ leads made spent signal

/-- What a call that runs in a catch block may do. -/
def signals (s : State) : CatchCall → List Signal
  | .finish p _ => [.resolved p]
  | .thenRun _ f => signals s f
  | .requestCancel p => [.requested p]
  | .client (.function q) => [.resolved q]
  | .client (.task q) | .client (.cancelTask q) => if s.done q then [] else [.resolved q]
  | .client (.whenAny w index) =>
    match s.made[w]?.map Made.kind with
    | some (.whenAny futures autoCancel) =>
      if s.done w then [] else triggers w index futures autoCancel
    | _ => []
  | .client (.cancelAny w) => cancels s.made s.done w
  | .client (.cancelCoroutine c) => [.requested c]
  | _ => []

namespace State

def setCoroutine (s : State) (c : ℕ) (coroutine : Coroutine) : State :=
  { s with coroutines := Function.update s.coroutines c coroutine }

def setDone (s : State) (q : ℕ) : State :=
  { s with done := Function.update s.done q true }

/-- The call that a catch block makes, up to its end. -/
def enterCatch (s : State) (thread p : ℕ) (e : Exc) : CatchStep :=
  ({ s with
      handlers := Function.update s.handlers thread (s.handlers thread + 1)
      catching := ⟨thread, .resolved p, s.done⟩ :: s.catching },
    [.finish p (.exception e), .client .endCatch])

def endCatch (s : State) (thread : ℕ) : State :=
  { s with
    handlers := Function.update s.handlers thread (s.handlers thread - 1)
    catching :=
      if s.handlers thread = 1 then s.catching.filter (·.thread ≠ thread) else s.catching }

/-- User code that is called back from a catch block makes calls. -/
def setsGoing (s : State) (thread : ℕ) (calls : List CatchCall) : State :=
  if s.handlers thread = 0 then s
  else { s with
    catching := (calls.flatMap (signals s)).map (⟨thread, ·, s.done⟩) ++ s.catching }

/-- A new future with a token of its own and a canceler on it. -/
def create (s : State) (kind : Kind) (canceler : Closure) : State :=
  let q := s.made.length
  { s with
    made := s.made ++ [⟨kind, q⟩]
    heap := (s.heap.setState q { cancelationToken := some q }).setToken q
      { doCancels := [.client canceler] } }

/-- The canceler of a coroutine is installed: in the stackful implementation while it is
suspended, in the stackless one from its first suspension on. -/
def installed (s : State) (c : ℕ) : Bool :=
  match (s.coroutines c).phase with
  | .awaiting _ => !(s.coroutines c).requested
  | .running true => s.engine = .stackless && !(s.coroutines c).requested
  | _ => false

end State

/-! ## The steps -/

/-- The callbacks of a `when_any` are registered. -/
def registers (w : ℕ) (futures : List ℕ) : List CatchCall :=
  futures.zipIdx.map fun (p, index) => .thenRun p (.client (.whenAny w index))

/-- `async`, `async_resumable`, `then`, `when_any` and `request_cancel`. -/
def act (s : State) : Choice → Option CatchStep
  | .async synchronous =>
    let q := s.made.length
    let s := s.create .async (.cancelTask q)
    if synchronous then some (s, [.client (.task q)])
    else some ({ s with queue := s.queue ++ [.task q] }, [])
  | .asyncResumable =>
    let c := s.made.length
    let s := s.create .coroutine (.cancelCoroutine c)
    some ({ s with queue := s.queue ++ [.start c] }, [])
  | .then p synchronous =>
    match s.made[p]? with
    | none => none
    | some m =>
      let q := s.made.length
      some ({ s with
          made := s.made ++ [⟨.then p synchronous, m.token⟩]
          heap := s.heap.setState q { cancelationToken := some m.token } },
        [.thenRun p (.client (if synchronous then .task q else .post (.task q)))])
  | .whenAny futures autoCancel =>
    if futures ≠ [] ∧ ∀ p ∈ futures, p < s.made.length then
      let w := s.made.length
      some (s.create (.whenAny futures autoCancel) (.cancelAny w), registers w futures)
    else none
  | .requestCancel p => if p < s.made.length then some (s, [.requestCancel p]) else none
  | _ => none

/-- User code acts, and goes on. -/
def actThen (thread : ℕ) (s : State) (choice : Choice) (again : Closure) : Option CatchStep :=
  (act s choice).map fun (s, calls) => (s.setsGoing thread calls, calls ++ [.client again])

/-- `packaged_task::operator()`. -/
def task (q : ℕ) (s : State) : CatchStep :=
  if s.done q then (s, [])
  else (s.setDone q,
    (if s.made[q]?.map Made.kind = some .async then [.popCancelationCallback q] else []) ++
      [.client (.function q)])

/-- The function of a packaged task, within `operator()`. -/
def function (thread q : ℕ) (s : State) : Choice → Option CatchStep
  | .return => some (s, [.finish q (.value (.plain 0))])
  | .throw => some (s.enterCatch thread q (.user 0))
  | choice => actThen thread s choice (.function q)

/-- `packaged_task_canceler::operator()`. -/
def cancelTask (q : ℕ) (s : State) : CatchStep :=
  if s.done q then (s, [])
  else (s.setDone q, [.popCancelationCallback q, .finish q (.exception .operationCanceled)])

/-- `when_any_callback::operator()`. -/
def whenAny (w index : ℕ) (s : State) : CatchStep :=
  match s.made[w]?.map Made.kind with
  | some (.whenAny futures autoCancel) =>
    if s.done w then (s, [])
    else (s.setDone w,
      (if autoCancel then (futures.eraseIdx index).map .requestCancel else []) ++
        [.finish w (.value (.plain index))])
  | _ => (s, [])

/-- `request_cancel` of the cancelers that a `when_any` has made of its futures. -/
def cancelAny (w : ℕ) (s : State) : CatchStep :=
  match s.made[w]?.map Made.kind with
  | some (.whenAny futures _) => (s, futures.map .requestCancel)
  | _ => (s, [])

/-- `lazy::cancelation_token::request_cancel`: a coroutine that has not started is done,
and the canceler is called if one is installed. -/
def cancelCoroutine (c : ℕ) (s : State) : CatchStep :=
  let coroutine := s.coroutines c
  if coroutine.requested then (s, [])
  else
    ((s.setDone c).setCoroutine c { coroutine with requested := true },
      if s.done c = false then [.finish c (.exception .operationCanceled)]
      else if s.installed c then [.client (.cancelAwait c)] else [])

/-- The canceler of a coroutine.  It is undefined to resume or to destroy a coroutine
that runs. -/
def cancelAwait (thread c : ℕ) (s : State) : Option CatchStep :=
  if s.handlers thread ≠ 0 then some ({ s with terminated := true }, [])
  else
    match (s.coroutines c).phase with
    | .awaiting p => some (s, (p.map .requestCancel).toList ++ [.client (.abort c)])
    | .running _ => none
    | .ended => some (s, [])

/-- The canceled coroutine ends: by an exception that is caught in `submit`, or because
it is destroyed. -/
def abort (thread c : ℕ) (s : State) : CatchStep :=
  let s := s.setCoroutine c { s.coroutines c with phase := .ended }
  match s.engine with
  | .stackful => s.enterCatch thread c .operationCanceled
  | .stackless => (s, [.finish c (.exception .operationCanceled)])

def start (c : ℕ) (s : State) : CatchStep :=
  if s.done c then (s, [])
  else ((s.setDone c).setCoroutine c { s.coroutines c with phase := .running false },
    [.client (.coroutine c)])

def resume (c : ℕ) (s : State) : CatchStep :=
  match (s.coroutines c).phase with
  | .awaiting _ =>
    (s.setCoroutine c { s.coroutines c with phase := .running true }, [.client (.coroutine c)])
  | _ => (s, [])

/-- What resumes a coroutine that awaits or yields. -/
def resumes (c : ℕ) : Option ℕ → List CatchCall
  | some p => [.thenRun p (.client (.post (.resume c)))]
  | none => [.client (.post (.resume c))]

/-- `await` and `yield`.  A coroutine whose cancelation was requested throws where it
yields, and it is undefined to let it await; the stackless implementation installs the
canceler after the first suspension, and calls it at once. -/
def await (thread c : ℕ) (p : Option ℕ) (s : State) : Option CatchStep :=
  let coroutine := s.coroutines c
  if s.handlers thread ≠ 0 then some ({ s with terminated := true }, [])
  else if p.any (s.heap.Ready ·) then some (s, [.client (.coroutine c)])
  else if coroutine.requested && s.engine = .stackful then
    if p = none then some (s, [.client (.coroutine c)]) else none
  else
    some (s.setCoroutine c { coroutine with phase := .awaiting p },
      resumes c p ++ if coroutine.requested then [.client (.cancelAwait c)] else [])

/-- The code of a coroutine, within `submit` or `run`. -/
def coroutine (thread c : ℕ) (s : State) : Choice → Option CatchStep
  | .return =>
    some (s.setCoroutine c { s.coroutines c with phase := .ended },
      [.finish c (.value (.plain 0))])
  | .throw =>
    some ((s.setCoroutine c { s.coroutines c with phase := .ended }).enterCatch thread c (.user 0))
  | .await p => if p.all (· < s.made.length) then await thread c p s else none
  | choice => actThen thread s choice (.coroutine c)

def user (thread : ℕ) (s : State) : Choice → Option CatchStep
  | .return => some (s, [])
  | .run index =>
    s.queue[index]?.map fun work =>
      ({ s with queue := s.queue.eraseIdx index }, [.client work.closure, .client .user])
  | choice => actThen thread s choice .user

def clientExec (thread : ℕ) (choice : Choice) (s : State) : Closure → Option CatchStep
  | .user => user thread s choice
  | .task q => some (task q s)
  | .function q => function thread q s choice
  | .cancelTask q => some (cancelTask q s)
  | .post work => some ({ s with queue := s.queue ++ [work] }, [])
  | .whenAny w index => some (whenAny w index s)
  | .cancelAny w => some (cancelAny w s)
  | .cancelCoroutine c => some (cancelCoroutine c s)
  | .cancelAwait c => cancelAwait thread c s
  | .abort c => some (abort thread c s)
  | .start c => some (start c s)
  | .resume c => some (resume c s)
  | .coroutine c => coroutine thread c s choice
  | .endCatch => some (s.endCatch thread, [])

/-- One atomic step of a thread of a program that has not been terminated. -/
def exec : Machine State CatchCall Choice
  | thread, choice, s, call =>
    if s.terminated then none
    else
      match call with
      | .client k => clientExec thread choice s k
      | call =>
        let (heap, calls) := s.heap.exec call
        some ({ s with heap }, calls)

/-- Any number of threads, and no future yet. -/
def program (engine : Engine) (threads : ℕ) : Config State CatchCall :=
  ⟨{ engine }, List.replicate threads [.client .user]⟩

end Tconcurrent.CatchBlocks
