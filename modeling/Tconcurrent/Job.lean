import Tconcurrent.Future
import Tconcurrent.Interleaving

/-! `job`: runs of one callback, chained on the future of the previous run.

Run `k` is what the `k`-th pass through the first branch of `triggerImpl` asks
for; its shared states and tokens are named after it.  Every closure of
`job.hpp` is one `JobCall`, and a closure that takes `_mutex` for its whole
length runs as one atomic step.  `trigger` and the closures that call out while
they hold the mutex keep it over several steps, and other threads then wait. -/
namespace Tconcurrent.Job
open Interleaving

/-- The shared states of run `k`. -/
inductive JobState where
  /-- The packaged task of `_future.then(...)` in `triggerImpl`. -/
  | chainThen (k : ℕ)
  /-- What its `.unwrap()` returns, `_future` from then on; 0 is the initial ready future. -/
  | chain (k : ℕ)
  /-- The packaged task of `tc::async` in `reschedule`. -/
  | task (k : ℕ)
  /-- What its `.unwrap()` returns, the result of `reschedule`. -/
  | run (k : ℕ)
  /-- The future that `_cb()` returns. -/
  | callback (k : ℕ)
  /-- The packaged task of `_cb().then(...)`. -/
  | continuation (k : ℕ)
  deriving DecidableEq

inductive JobToken where
  /-- Token 0 is that of the initial future; the others are made by `package`
  when it is given no token. -/
  | chain (k : ℕ)
  | task (k : ℕ)
  | callback (k : ℕ)
  deriving DecidableEq

inductive JobCall where
  /-- Code outside of the library: it makes calls and then returns. -/
  | user
  /-- The loop of the default executor. -/
  | executor
  /-- `trigger` (false) or `trigger_success` (true) up to the end of `then`. -/
  | trigger (setPromise : Bool)
  /-- The assignment to `_future` that ends `triggerImpl`. -/
  | assignFuture (k : ℕ) (setPromise : Bool)
  /-- The return statement and the end of the lock's scope. -/
  | returnFuture (setPromise : Bool)
  /-- The closure `triggerImpl` registers on the previous `_future`. -/
  | chainContinuation (k : ℕ)
  /-- The end of that closure, after `reschedule` has returned. -/
  | endReschedule (k : ℕ)
  /-- `packaged_task::operator()` of the posted task. -/
  | packagedTask (k : ℕ)
  /-- The locked first section of the run body. -/
  | runBody (k : ℕ)
  /-- The call of `_cb`. -/
  | callCallback (k pendingPromises : ℕ)
  | returnCallback (k pendingPromises : ℕ)
  /-- The handler around the call of `_cb`. -/
  | catchCallback (k pendingPromises : ℕ) (e : Exc)
  /-- The closure registered on the future of the callback. -/
  | runContinuation (k pendingPromises : ℕ)
  /-- The loop over `_successPromises` in that closure. -/
  | setPromises (k pendingPromises i : ℕ)
  /-- `packaged_task_canceler` of the posted task. -/
  | cancelTask (k : ℕ)
  /-- `~job`: the locked section, then the wait. -/
  | destroy
  | waitDestroyed (p : JobState)
  deriving DecidableEq

abbrev JobFuture := Future JobState JobToken
abbrev JobResult := Result JobState JobToken
abbrev JobHeap := Heap JobState JobToken JobCall

/-- What the library does not decide. -/
inductive Choice where
  | return
  | trigger (setPromise : Bool)
  | requestCancel (k : ℕ)
  /-- The producer of the callback's future sets it. -/
  | resolve (k : ℕ) (r : JobResult)
  | destroy
  /-- The executor runs or drops a posted task. -/
  | run (k : ℕ)
  | drop (k : ℕ)
  /-- `_cb()` throws, or returns a future that is ready or not. -/
  | throws (e : Exc)
  | returns (r : Option JobResult)
  deriving DecidableEq

/-- What has happened so far; no closure of `job.hpp` reads it. -/
structure History where
  /-- How many runs were requested, and the last one whose body began. -/
  count : ℕ := 0
  begun : ℕ := 0
  /-- The closure of `triggerImpl` was called, and it posted the run. -/
  continued : ℕ → Bool := fun _ => false
  posted : ℕ → Bool := fun _ => false
  /-- The packaged task was destroyed before it ran. -/
  dropped : ℕ → Bool := fun _ => false
  /-- `_cb()` was called, came back, gave a future whose producer has set it. -/
  invoked : ℕ → Bool := fun _ => false
  returned : ℕ → Bool := fun _ => false
  created : ℕ → Bool := fun _ => false
  produced : ℕ → Bool := fun _ => false
  /-- What the run in progress has captured as `pendingPromises`. -/
  captured : Option ℕ := none
  /-- The future each `trigger` and the promise each `trigger_success` returned,
  with the last run begun by then. -/
  futures : List (JobState × ℕ) := []
  issued : List (ℕ × ℕ) := []
  /-- The promises set, each with the run that set it. -/
  fulfilled : List (ℕ × ℕ) := []
  /-- The runs that ended without error. -/
  succeeded : List ℕ := []
  /-- `trigger_success` took `back()` of an empty vector. -/
  backOfEmpty : Bool := false
  /-- An assertion of the closures of `triggerImpl` or `reschedule` has failed. -/
  assertFailed : Bool := false
  /-- The calls of `trigger` and `trigger_success` in progress. -/
  triggering : ℕ := 0
  /-- `~job` was called, and its wait has returned. -/
  destroying : Bool := false
  destroyed : Bool := false

structure State extends History where
  heap : JobHeap
  /-- The owner of `_mutex` and how often it has locked it again. -/
  mutex : Option (ℕ × ℕ) := none
  scheduled : Bool := false
  stopping : Bool := false
  running : Bool := false
  /-- `_future`: its shared state and the token it carries. -/
  future : JobState := .chain 0
  futureToken : Option JobToken := some (.chain 0)
  /-- `_successPromises`, each promise a number, and the next number. -/
  successPromises : List ℕ := []
  nextPromise : ℕ := 0
  /-- The tasks posted to the executor that it has not taken yet. -/
  queue : List ℕ := []
  /-- `_done` of the packaged task. -/
  taskDone : ℕ → Bool := fun _ => false

abbrev JobStep := State × List (Call JobState JobToken JobCall)

/-- `scope_lock`: the mutex is recursive. -/
def acquire (thread : ℕ) (s : State) : Option State :=
  match s.mutex with
  | none => some { s with mutex := some (thread, 0) }
  | some (owner, depth) =>
    if owner = thread then some { s with mutex := some (owner, depth + 1) } else none

def release (s : State) : State :=
  match s.mutex with
  | some (owner, depth + 1) => { s with mutex := some (owner, depth) }
  | _ => { s with mutex := none }

/-- `trigger` and `trigger_success`, and `triggerImpl` up to the end of `then`. -/
def trigger (setPromise : Bool) (s : State) : JobStep :=
  if s.scheduled then (s, [.client (.returnFuture setPromise)])
  else
    let k := s.count + 1
    let token := s.futureToken.getD (.chain k)
    ({ s with
        scheduled := true
        successPromises := s.successPromises ++ if setPromise then [s.nextPromise] else []
        nextPromise := s.nextPromise + if setPromise then 1 else 0
        count := k
        future := .chain k
        heap := (s.heap.setState (.chainThen k) { cancelationToken := some token }).setState
          (.chain k) { cancelationToken := some token } },
      [.thenRun s.future (.client (.chainContinuation k)),
        .thenRun (.chainThen k) (.unwrapOuter (.chainThen k) (.chain k)),
        .client (.assignFuture k setPromise)])

/-- The return statement of `trigger` or `trigger_success`. -/
def returnFuture (setPromise : Bool) (s : State) : State :=
  let s := { s with triggering := s.triggering - 1 }
  if setPromise then
    match s.successPromises.getLast? with
    | some promise => { s with issued := s.issued ++ [(promise, s.begun)] }
    | none => { s with backOfEmpty := true }
  else { s with futures := s.futures ++ [(s.future, s.begun)] }

/-- The closure of `triggerImpl`: it gives up, or calls `reschedule`. -/
def chainContinuation (k : ℕ) (s : State) : JobStep :=
  let s := { s with
    assertFailed := s.assertFailed || !s.scheduled
    continued := Function.update s.continued k true }
  if s.stopping then (release s, [.finish (.chainThen k) (.exception .operationCanceled)])
  else
    ({ s with
        posted := Function.update s.posted k true
        queue := s.queue ++ [k]
        heap := ((s.heap.setState (.task k) { cancelationToken := some (.task k) }).setToken
          (.task k) { doCancels := [.client (.cancelTask k)] }).setState
          (.run k) { cancelationToken := some (.task k) } },
      [.thenRun (.task k) (.unwrapOuter (.task k) (.run k)), .client (.endReschedule k)])

/-- The locked first section of the run body. -/
def runBody (k : ℕ) (s : State) : JobStep :=
  let s := { s with
    assertFailed := s.assertFailed || !s.scheduled || (!s.stopping && s.running)
    scheduled := false
    begun := k }
  if s.stopping then (s, [.finish (.task k) (.exception .operationCanceled)])
  else
    ({ s with running := true, captured := some s.successPromises.length },
      [.client (.callCallback k s.successPromises.length)])

/-- `_cb()` has returned a future: `then`, and the end of the run body. -/
def returnCallback (k pendingPromises : ℕ) (r : Option JobResult) (s : State) : JobStep :=
  ({ s with
      returned := Function.update s.returned k true
      created := Function.update s.created k true
      produced := Function.update s.produced k r.isSome
      heap := (s.heap.setState (.callback k)
        { r, cancelationToken := if r.isSome then none else some (.callback k) }).setState
        (.continuation k) { cancelationToken := some (.callback k) } },
    [.thenRun (.callback k) (.client (.runContinuation k pendingPromises)),
      .finish (.task k) (.value (.future ⟨.continuation k, some (.callback k)⟩))])

/-- The closure on the future of the callback, up to the loop over the promises. -/
def runContinuation (k pendingPromises : ℕ) (s : State) : Option JobStep :=
  match (s.heap.states (.callback k)).r with
  | some (.exception e) =>
    some (release { s with running := false, captured := none },
      [.finish (.continuation k) (.exception e)])
  | some (.value _) =>
    some ({ s with running := false }, [.client (.setPromises k pendingPromises 0)])
  | none => none

/-- One round of the loop over the promises, or the `erase` after it. -/
def setPromises (k pendingPromises i : ℕ) (s : State) : JobStep :=
  if i < pendingPromises then
    ({ s with fulfilled := s.fulfilled ++ (s.successPromises[i]?.map (·, k)).toList },
      [.client .user, .client (.setPromises k pendingPromises (i + 1))])
  else
    (release { s with
        successPromises := s.successPromises.drop pendingPromises
        captured := none
        succeeded := s.succeeded ++ [k] },
      [.finish (.continuation k) (.value (.plain 0))])

/-- What code outside of the library can do.  No `trigger` runs concurrently
with the destructor or after it. -/
def user (s : State) : Choice → Option JobStep
  | .return => some (s, [])
  | .trigger setPromise =>
    if s.destroying then none
    else some ({ s with triggering := s.triggering + 1 },
      [.client (.trigger setPromise), .client .user])
  | .requestCancel k => some (s, [.requestCancel (.chain k), .client .user])
  | .resolve k r =>
    if s.created k && !s.produced k then
      some ({ s with produced := Function.update s.produced k true },
        [.finish (.callback k) r, .client .user])
    else none
  | .destroy =>
    if s.destroying || s.triggering != 0 then none
    else some ({ s with destroying := true }, [.client .destroy, .client .user])
  | _ => none

/-- The executor runs a posted task, drops one, or runs other work. -/
def executor (s : State) : Choice → Option JobStep
  | .run k =>
    if k ∈ s.queue then
      some ({ s with queue := s.queue.erase k }, [.client (.packagedTask k), .client .executor])
    else none
  | .drop k =>
    if k ∈ s.queue then
      if s.taskDone k then some ({ s with queue := s.queue.erase k }, [.client .executor])
      else some ({ s with
            queue := s.queue.erase k
            dropped := Function.update s.dropped k true },
          [.finish (.task k) (.exception .brokenPromise), .client .executor])
    else none
  | .return => some (s, [.client .user, .client .executor])
  | _ => none

/-- The closures of `job.hpp` and what surrounds them. -/
def clientExec (thread : ℕ) (choice : Choice) (s : State) : JobCall → Option JobStep
  | .user => user s choice
  | .executor => executor s choice
  | .trigger setPromise => (acquire thread s).map (trigger setPromise)
  | .assignFuture k setPromise =>
    some ({ s with futureToken := (s.heap.states (.chain k)).cancelationToken },
      [.client (.returnFuture setPromise)])
  | .returnFuture setPromise => some (release (returnFuture setPromise s), [])
  | .chainContinuation k => (acquire thread s).map (chainContinuation k)
  | .endReschedule k =>
    some (release s, [.finish (.chainThen k) (.value (.future (s.heap.future (.run k))))])
  | .packagedTask k =>
    if s.taskDone k then some (s, [])
    else some ({ s with taskDone := Function.update s.taskDone k true },
      [.popCancelationCallback (.task k), .client (.runBody k)])
  | .runBody k => (acquire thread s).map fun s => (release (runBody k s).1, (runBody k s).2)
  | .callCallback k n =>
    some ({ s with invoked := Function.update s.invoked k true },
      [.client .user, .client (.returnCallback k n)])
  | .returnCallback k n =>
    match choice with
    | .throws e =>
      some ({ s with returned := Function.update s.returned k true },
        [.client (.catchCallback k n e)])
    | .returns r => some (returnCallback k n r s)
    | _ => none
  | .catchCallback k _ e =>
    (acquire thread s).map fun s =>
      (release { s with running := false, captured := none }, [.finish (.task k) (.exception e)])
  | .runContinuation k n => (acquire thread s).bind (runContinuation k n)
  | .setPromises k n i => some (setPromises k n i s)
  | .cancelTask k =>
    if s.taskDone k || s.dropped k then some (s, [])
    else some ({ s with taskDone := Function.update s.taskDone k true },
      [.popCancelationCallback (.task k), .finish (.task k) (.exception .operationCanceled)])
  | .destroy =>
    (acquire thread s).map fun s =>
      (release { s with stopping := true },
        [.requestCancel s.future, .client (.waitDestroyed s.future)])
  | .waitDestroyed p => if s.heap.Ready p then some ({ s with destroyed := true }, []) else none

/-- Where the library calls closures that user code has registered. -/
def userCode : Call JobState JobToken JobCall → List (Call JobState JobToken JobCall)
  | .finish (.chain _) _ => [.client .user]
  | .finish (.callback _) _ => [.client .user]
  | .requestCancel (.continuation _) => [.client .user]
  | _ => []

/-- One atomic step of a thread. -/
def exec : Machine State (Call JobState JobToken JobCall) Choice
  | thread, choice, s, .client k => clientExec thread choice s k
  | _, _, s, call =>
    let (heap, calls) := s.heap.exec call
    some ({ s with heap }, userCode call ++ calls ++ userCode call)

/-- A new job, the executor's thread and any number of other threads. -/
def start (threads : ℕ) : Config State (Call JobState JobToken JobCall) where
  state := { heap := ({} : JobHeap).setState (.chain 0) { r := some (.value (.plain 0)) } }
  threads := [.client .executor] :: List.replicate threads [.client .user]

end Tconcurrent.Job
