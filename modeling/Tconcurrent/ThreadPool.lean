import Mathlib.Data.List.Basic

/-! `thread_pool`, its worker threads and the `io_context` they run.

One thread owns the pool and calls its functions one after the other; any thread may post.
`stop` is over when all workers have returned from `run_thread`, and workers go on in
between.  The `io_context` is what its documentation says: it is stopped by `stop` and when
it runs out of work, and `run` returns as soon as it is stopped. -/
namespace Tconcurrent.ThreadPool

variable {H : Type}

/-- Where a thread is in `run_thread`. -/
inductive Worker where
  | starting
  /-- In `run`, without a task. -/
  | waiting
  | running (task : ℕ)
  /-- The task has thrown, and the error handler is called. -/
  | handling
  | exited
  deriving DecidableEq

/-- Whether a task is unfinished, so that there is work. -/
def Worker.hasTask : Worker → Bool
  | .running _ => true
  | _ => false

structure IoContext where
  stopped : Bool := false
  queue : List ℕ := []
  deriving DecidableEq

/-- `thread_pool::impl`. -/
structure Impl (H : Type) where
  io : IoContext := {}
  /-- Whether there is a work guard. -/
  work : Bool := false
  threads : List Worker := []
  numRunningThreads : ℕ := 0
  numThreadsBeforeFork : ℕ := 0
  /-- The handlers that were set, if any. -/
  errorCb : Option H := none
  taskTraceHandler : Option H := none
  deriving DecidableEq

structure State (H : Type) where
  p : Impl H := {}
  /-- `stop` waits for the workers. -/
  joining : Bool := false
  /-- `_p` was released, since threads are still running. -/
  released : Bool := false
  /-- What `start` was last called with. -/
  asked : ℕ := 0
  deriving DecidableEq

inductive Action (H : Type) where
  | start (n : ℕ)
  | stop (cancelWork : Bool)
  | stopBeforeFork
  | resumeAfterFork
  | setErrorHandler (cb : H)
  | setTaskTraceHandler (cb : H)
  /-- The threads are joined. -/
  | join
  | post (task : ℕ)
  /-- The guard was the last work of the `io_context`, or the last task is finished. -/
  | outOfWork
  /-- What the thread `i` does. -/
  | run (i : ℕ)
  | take (i : ℕ)
  | finish (i : ℕ) (threw : Bool)
  | handled (i : ℕ)
  | return (i : ℕ)
  deriving DecidableEq

namespace Impl

variable (p : Impl H)

def isRunning : Bool := p.work

/-- `thread_pool::start`. -/
def start (n : ℕ) : Except String (Impl H) :=
  if p.work then .error "the threadpool is already running"
  else .ok { p with work := true, threads := p.threads ++ List.replicate n .starting }

/-- `thread_pool::stop`, up to the first `join`. -/
def stop (cancelWork : Bool) : Impl H :=
  let p := { p with work := false }
  if cancelWork then { p with io := { p.io with stopped := true } } else p

def setWorker (i : ℕ) (worker : Worker) : Impl H := { p with threads := p.threads.set i worker }

end Impl

namespace State

variable (s : State H)

def start (n : ℕ) : State H :=
  match s.p.start n with
  | .ok p => { s with p, asked := n }
  | .error _ => s

def stop (cancelWork : Bool) : State H := { s with p := s.p.stop cancelWork, joining := true }

/-- If called multiple times, the saved state is kept. -/
def stopBeforeFork : State H :=
  if s.p.numThreadsBeforeFork ≠ 0 then s
  else { s with p := { s.p with numThreadsBeforeFork := s.p.threads.length } }.stop true

/-- If there are threads, they just keep running.  Otherwise this is a fresh start. -/
def resumeAfterFork : State H :=
  if s.p.threads ≠ [] then s
  else
    let p := { errorCb := s.p.errorCb, taskTraceHandler := s.p.taskTraceHandler }
    { s with p }.start s.p.numThreadsBeforeFork

/-- The rest of `stop`. -/
def join : Option (State H) :=
  if s.joining ∧ ∀ worker ∈ s.p.threads, worker = .exited then
    some { s with
      p := { s.p with threads := [] }
      joining := false, released := decide (s.p.numRunningThreads ≠ 0) }
  else none

/-- What the owner of the pool does while no call of it is unfinished. -/
def own (next : State H) : Option (State H) := if s.joining ∨ s.released then none else some next

/-- What a worker does. -/
def work (i : ℕ) (next : Worker → Option (Impl H)) : Option (State H) :=
  (s.p.threads[i]?.bind next).map fun p => { s with p }

end State

def step : Action H → State H → Option (State H)
  | .start n, s => s.own (s.start n)
  | .stop cancelWork, s => s.own (s.stop cancelWork)
  | .stopBeforeFork, s => s.own s.stopBeforeFork
  | .resumeAfterFork, s => s.own s.resumeAfterFork
  | .setErrorHandler cb, s => s.own { s with p := { s.p with errorCb := some cb } }
  | .setTaskTraceHandler cb, s => s.own { s with p := { s.p with taskTraceHandler := some cb } }
  | .join, s => s.join
  | .post task, s =>
    some { s with p := { s.p with io := { s.p.io with queue := s.p.io.queue ++ [task] } } }
  | .outOfWork, s =>
    if s.joining ∧ s.p.io.queue = [] ∧ ∀ worker ∈ s.p.threads, worker.hasTask = false then
      some { s with p := { s.p with io := { s.p.io with stopped := true } } }
    else none
  | .run i, s => s.work i fun
    | .starting =>
      some (({ s.p with numRunningThreads := s.p.numRunningThreads + 1 } : Impl H).setWorker i .waiting)
    | _ => none
  | .take i, s => s.work i fun
    | .waiting =>
      match s.p.io.stopped, s.p.io.queue with
      | false, task :: queue =>
        some (({ s.p with io := { s.p.io with queue } } : Impl H).setWorker i (.running task))
      | _, _ => none
    | _ => none
  | .finish i threw, s => s.work i fun
    | .running _ => some (s.p.setWorker i (if threw then .handling else .waiting))
    | _ => none
  | .handled i, s => s.work i fun
    | .handling => some (s.p.setWorker i .waiting)
    | _ => none
  | .return i, s => s.work i fun
    | .waiting =>
      if s.p.io.stopped then
        some (({ s.p with numRunningThreads := s.p.numRunningThreads - 1 } : Impl H).setWorker i .exited)
      else none
    | _ => none

def run (actions : List (Action H)) (s : State H) : Option (State H) :=
  actions.foldlM (fun s action => step action s) s

end Tconcurrent.ThreadPool
