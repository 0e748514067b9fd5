import Mathlib.Algebra.BigOperators.Group.List.Basic
import Mathlib.Algebra.Order.Group.Multiset
import Tconcurrent.Monitor
import Tconcurrent.ThreadPoolInvariant

/-! The tasks of a `thread_pool`.

Whatever is posted leaves the queue in the order in which it was posted, taken by a worker or
dropped with the `io_context` of a pool that starts afresh; what was taken is finished once, and
what it has thrown is reported once. -/
namespace Tconcurrent.ThreadPool
open Monitor (sum_map_set)

variable {H : Type} {s s' middle : State H} {i : ℕ} {action : Action H} {actions : List (Action H)}
  {worker : Worker}

/-! ## What happens to tasks -/

inductive Event where
  | taken (task : ℕ)
  | finished (task : ℕ) (threw : Bool)
  /-- The error handler was called. -/
  | reported
  | dropped (task : ℕ)
  deriving DecidableEq

/-- What a step does to tasks. -/
def events : Action H → State H → List Event
  | .take _, s => s.p.io.queue.head?.toList.map .taken
  | .finish i threw, s =>
    match s.p.threads[i]? with
    | some (.running task) => [.finished task threw]
    | _ => []
  | .handled _, _ => [.reported]
  | .resumeAfterFork, s => if s.p.threads = [] then s.p.io.queue.map .dropped else []
  | _, _ => []

def history : List (Action H) → State H → List Event
  | [], _ => []
  | action :: actions, s =>
    events action s ++ (step action s).elim [] (history actions)

def postsOf (actions : List (Action H)) : List ℕ :=
  actions.filterMap fun
    | .post task => some task
    | _ => none

namespace Event

/-- The tasks that have left the queue. -/
def left : Event → Option ℕ
  | .taken task | .dropped task => some task
  | _ => none

def started : Event → Multiset ℕ
  | .taken task => {task}
  | _ => 0

def ended : Event → Multiset ℕ
  | .finished task _ => {task}
  | _ => 0

def threw : Event → ℕ
  | .finished _ threw => threw.toNat
  | _ => 0

def told : Event → ℕ
  | .reported => 1
  | _ => 0

end Event

/-- The task that a worker runs. -/
def Worker.tasks : Worker → Multiset ℕ
  | .running task => {task}
  | _ => 0

def Worker.reports : Worker → ℕ
  | .handling => 1
  | _ => 0

/-- The sum over all workers. -/
def State.total {M : Type} [AddCommMonoid M] (s : State H) (f : Worker → M) : M :=
  (s.p.threads.map f).sum

/-- Between two states nothing was lost and nothing was done twice. -/
structure Conserves (s : State H) (posts : List ℕ) (events : List Event) (s' : State H) :
    Prop where
  queue : s.p.io.queue ++ posts = events.filterMap Event.left ++ s'.p.io.queue
  tasks : s.total Worker.tasks + (events.map Event.started).sum =
    (events.map Event.ended).sum + s'.total Worker.tasks
  reports : s.total Worker.reports + (events.map Event.threw).sum =
    (events.map Event.told).sum + s'.total Worker.reports

theorem Conserves.trans {posts posts' : List ℕ} {events events' : List Event}
    (first : Conserves s posts events middle) (second : Conserves middle posts' events' s') :
    Conserves s (posts ++ posts') (events ++ events') s' where
  queue := by
    rw [List.filterMap_append, List.append_assoc, ← second.queue, ← List.append_assoc,
      ← List.append_assoc, first.queue]
  tasks := by
    rw [List.map_append, List.map_append, List.sum_append, List.sum_append, ← add_assoc,
      first.tasks, add_assoc, second.tasks, add_assoc]
  reports := by
    have before := first.reports
    have after := second.reports
    rw [List.map_append, List.map_append, List.sum_append, List.sum_append]
    omega

/-- A step that does nothing to tasks. -/
theorem conserves_quiet (queue : s'.p.io.queue = s.p.io.queue)
    (tasks : s'.total Worker.tasks = s.total Worker.tasks)
    (reports : s'.total Worker.reports = s.total Worker.reports) : Conserves s [] [] s' :=
  ⟨by simp [queue], by simp [tasks], by simp [reports]⟩

theorem total_replicate {M : Type} [AddCommMonoid M] (f : Worker → M) (n : ℕ)
    (none : f .starting = 0) : ((List.replicate n Worker.starting).map f).sum = 0 := by
  rw [List.map_replicate, none, List.sum_replicate, nsmul_zero]

/-- New threads have not begun. -/
theorem start_conserves (s : State H) (n : ℕ) : Conserves s [] [] (s.start n) := by
  unfold State.start Impl.start
  split
  · rename_i started
    split at started
    · cases started
    · cases started
      refine conserves_quiet rfl ?_ ?_
      · rw [State.total, List.map_append, List.sum_append, total_replicate _ n rfl, add_zero]
        rfl
      · rw [State.total, List.map_append, List.sum_append, total_replicate _ n rfl, add_zero]
        rfl
  · exact conserves_quiet rfl rfl rfl

theorem stop_conserves (s : State H) (cancelWork : Bool) :
    Conserves s [] [] (s.stop cancelWork) := by
  cases cancelWork <;> exact conserves_quiet rfl rfl rfl

theorem resumeAfterFork_conserves (s : State H) :
    Conserves s [] (events .resumeAfterFork s) s.resumeAfterFork := by
  have same : events .resumeAfterFork s =
    if s.p.threads = [] then s.p.io.queue.map .dropped else [] := rfl
  rw [same]
  by_cases none : s.p.threads = []
  · have dropped : Conserves s [] (s.p.io.queue.map Event.dropped) { s with
        p := { errorCb := s.p.errorCb, taskTraceHandler := s.p.taskTraceHandler } } := by
      refine ⟨?_, ?_, ?_⟩
      · simp [List.filterMap_map, Function.comp_def, Event.left]
      · simp [State.total, none, Function.comp_def, Event.started, Event.ended]
      · simp [State.total, none, Function.comp_def, Event.threw, Event.told]
    have fresh := dropped.trans (start_conserves _ s.p.numThreadsBeforeFork)
    rw [List.append_nil, List.append_nil] at fresh
    rw [if_pos none, State.resumeAfterFork, if_neg (not_not.mpr none)]
    exact fresh
  · rw [if_neg none, State.resumeAfterFork, if_pos none]
    exact conserves_quiet rfl rfl rfl

/-- A worker goes from one place to another. -/
theorem conserves_setWorker {io : IoContext} {numRunningThreads : ℕ} {worker' : Worker}
    {events : List Event} (listed : s.p.threads[i]? = some worker)
    (queue : s.p.io.queue = events.filterMap Event.left ++ io.queue)
    (tasks : worker.tasks + (events.map Event.started).sum =
      (events.map Event.ended).sum + worker'.tasks)
    (reports : worker.reports + (events.map Event.threw).sum =
      (events.map Event.told).sum + worker'.reports) :
    Conserves s [] events
      { s with p := ({ s.p with io, numRunningThreads } : Impl H).setWorker i worker' } where
  queue := by rw [List.append_nil, queue]; rfl
  tasks := by
    have moved := sum_map_set Worker.tasks worker' listed
    have whole : s.total Worker.tasks + (events.map Event.started).sum + worker.tasks =
        (events.map Event.ended).sum + ((s.p.threads.set i worker').map Worker.tasks).sum +
          worker.tasks := by
      rw [add_assoc, add_comm (List.sum _) worker.tasks, tasks, add_assoc (List.sum _), moved,
        add_left_comm]
      rfl
    exact add_right_cancel whole
  reports := by
    have moved := sum_map_set Worker.reports worker' listed
    change (s.p.threads.map Worker.reports).sum + _ =
      _ + ((s.p.threads.set i worker').map Worker.reports).sum
    omega

theorem step_conserves (moved : step action s = some s') :
    Conserves s (postsOf [action]) (events action s) s' := by
  cases action with
  | start n =>
    obtain ⟨-, -, rfl⟩ := own_cases moved
    exact start_conserves s n
  | stop cancelWork =>
    obtain ⟨-, -, rfl⟩ := own_cases moved
    exact stop_conserves s cancelWork
  | stopBeforeFork =>
    obtain ⟨-, -, rfl⟩ := own_cases moved
    rcases stopBeforeFork_cases s with ⟨-, same⟩ | ⟨-, stops⟩
    · rw [same]
      exact conserves_quiet rfl rfl rfl
    · rw [stops]
      exact conserves_quiet rfl rfl rfl
  | resumeAfterFork =>
    obtain ⟨-, -, rfl⟩ := own_cases moved
    exact resumeAfterFork_conserves s
  | setErrorHandler cb | setTaskTraceHandler cb =>
    obtain ⟨-, -, rfl⟩ := own_cases moved
    exact conserves_quiet rfl rfl rfl
  | join =>
    obtain ⟨-, ended, rfl⟩ := join_cases moved
    have none {M : Type} [AddCommMonoid M] (f : Worker → M) (exited : f .exited = 0) :
        s.total f = 0 := by
      refine List.sum_eq_zero fun m member => ?_
      obtain ⟨worker, listed, rfl⟩ := List.mem_map.mp member
      rw [ended worker listed, exited]
    exact conserves_quiet rfl (none _ rfl).symm (none _ rfl).symm
  | post task =>
    cases moved
    exact ⟨rfl, add_comm _ _, add_comm _ _⟩
  | outOfWork =>
    simp only [step] at moved
    split at moved
    · cases moved
      exact conserves_quiet rfl rfl rfl
    · cases moved
  | run i =>
    obtain ⟨worker, p, listed, next, rfl⟩ := work_cases moved
    cases worker <;> cases next
    exact conserves_setWorker listed rfl rfl rfl
  | take i =>
    obtain ⟨worker, p, listed, next, rfl⟩ := work_cases moved
    cases worker <;> try cases next
    simp only at next
    split at next
    · rename_i task queue stopped waiting
      cases next
      refine conserves_setWorker listed ?_ ?_ ?_
      all_goals simp [events, waiting, Event.left, Event.started, Event.ended, Event.threw,
        Event.told, Worker.tasks, Worker.reports]
    · cases next
  | finish i threw =>
    obtain ⟨worker, p, listed, next, rfl⟩ := work_cases moved
    cases worker <;> cases next
    refine conserves_setWorker listed ?_ ?_ ?_
    all_goals cases threw <;> simp [events, listed, Event.left, Event.started, Event.ended,
      Event.threw, Event.told, Worker.tasks, Worker.reports]
  | handled i =>
    obtain ⟨worker, p, listed, next, rfl⟩ := work_cases moved
    cases worker <;> cases next
    exact conserves_setWorker listed rfl rfl rfl
  | «return» i =>
    obtain ⟨worker, p, listed, next, rfl⟩ := work_cases moved
    cases worker <;> try cases next
    simp only at next
    split at next
    · cases next
      exact conserves_setWorker listed rfl rfl rfl
    · cases next

/-! ## Runs -/

theorem postsOf_append (actions actions' : List (Action H)) :
    postsOf (actions ++ actions') = postsOf actions ++ postsOf actions' :=
  List.filterMap_append

theorem run_conserves (ran : run actions s = some s') :
    Conserves s (postsOf actions) (history actions s) s' := by
  induction actions generalizing s with
  | nil =>
    cases ran
    exact conserves_quiet rfl rfl rfl
  | cons action actions ih =>
    obtain ⟨next, moved, ran⟩ := Option.bind_eq_some_iff.mp (run_cons ▸ ran)
    have first := (step_conserves moved).trans (ih ran)
    rw [← postsOf_append, List.singleton_append] at first
    rwa [history, moved]

/-- Tasks are dropped by a fork only. -/
theorem dropped_cases {task : ℕ} (dropped : .dropped task ∈ events action s) :
    action = .resumeAfterFork := by
  cases action with
  | resumeAfterFork => rfl
  | take i =>
    obtain ⟨_, -, same⟩ := List.mem_map.mp dropped
    cases same
  | finish i threw =>
    simp only [events] at dropped
    split at dropped
    · cases List.mem_singleton.mp dropped
    · cases dropped
  | handled i => cases List.mem_singleton.mp dropped
  | start | stop | stopBeforeFork | setErrorHandler | setTaskTraceHandler | join | post | outOfWork
  | run | «return» => cases dropped

theorem resumed_of_dropped {task : ℕ} (dropped : .dropped task ∈ history actions s) :
    .resumeAfterFork ∈ actions := by
  induction actions generalizing s with
  | nil => cases dropped
  | cons action actions ih =>
    rcases List.mem_append.mp dropped with now | later
    · rw [dropped_cases now]
      exact List.mem_cons_self
    · cases moved : step action s with
      | none =>
        rw [moved] at later
        cases later
      | some next =>
        rw [moved] at later
        exact List.mem_cons_of_mem _ (ih later)

theorem total_empty {M : Type} [AddCommMonoid M] (f : Worker → M) (none : s.p.threads = []) :
    s.total f = 0 := by
  rw [State.total, none, List.map_nil, List.sum_nil]

/-- **No task is lost and none runs twice**: they leave the queue in the order in which they were
posted, taken by a worker or dropped by a fork, what was taken is finished or still runs, and what
it has thrown was reported to the error handler once or is being reported. -/
theorem tasks_conserved (ran : run actions {} = some s) :
    postsOf actions = (history actions {}).filterMap Event.left ++ s.p.io.queue ∧
      ((history actions {}).map Event.started).sum =
        ((history actions {}).map Event.ended).sum + s.total Worker.tasks ∧
      ((history actions {}).map Event.threw).sum =
        ((history actions {}).map Event.told).sum + s.total Worker.reports ∧
      ∀ task, .dropped task ∈ history actions {} → .resumeAfterFork ∈ actions := by
  obtain ⟨queue, tasks, reports⟩ := run_conserves ran
  rw [total_empty _ rfl, zero_add] at tasks reports
  exact ⟨queue, tasks, reports, fun task => resumed_of_dropped⟩

/-- One thread runs one of two tasks, which throws. -/
def oneThrows : List (Action Unit) :=
  [.start 1, .post 7, .post 8, .run 0, .take 0, .finish 0 true, .handled 0]

def oneThrew : State Unit where
  p := {
    io := { queue := [8] }
    work := true
    threads := [.waiting]
    numRunningThreads := 1 }
  asked := 1

theorem oneThrew_conserved :
    postsOf oneThrows = (history oneThrows {}).filterMap Event.left ++ oneThrew.p.io.queue :=
  (tasks_conserved (s := oneThrew) rfl).1

end Tconcurrent.ThreadPool
