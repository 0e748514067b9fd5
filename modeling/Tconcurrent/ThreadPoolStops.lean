import Tconcurrent.ThreadPoolServes
import Tconcurrent.ThreadPoolTasks

/-! The end of `stop`.

One that does not cancel work waits until the queue is empty and no task is unfinished, and it
does not wait for ever. -/
namespace Tconcurrent.ThreadPool
open Monitor (sum_map_set)

variable {H : Type} {s s' middle : State H} {i : ℕ} {action : Action H} {actions : List (Action H)}
  {worker : Worker}

/-- While `stop` waits, only others do anything. -/
theorem joining_cases (joining : s.joining = true) (moved : step action s = some s') :
    action = .join ∨ action.isCall = false ∧ action ≠ .join := by
  cases action with
  | join => exact .inl rfl
  | start | stop | stopBeforeFork | resumeAfterFork | setErrorHandler | setTaskTraceHandler =>
    have idle := (own_cases moved).1
    rw [joining] at idle
    cases idle
  | _ => exact .inr ⟨rfl, by simp⟩

theorem works_of_joining (joining : s.joining = true) (apart : action ≠ .join)
    (moved : step action s = some s') : Works s s' :=
  have free := (joining_cases joining moved).resolve_left apart
  step_works moved free.1 apart

/-- What anybody but the owner does to the `io_context`. -/
theorem io_cases (free : action.isCall = false) (moved : step action s = some s') :
    s'.p.io = s.p.io ∧ postsOf [action] = [] ∨
    (∃ task, action = .post task ∧ s'.p.io = { s.p.io with queue := s.p.io.queue ++ [task] }) ∨
    (action = .outOfWork ∧ s.p.io.queue = [] ∧ (∀ worker ∈ s.p.threads, worker.hasTask = false) ∧
      s'.p.io = { s.p.io with stopped := true }) ∨
    ∃ i task queue, action = .take i ∧ s.p.io = { stopped := false, queue := task :: queue } ∧
      s'.p.io = { stopped := false, queue } := by
  cases action with
  | start | stop | stopBeforeFork | resumeAfterFork | setErrorHandler | setTaskTraceHandler =>
    cases free
  | join =>
    obtain ⟨-, -, rfl⟩ := join_cases moved
    exact .inl ⟨rfl, rfl⟩
  | post task =>
    cases moved
    exact .inr (.inl ⟨task, rfl, rfl⟩)
  | outOfWork =>
    simp only [step] at moved
    split at moved
    · rename_i ended
      cases moved
      exact .inr (.inr (.inl ⟨rfl, ended.2.1, ended.2.2, rfl⟩))
    · cases moved
  | run i | finish i threw | handled i =>
    obtain ⟨worker, p, listed, next, rfl⟩ := work_cases moved
    cases worker <;> cases next
    exact .inl ⟨rfl, rfl⟩
  | take i =>
    obtain ⟨worker, p, listed, next, rfl⟩ := work_cases moved
    cases worker <;> try cases next
    simp only at next
    split at next
    · rename_i task queue open_ waiting
      cases next
      refine .inr (.inr (.inr ⟨i, task, queue, rfl, ?_, ?_⟩))
      · rw [← open_, ← waiting]
      · rw [← open_]
        rfl
    · cases next
  | «return» i =>
    obtain ⟨worker, p, listed, next, rfl⟩ := work_cases moved
    cases worker <;> try cases next
    simp only at next
    split at next
    · cases next
      exact .inl ⟨rfl, rfl⟩
    · cases next

/-- Nothing is taken from a stopped `io_context`. -/
theorem stopped_step (stopped : s.p.io.stopped = true) (free : action.isCall = false)
    (moved : step action s = some s') :
    s'.p.io.stopped = true ∧ s'.p.io.queue = s.p.io.queue ++ postsOf [action] := by
  rcases io_cases free moved with ⟨same, none⟩ | ⟨task, rfl, io⟩ | ⟨rfl, -, -, io⟩ |
    ⟨i, task, queue, -, open_, -⟩
  · rw [same, none, List.append_nil]
    exact ⟨stopped, rfl⟩
  · rw [io]
    exact ⟨stopped, rfl⟩
  · rw [io]
    exact ⟨rfl, (List.append_nil _).symm⟩
  · rw [open_] at stopped
    cases stopped

theorem stopped_run (stopped : s.p.io.stopped = true) (joining : s.joining = true)
    (apart : .join ∉ actions) (ran : run actions s = some s') :
    s'.p.io.queue = s.p.io.queue ++ postsOf actions := by
  induction actions generalizing s with
  | nil =>
    cases ran
    exact (List.append_nil _).symm
  | cons action actions ih =>
    obtain ⟨next, moved, ran⟩ := Option.bind_eq_some_iff.mp (run_cons ▸ ran)
    have other : action ≠ .join := fun same => apart (same ▸ List.mem_cons_self)
    have free := ((joining_cases joining moved).resolve_left other).1
    obtain ⟨stays, queue⟩ := stopped_step stopped free moved
    have joins := (works_of_joining joining other moved).joining.trans joining
    rw [ih stays joins (fun member => apart (List.mem_cons_of_mem _ member)) ran, queue,
      List.append_assoc, ← postsOf_append, List.singleton_append]

/-- An `io_context` that is not stopped becomes so when it runs out of work. -/
theorem stopped_cases (open_ : s.p.io.stopped = false) (joining : s.joining = true)
    (apart : .join ∉ actions) (ran : run actions s = some s') (stopped : s'.p.io.stopped = true) :
    ∃ first last middle, actions = first ++ .outOfWork :: last ∧ run first s = some middle ∧
      run (.outOfWork :: last) middle = some s' ∧ middle.p.io.queue = [] ∧
      (∀ worker ∈ middle.p.threads, worker.hasTask = false) ∧ s'.p.io.queue = postsOf last := by
  induction actions generalizing s with
  | nil =>
    cases ran
    rw [open_] at stopped
    cases stopped
  | cons action actions ih =>
    have whole := ran
    obtain ⟨next, moved, goesOn⟩ := Option.bind_eq_some_iff.mp (run_cons ▸ ran)
    have other : action ≠ .join := fun same => apart (same ▸ List.mem_cons_self)
    have rest : .join ∉ actions := fun member => apart (List.mem_cons_of_mem _ member)
    have free := ((joining_cases joining moved).resolve_left other).1
    have joins := (works_of_joining joining other moved).joining.trans joining
    have later (still : next.p.io.stopped = false) :
        ∃ first last middle, action :: actions = first ++ .outOfWork :: last ∧
          run first s = some middle ∧ run (.outOfWork :: last) middle = some s' ∧
          middle.p.io.queue = [] ∧ (∀ worker ∈ middle.p.threads, worker.hasTask = false) ∧
          s'.p.io.queue = postsOf last := by
      obtain ⟨first, last, middle, split, reaches, ended⟩ := ih still joins rest goesOn
      refine ⟨action :: first, last, middle, by rw [split]; rfl, ?_, ended⟩
      rw [run_cons, moved]
      exact reaches
    rcases io_cases free moved with ⟨same, -⟩ | ⟨task, -, io⟩ | ⟨rfl, queue, idle, io⟩ |
      ⟨i, task, queue, -, -, io⟩
    · exact later (by rw [same, open_])
    · exact later (by rw [io]; exact open_)
    · refine ⟨[], actions, s, rfl, rfl, whole, queue, idle, ?_⟩
      rw [stopped_run (by rw [io]) joins rest goesOn, io]
      exact congrArg (· ++ _) queue
    · exact later (by rw [io])

/-- A thread returns from a stopped `io_context` only. -/
def ExitsStopped (s : State H) : Prop := .exited ∈ s.p.threads → s.p.io.stopped = true

theorem ExitsStopped.step (exits : ExitsStopped s) (sane : Sane s)
    (moved : step action s = some s') : ExitsStopped s' := by
  have starts {s : State H} (sane : Sane s) (idle : s.joining = false) (n : ℕ)
      (exits : ExitsStopped s) : ExitsStopped (s.start n) := by
    rcases start_cases sane idle n with ⟨-, same⟩ | ⟨-, none, started⟩
    · rwa [same]
    · rw [started]
      intro member
      cases List.eq_of_mem_replicate member
  cases action with
  | start n =>
    obtain ⟨idle, -, rfl⟩ := own_cases moved
    exact starts sane idle n exits
  | stop cancelWork =>
    obtain ⟨-, -, rfl⟩ := own_cases moved
    cases cancelWork with
    | true => exact fun _ => rfl
    | false => exact exits
  | stopBeforeFork =>
    obtain ⟨-, -, rfl⟩ := own_cases moved
    rcases stopBeforeFork_cases s with ⟨-, same⟩ | ⟨-, stops⟩
    · rwa [same]
    · rw [stops]
      exact fun _ => rfl
  | resumeAfterFork =>
    obtain ⟨idle, -, rfl⟩ := own_cases moved
    unfold State.resumeAfterFork
    split
    · exact exits
    · exact starts (sane.fresh _ _ idle) idle _ fun member => by cases member
  | setErrorHandler cb | setTaskTraceHandler cb =>
    obtain ⟨-, -, rfl⟩ := own_cases moved
    exact exits
  | join =>
    obtain ⟨-, -, rfl⟩ := join_cases moved
    exact fun member => by cases member
  | post | outOfWork | run | take | finish | handled | «return» =>
    intro member
    have stopped : s.p.io.stopped = true :=
      ((step_works moved rfl (by simp)).exited member).elim exits id
    exact (stopped_step stopped rfl moved).1

theorem exitsStopped_of_run (sane : Sane s) (exits : ExitsStopped s)
    (ran : run actions s = some s') : ExitsStopped s' := by
  induction actions generalizing s with
  | nil =>
    cases ran
    exact exits
  | cons action actions ih =>
    obtain ⟨next, moved, goesOn⟩ := Option.bind_eq_some_iff.mp (run_cons ▸ ran)
    exact ih (sane.step moved) (exits.step sane moved) goesOn

theorem joining_of_run (joining : s.joining = true) (apart : .join ∉ actions)
    (ran : run actions s = some s') :
    s'.joining = true ∧ s'.p.threads.length = s.p.threads.length := by
  induction actions generalizing s with
  | nil =>
    cases ran
    exact ⟨joining, rfl⟩
  | cons action actions ih =>
    obtain ⟨next, moved, goesOn⟩ := Option.bind_eq_some_iff.mp (run_cons ▸ ran)
    have works := works_of_joining joining (fun same => apart (same ▸ List.mem_cons_self)) moved
    have ends := ih (works.joining.trans joining)
      (fun member => apart (List.mem_cons_of_mem _ member)) goesOn
    exact ⟨ends.1, ends.2.trans works.length⟩

/-- The owner calls nothing else while `stop` waits. -/
theorem calls_of_joining (joining : s.joining = true) (apart : .join ∉ actions)
    (ran : run actions s = some s') : ∀ action ∈ actions, action.isCall = false := by
  induction actions generalizing s with
  | nil => exact fun _ member => by cases member
  | cons first actions ih =>
    obtain ⟨next, moved, goesOn⟩ := Option.bind_eq_some_iff.mp (run_cons ▸ ran)
    have other : first ≠ .join := fun same => apart (same ▸ List.mem_cons_self)
    have works := works_of_joining joining other moved
    intro action member
    rcases List.mem_cons.mp member with rfl | later
    · exact ((joining_cases joining moved).resolve_left other).1
    · exact ih (works.joining.trans joining) (fun member => apart (List.mem_cons_of_mem _ member))
        goesOn action later

/-! ## What `stop` waits for -/

def Action.isWork : Action H → Bool
  | .run _ | .take _ | .finish _ _ | .handled _ | .return _ => true
  | _ => false

/-- How many steps a worker has still to make, without those for the tasks in the queue. -/
def Worker.left : Worker → ℕ
  | .exited => 0
  | .waiting => 1
  | .starting | .handling => 2
  | .running _ => 3

def State.left (s : State H) : ℕ := 3 * s.p.io.queue.length + s.total Worker.left

theorem left_setWorker {io : IoContext} {numRunningThreads : ℕ} {worker' : Worker}
    (listed : s.p.threads[i]? = some worker)
    (lower : 3 * io.queue.length + worker'.left < 3 * s.p.io.queue.length + worker.left) :
    ({ s with p := ({ s.p with io, numRunningThreads } : Impl H).setWorker i worker' } :
      State H).left < s.left := by
  have moved := sum_map_set Worker.left worker' listed
  change 3 * io.queue.length + ((s.p.threads.set i worker').map Worker.left).sum <
    3 * s.p.io.queue.length + (s.p.threads.map Worker.left).sum
  omega

theorem work_left (works : action.isWork = true) (moved : step action s = some s') :
    s'.left < s.left := by
  cases action with
  | run i =>
    obtain ⟨worker, p, listed, next, rfl⟩ := work_cases moved
    cases worker <;> cases next
    exact left_setWorker listed (Nat.lt_succ_self _)
  | take i =>
    obtain ⟨worker, p, listed, next, rfl⟩ := work_cases moved
    cases worker <;> try cases next
    simp only at next
    split at next
    · rename_i task queue stopped waiting
      cases next
      refine left_setWorker listed ?_
      change 3 * queue.length + 3 < 3 * s.p.io.queue.length + 1
      rw [waiting, List.length_cons]
      omega
    · cases next
  | finish i threw =>
    obtain ⟨worker, p, listed, next, rfl⟩ := work_cases moved
    cases worker <;> cases next
    refine left_setWorker listed ?_
    cases threw <;> simp [Worker.left]
  | handled i =>
    obtain ⟨worker, p, listed, next, rfl⟩ := work_cases moved
    cases worker <;> cases next
    exact left_setWorker listed (Nat.lt_succ_self _)
  | «return» i =>
    obtain ⟨worker, p, listed, next, rfl⟩ := work_cases moved
    cases worker <;> try cases next
    simp only at next
    split at next
    · cases next
      exact left_setWorker listed (Nat.lt_succ_self _)
    · cases next
  | _ => cases works

theorem joining_left (joining : s.joining = true) (apart : action ≠ .join)
    (moved : step action s = some s') :
    s'.left + action.isWork.toNat ≤ s.left + 3 * (postsOf [action]).length := by
  have free := ((joining_cases joining moved).resolve_left apart).1
  cases works : action.isWork with
  | true =>
    have lower := work_left works moved
    rw [Bool.toNat_true]
    omega
  | false =>
    cases action with
    | post task =>
      cases moved
      change 3 * (s.p.io.queue ++ [task]).length + s.total Worker.left + 0 ≤
        3 * s.p.io.queue.length + s.total Worker.left + 3 * 1
      rw [List.length_append, List.length_singleton]
      omega
    | outOfWork =>
      simp only [step] at moved
      split at moved <;> cases moved
      exact Nat.le_add_right _ _
    | join => exact absurd rfl apart
    | start | stop | stopBeforeFork | resumeAfterFork | setErrorHandler | setTaskTraceHandler =>
      cases free
    | run | take | finish | handled | «return» => cases works

/-- A thread that does not wait for a task goes on. -/
theorem worker_goes_on (listed : s.p.threads[i]? = some worker) (executing : worker ≠ .exited)
    (busy : worker ≠ .waiting) :
    ∃ action next, action.isWork = true ∧ step action s = some next := by
  cases worker with
  | starting => exact ⟨.run i, _, rfl, work_eq listed rfl⟩
  | waiting => exact absurd rfl busy
  | running task => exact ⟨.finish i false, _, rfl, work_eq listed rfl⟩
  | handling => exact ⟨.handled i, _, rfl, work_eq listed rfl⟩
  | exited => exact absurd rfl executing

/-- While `stop` waits there is something to do, or it is over. -/
theorem joining_goes_on (joining : s.joining = true) : (∃ next, step .join s = some next) ∨
    (∃ action next, action.isWork = true ∧ step action s = some next) ∨
    (s.p.io.stopped = false ∧ ∃ next, step .outOfWork s = some next) := by
  by_cases ended : ∀ worker ∈ s.p.threads, worker = .exited
  · have joins : s.join.isSome := by
      rw [State.join, if_pos ⟨joining, ended⟩]
      rfl
    exact .inl (Option.isSome_iff_exists.mp joins)
  by_cases idle : ∀ worker ∈ s.p.threads, worker ≠ .exited → worker = .waiting
  · push Not at ended
    obtain ⟨worker, member, executing⟩ := ended
    obtain ⟨i, inside, rfl⟩ := List.getElem_of_mem member
    have waiting := idle _ member executing
    have listed : s.p.threads[i]? = some .waiting := waiting ▸ List.getElem?_eq_getElem inside
    cases stopped : s.p.io.stopped with
    | true => exact .inr (.inl ⟨.return i, _, rfl, work_eq listed (if_pos stopped)⟩)
    | false =>
      cases queue : s.p.io.queue with
      | cons task rest =>
        let taken : State H := { s with p := ({ s.p with
          io := { s.p.io with queue := rest } } : Impl H).setWorker i (.running task) }
        have takes : step (.take i) s = some taken := work_eq listed (by simp [stopped, queue])
        exact .inr (.inl ⟨.take i, taken, rfl, takes⟩)
      | nil =>
        refine .inr (.inr ⟨rfl, { s with p := { s.p with io := { s.p.io with stopped := true } } },
          if_pos ⟨joining, queue, fun worker member => ?_⟩⟩)
        cases worker with
        | running task => cases idle _ member (by simp)
        | _ => rfl
  · push Not at idle
    obtain ⟨worker, member, executing, busy⟩ := idle
    obtain ⟨i, inside, rfl⟩ := List.getElem_of_mem member
    exact .inr (.inl (worker_goes_on (List.getElem?_eq_getElem inside) executing busy))

/-- **`stop` comes to an end**: as long as it waits, a worker or the `io_context` has something to
do, and the workers do only so much, unless more and more tasks are posted. -/
theorem stop_ends (joining : s.joining = true) (apart : .join ∉ actions)
    (ran : run actions s = some s') :
    actions.countP Action.isWork ≤ s.left + 3 * (postsOf actions).length ∧
      ((∃ next, step .join s' = some next) ∨
        (∃ action next, action.isWork = true ∧ step action s' = some next) ∨
        (s'.p.io.stopped = false ∧ ∃ next, step .outOfWork s' = some next)) := by
  refine ⟨?_, joining_goes_on (joining_of_run joining apart ran).1⟩
  have bound : s'.left + actions.countP Action.isWork ≤ s.left + 3 * (postsOf actions).length := by
    induction actions generalizing s with
    | nil =>
      cases ran
      exact le_refl _
    | cons action actions ih =>
      obtain ⟨next, moved, goesOn⟩ := Option.bind_eq_some_iff.mp (run_cons ▸ ran)
      have other : action ≠ .join := fun same => apart (same ▸ List.mem_cons_self)
      have joins := (works_of_joining joining other moved).joining.trans joining
      have rest := ih joins (fun member => apart (List.mem_cons_of_mem _ member)) goesOn
      have first := joining_left joining other moved
      have posts : (postsOf (action :: actions)).length =
          (postsOf [action]).length + (postsOf actions).length := by
        rw [← List.length_append, ← postsOf_append, List.singleton_append]
      rw [List.countP_cons, posts]
      cases works : action.isWork <;> simp only [works, Bool.toNat_true, Bool.toNat_false,
        if_true, Bool.false_eq_true, if_false] at first ⊢ <;> omega
  omega

theorem stop_of_oneThrew_ends : ([.take 0, .post 9] : List (Action Unit)).countP Action.isWork ≤
    (oneThrew.stop false).left + 3 * 1 :=
  (stop_ends (s := oneThrew.stop false) rfl (by simp) rfl).1

/-! ## What `stop` leaves behind -/

/-- These tasks have left the queue in this order, what was taken is finished, and what it has
thrown is reported. -/
structure Settled (events : List Event) (tasks : List ℕ) : Prop where
  left : events.filterMap Event.left = tasks
  ended : (events.map Event.started).sum = (events.map Event.ended).sum
  told : (events.map Event.threw).sum = (events.map Event.told).sum

/-- **A `stop` that does not cancel work** loses no task: when it returns, all that was posted
before the `io_context` has run out of work has been taken in order and is finished.  Nothing that
was posted later was taken.  What was dropped was so by a fork before. -/
theorem stop_drains {before after : List (Action H)} (ran : run before {} = some s)
    (open_ : s.p.io.stopped = false) (threads : s.p.threads ≠ []) (apart : .join ∉ after)
    (stops : run (.stop false :: after ++ [.join]) s = some s') :
    ∃ first last, after = first ++ .outOfWork :: last ∧ s'.p.io.queue = postsOf last ∧
      Settled (history (before ++ (.stop false :: after ++ [.join])) {})
        (postsOf (before ++ first)) ∧
      ∀ task, .dropped task ∈ history (before ++ (.stop false :: after ++ [.join])) {} →
        .resumeAfterFork ∈ before := by
  have whole : run (before ++ (.stop false :: after ++ [.join])) {} = some s' := by
    rw [run_append, ran]
    exact stops
  have conserved := run_conserves whole
  obtain ⟨ended, waits, joins⟩ := Option.bind_eq_some_iff.mp (run_append ▸ stops)
  obtain ⟨stopping, moved, goesOn⟩ := Option.bind_eq_some_iff.mp (run_cons ▸ waits)
  obtain ⟨-, -, rfl⟩ := own_cases moved
  have still := joining_of_run rfl apart goesOn
  rw [run_singleton] at joins
  obtain ⟨-, exited, joined⟩ := join_cases joins
  have exits : ExitsStopped ended := by
    refine @exitsStopped_of_run H {} ended (before ++ .stop false :: after) Sane.empty
      (fun member => by cases member) ?_
    rw [run_append, ran]
    exact waits
  have stopped : ended.p.io.stopped = true := by
    refine exits ?_
    have some : ended.p.threads ≠ [] := by
      rw [← List.length_pos_iff, still.2]
      exact List.length_pos_iff.mpr threads
    obtain ⟨worker, rest, eq⟩ := List.exists_cons_of_ne_nil some
    have member : worker ∈ ended.p.threads := eq ▸ List.mem_cons_self
    exact exited worker member ▸ member
  obtain ⟨first, last, middle, split, -, -, -, -, left⟩ :=
    @stopped_cases H (s.stop false) ended after open_ rfl apart goesOn stopped
  have queue : s'.p.io.queue = postsOf last := by
    rw [joined]
    exact left
  have none : s'.p.threads = [] := by rw [joined]
  refine ⟨first, last, split, queue, ⟨?_, ?_, ?_⟩, fun task dropped => ?_⟩
  · have eq := conserved.queue
    have posts : postsOf (before ++ (.stop false :: after ++ [.join])) =
        postsOf (before ++ first) ++ postsOf last := by
      rw [split]
      simp [postsOf]
    rw [posts, queue] at eq
    exact (List.append_cancel_right eq).symm
  · have eq := conserved.tasks
    rwa [total_empty _ rfl, total_empty _ none, zero_add, add_zero] at eq
  · have eq := conserved.reports
    rwa [total_empty _ rfl, total_empty _ none, zero_add, add_zero] at eq
  · rcases List.mem_append.mp (resumed_of_dropped dropped) with earlier | stopping
    · exact earlier
    · have free := calls_of_joining rfl apart goesOn
      rcases List.mem_cons.mp stopping with same | later
      · cases same
      · rcases List.mem_append.mp later with meanwhile | last
        · cases free _ meanwhile
        · cases List.mem_singleton.mp last

/-- The second task is run when `stop` is called, and another one is posted too late. -/
def drained : List (Action Unit) :=
  [.take 0, .finish 0 false, .outOfWork, .post 9, .return 0]

theorem stop_of_oneThrew_drains : ∃ first last, drained = first ++ .outOfWork :: last ∧
    [9] = postsOf last ∧ Settled (history (oneThrows ++ (.stop false :: drained ++ [.join])) {})
      (postsOf (oneThrows ++ first)) ∧
    ∀ task, .dropped task ∈ history (oneThrows ++ (.stop false :: drained ++ [.join])) {} →
      .resumeAfterFork ∈ oneThrows :=
  @stop_drains Unit oneThrew { p := { io := { stopped := true, queue := [9] } }, asked := 1 }
    oneThrows drained rfl rfl (by simp [oneThrew]) (by simp [drained]) rfl

end Tconcurrent.ThreadPool
