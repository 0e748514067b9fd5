import Tconcurrent.ThreadPoolInvariant

/-! Whether the workers of a running `thread_pool` execute what is posted.

`stop` leaves the `io_context` stopped, and `start` does not restart it: the threads of the
next `start` return at once, and the pool is running without them.  Only `resume_after_fork`
has a new `io_context`. -/
namespace Tconcurrent.ThreadPool

variable {H : Type} {s s' : State H} {i task : ℕ} {action : Action H} {actions : List (Action H)}
  {worker : Worker}

/-- The threads of the last `start` are executing an `io_context` that is not stopped. -/
structure Serves (s : State H) : Prop where
  stopped : s.p.io.stopped = false
  length : s.p.threads.length = s.asked
  executing : ∀ worker ∈ s.p.threads, worker ≠ .exited
  /-- With a thread there is a way to any task of the queue that needs no call of the owner. -/
  served : 0 < s.asked → ∀ task ∈ s.p.io.queue, ∃ actions s',
    (∀ action ∈ actions, action.isCall = false) ∧ run actions s = some s' ∧
      .running task ∈ s'.p.threads

/-- In every state that a run goes through, a running pool serves its queue. -/
def ServesAlong (actions : List (Action H)) : Prop :=
  ∀ before s, before <+: actions → run before {} = some s → s.p.isRunning = true → Serves s

/-- `start` is called on a running pool, or on one whose `io_context` is not stopped. -/
def StartsUnstopped (actions : List (Action H)) (s : State H) : Prop :=
  ∀ before n after s', actions = before ++ .start n :: after → run before s = some s' →
    s'.p.isRunning = false → s'.p.io.stopped = false

/-! ## What is posted is taken -/

theorem work_eq {next : Worker → Option (Impl H)} {p : Impl H}
    (listed : s.p.threads[i]? = some worker) (moves : next worker = some p) :
    s.work i next = some { s with p } := by
  simp [State.work, listed, moves]

/-- The thread `i` goes on until it has no task. -/
theorem worker_waits (listed : s.p.threads[i]? = some worker) (executing : worker ≠ .exited) :
    ∃ actions s', (∀ action ∈ actions, action.isCall = false) ∧ run actions s = some s' ∧
      s'.p.threads[i]? = some .waiting ∧ s'.p.io = s.p.io := by
  have within : i < s.p.threads.length := (List.getElem?_eq_some_iff.mp listed).1
  have waits : (s.p.threads.set i .waiting)[i]? = some .waiting := List.getElem?_set_self within
  have once : ∀ action s', action.isCall = false → step action s = some s' →
      s'.p.threads[i]? = some .waiting → s'.p.io = s.p.io →
      ∃ actions s', (∀ action ∈ actions, action.isCall = false) ∧ run actions s = some s' ∧
        s'.p.threads[i]? = some .waiting ∧ s'.p.io = s.p.io := by
    intro action s' free moved waiting io
    exact ⟨[action], s', by simpa using free, run_singleton.trans moved, waiting, io⟩
  cases worker with
  | starting => exact once (.run i) _ rfl (work_eq listed rfl) waits rfl
  | waiting => exact ⟨[], s, by simp, rfl, listed, rfl⟩
  | running task => exact once (.finish i false) _ rfl (work_eq listed rfl) waits rfl
  | handling => exact once (.handled i) _ rfl (work_eq listed rfl) waits rfl
  | exited => exact absurd rfl executing

/-- Then it takes the first task of the queue. -/
theorem worker_takes {queue : List ℕ} (io : s.p.io = { stopped := false, queue := task :: queue })
    (listed : s.p.threads[i]? = some worker) (executing : worker ≠ .exited) :
    ∃ actions s', (∀ action ∈ actions, action.isCall = false) ∧ run actions s = some s' ∧
      s'.p.threads[i]? = some (.running task) ∧ s'.p.io = { stopped := false, queue } := by
  obtain ⟨actions, next, free, ran, waiting, same⟩ := worker_waits listed executing
  have within : i < next.p.threads.length := (List.getElem?_eq_some_iff.mp waiting).1
  let taken : State H := { next with
    p := ({ next.p with io := { next.p.io with queue } } : Impl H).setWorker i (.running task) }
  have takes : step (.take i) next = some taken := work_eq waiting (by simp [same, io])
  refine ⟨actions ++ [.take i], taken, ?_, ?_, List.getElem?_set_self within, ?_⟩
  · intro action among
    rcases List.mem_append.mp among with early | last
    · exact free action early
    · rw [List.mem_singleton.mp last]
      rfl
  · rw [run_append, ran]
    exact run_singleton.trans takes
  · simp [taken, Impl.setWorker, same, io]

/-- It takes the tasks of the queue, one after the other. -/
theorem task_taken {first rest : List ℕ}
    (io : s.p.io = { stopped := false, queue := first ++ task :: rest })
    (listed : s.p.threads[i]? = some worker) (executing : worker ≠ .exited) :
    ∃ actions s', (∀ action ∈ actions, action.isCall = false) ∧ run actions s = some s' ∧
      .running task ∈ s'.p.threads := by
  induction first generalizing s worker with
  | nil =>
    obtain ⟨actions, next, free, ran, running, -⟩ := worker_takes io listed executing
    exact ⟨actions, next, free, ran, List.mem_of_getElem? running⟩
  | cons task' first ih =>
    obtain ⟨actions, next, free, ran, running, io⟩ := worker_takes io listed executing
    obtain ⟨actions', s', free', ran', taken⟩ := ih io running (by simp)
    refine ⟨actions ++ actions', s', ?_, ?_, taken⟩
    · intro action among
      rcases List.mem_append.mp among with early | late
      · exact free action early
      · exact free' action late
    · rw [run_append, ran]
      exact ran'

theorem Serves.of_executing (stopped : s.p.io.stopped = false)
    (length : s.p.threads.length = s.asked)
    (executing : ∀ worker ∈ s.p.threads, worker ≠ .exited) : Serves s where
  stopped := stopped
  length := length
  executing := executing
  served threads task queued := by
    obtain ⟨first, rest, queue⟩ := List.append_of_mem queued
    obtain ⟨worker, listed⟩ : ∃ worker, s.p.threads[0]? = some worker := by
      simpa [← Option.isSome_iff_exists, length] using threads
    have io : s.p.io = { stopped := false, queue := first ++ task :: rest } := by
      rw [← stopped, ← queue]
    exact task_taken io listed (executing worker (List.mem_of_getElem? listed))

/-! ## Which starts are served -/

/-- What a step keeps, unless it is a `start` on a stopped `io_context`. -/
structure Good (s : State H) : Prop where
  sane : Sane s
  stopped : s.p.work = true → s.p.io.stopped = false
  executing : s.p.work = true → .exited ∉ s.p.threads

theorem Good.empty : Good ({} : State H) :=
  ⟨Sane.empty, (Bool.noConfusion ·), (Bool.noConfusion ·)⟩

theorem Good.serves (good : Good s) (running : s.p.isRunning = true) : Serves s :=
  Serves.of_executing (good.stopped running) (good.sane.length running) fun _ listed exited =>
    good.executing running (exited ▸ listed)

theorem Good.of_not_work (sane : Sane s) (work : s.p.work = false) : Good s :=
  ⟨sane, fun running => by simp [work] at running, fun running => by simp [work] at running⟩

theorem Good.start (good : Good s) (idle : s.joining = false) {n : ℕ}
    (unstopped : s.p.isRunning = false → s.p.io.stopped = false) : Good (s.start n) := by
  rcases start_cases good.sane idle n with ⟨-, same⟩ | ⟨work, -, started⟩
  · rwa [same]
  · refine ⟨good.sane.start idle n, fun _ => ?_, fun _ => ?_⟩
    · rw [started]
      exact unstopped work
    · simp [started, List.mem_replicate]

theorem Good.resumeAfterFork (good : Good s) (idle : s.joining = false) :
    Good s.resumeAfterFork := by
  unfold State.resumeAfterFork
  split
  · exact good
  · have fresh := good.sane.fresh s.p.errorCb s.p.taskTraceHandler idle
    exact (Good.of_not_work fresh rfl).start idle fun _ => rfl

theorem Good.works (good : Good s) (works : Works s s') : Good s' := by
  refine ⟨works.sane good.sane, ?_, ?_⟩
  all_goals
    intro running
    have work := works.work ▸ running
    have idle : s.joining = false := by
      cases joining : s.joining with
      | false => rfl
      | true => simp [good.sane.stopping joining] at work
  · exact (works.stopped idle).trans (good.stopped work)
  · intro exited
    rcases works.exited exited with before | stopped
    · exact good.executing work before
    · simp [good.stopped work] at stopped

theorem Good.step (good : Good s) (moved : step action s = some s')
    (unstopped : ∀ n, action = .start n → s.p.isRunning = false → s.p.io.stopped = false) :
    Good s' := by
  have sane := good.sane.step moved
  cases action with
  | start n =>
    obtain ⟨idle, -, rfl⟩ := own_cases moved
    exact good.start idle (unstopped n rfl)
  | stop cancelWork =>
    obtain ⟨-, -, rfl⟩ := own_cases moved
    exact Good.of_not_work sane (by cases cancelWork <;> rfl)
  | stopBeforeFork =>
    obtain ⟨-, -, rfl⟩ := own_cases moved
    obtain ⟨-, same⟩ | ⟨-, stops⟩ := stopBeforeFork_cases s
    · rwa [same]
    · exact Good.of_not_work sane (by rw [stops]; rfl)
  | resumeAfterFork =>
    obtain ⟨idle, -, rfl⟩ := own_cases moved
    exact good.resumeAfterFork idle
  | setErrorHandler cb | setTaskTraceHandler cb =>
    obtain ⟨-, -, rfl⟩ := own_cases moved
    exact ⟨sane, good.stopped, good.executing⟩
  | join =>
    obtain ⟨joining, -, rfl⟩ := join_cases moved
    exact Good.of_not_work sane (good.sane.stopping joining)
  | post | outOfWork | run | take | finish | handled | «return» =>
    exact good.works (step_works moved rfl (by simp))

theorem Good.run (good : Good s) (unstopped : StartsUnstopped actions s)
    (ran : run actions s = some s') : Good s' := by
  induction actions generalizing s with
  | nil =>
    cases ran
    exact good
  | cons action actions ih =>
    obtain ⟨next, moved, ran⟩ := Option.bind_eq_some_iff.mp (run_cons ▸ ran)
    have first : ∀ n, action = .start n → s.p.isRunning = false → s.p.io.stopped = false :=
      fun n starts => unstopped [] n actions s (by rw [starts]; rfl) rfl
    apply ih (Good.step good moved first) _ ran
    intro before n after s'' listed reached
    refine unstopped (action :: before) n after s'' (by rw [listed]; rfl) ?_
    rw [run_cons, moved]
    exact reached

/-- A pool serves its queue in all that a run goes through exactly if no `start` of the run
finds the pool stopped together with its `io_context`. -/
theorem servesAlong_iff (ran : run actions ({} : State H) = some s) :
    ServesAlong actions ↔ StartsUnstopped actions ({} : State H) := by
  constructor
  · rintro serves before n after s' rfl reached work
    rw [run_append, reached] at ran
    obtain ⟨next, moved, -⟩ := Option.bind_eq_some_iff.mp (run_cons ▸ ran)
    obtain ⟨idle, -, rfl⟩ := own_cases moved
    have within : before ++ [.start n] <+: before ++ .start n :: after :=
      ⟨after, by simp⟩
    have reached' : run (before ++ [.start n]) {} = some (s'.start n) := by
      rw [run_append, reached]
      exact run_singleton.trans moved
    rcases start_cases (Sane.empty.run reached) idle n with ⟨running, -⟩ | ⟨-, -, started⟩
    · simp [Impl.isRunning, running] at work
    · have served := serves _ _ within reached' (by rw [started]; rfl)
      simpa [started] using served.stopped
  · rintro unstopped before s' ⟨rest, rfl⟩ reached running
    refine (Good.empty.run ?_ reached).serves running
    rintro first n after s'' rfl
    exact unstopped first n (after ++ rest) s'' (by simp)

/-- Two threads, and a task that is taken. -/
theorem two_threads_serve :
    ServesAlong [.start 2, .post 7, .run 0, .run 1, .take 1, (.setErrorHandler () : Action Unit)] := by
  refine (servesAlong_iff (by rfl)).mpr ?_
  intro before n after s' listed reached work
  cases before with
  | nil =>
    cases reached
    rfl
  | cons first before =>
    have among : Action.start n ∈ before ++ .start n :: after := by simp
    have rest : _ = before ++ .start n :: after := (List.cons.inj listed).2
    rw [← rest] at among
    simp at among

/-- A pool that is started again after `stop` is running, its only thread has returned, and
what is posted stays in the queue. -/
theorem started_again_stopped :
    (run [.start 1, .stop false, .run 0, .outOfWork, .return 0, .join, .start 1, .post 7, .run 0,
      .return 0] ({} : State Unit)).map (fun s => (s.p.isRunning, s.p.io, s.p.threads)) =
        some (true, { stopped := true, queue := [7] }, [.exited]) ∧
    ¬ ServesAlong [.start 1, .stop false, .run 0, .outOfWork, .return 0, .join,
      (.start 1 : Action Unit)] := by
  refine ⟨rfl, fun serves => ?_⟩
  have served := serves _ _ List.prefix_rfl rfl rfl
  exact Bool.noConfusion served.stopped

end Tconcurrent.ThreadPool
