import Tconcurrent.ThreadPool

/-! What holds of a `thread_pool` after every call of it and after every step of a worker.

A pool whose `stop` is over has no threads, and a running pool has those that it was started
with.  The count of running threads is that of the workers, so the pool is never released. -/
namespace Tconcurrent.ThreadPool

variable {H : Type} {s s' : State H} {i n : ℕ} {action : Action H} {actions : List (Action H)}
  {worker worker' : Worker}

/-! ## What one step does -/

/-- Whether a thread is between `++_num_running_threads` and `--_num_running_threads`. -/
def Worker.counted : Worker → Bool
  | .starting | .exited => false
  | .waiting | .running _ | .handling => true

/-- What workers and those who post do to a pool. -/
structure Works (s s' : State H) : Prop where
  joining : s'.joining = s.joining
  released : s'.released = s.released
  asked : s'.asked = s.asked
  work : s'.p.work = s.p.work
  length : s'.p.threads.length = s.p.threads.length
  saved : s'.p.numThreadsBeforeFork = s.p.numThreadsBeforeFork
  errorCb : s'.p.errorCb = s.p.errorCb
  taskTraceHandler : s'.p.taskTraceHandler = s.p.taskTraceHandler
  counts : s.p.numRunningThreads = s.p.threads.countP Worker.counted →
    s'.p.numRunningThreads = s'.p.threads.countP Worker.counted
  /-- The `io_context` is stopped only while `stop` waits for the workers. -/
  stopped : s.joining = false → s'.p.io.stopped = s.p.io.stopped
  /-- A thread that returns has found it stopped. -/
  exited : .exited ∈ s'.p.threads → .exited ∈ s.p.threads ∨ s.p.io.stopped = true

/-- What the owner of the pool calls. -/
def Action.isCall : Action H → Bool
  | .start _ | .stop _ | .stopBeforeFork | .resumeAfterFork => true
  | .setErrorHandler _ | .setTaskTraceHandler _ => true
  | .join | .post _ | .outOfWork | .run _ | .take _ | .finish _ _ | .handled _ | .return _ => false

theorem own_cases {next : State H} (own : s.own next = some s') :
    s.joining = false ∧ s.released = false ∧ s' = next := by
  unfold State.own at own
  split at own
  · cases own
  · rename_i free
    cases own
    simpa using free

theorem join_cases (join : s.join = some s') :
    s.joining = true ∧ (∀ worker ∈ s.p.threads, worker = .exited) ∧
      s' = { s with
        p := { s.p with threads := [] }
        joining := false, released := decide (s.p.numRunningThreads ≠ 0) } := by
  unfold State.join at join
  split at join
  · rename_i ended
    cases join
    exact ⟨ended.1, ended.2, rfl⟩
  · cases join

theorem work_cases {next : Worker → Option (Impl H)} (work : s.work i next = some s') :
    ∃ worker p, s.p.threads[i]? = some worker ∧ next worker = some p ∧ s' = { s with p } := by
  unfold State.work at work
  obtain ⟨p, found, rfl⟩ := Option.map_eq_some_iff.mp work
  obtain ⟨worker, listed, next⟩ := Option.bind_eq_some_iff.mp found
  exact ⟨worker, p, listed, next, rfl⟩

theorem countP_set {threads : List Worker} (worker' : Worker)
    (listed : threads[i]? = some worker) :
    (threads.set i worker').countP Worker.counted + worker.counted.toNat =
      threads.countP Worker.counted + worker'.counted.toNat := by
  induction threads generalizing i with
  | nil => cases listed
  | cons first threads ih =>
    cases i with
    | zero =>
      obtain rfl : first = worker := by simpa using listed
      rw [List.set_cons_zero, List.countP_cons, List.countP_cons]
      cases first.counted <;> cases worker'.counted <;> simp
    | succ i =>
      have rest := ih (i := i) (by simpa using listed)
      rw [List.set_cons_succ, List.countP_cons, List.countP_cons]
      omega

/-- A worker goes from one place in `run_thread` to another. -/
theorem works_setWorker {io : IoContext} {numRunningThreads : ℕ}
    (listed : s.p.threads[i]? = some worker) (stopped : io.stopped = s.p.io.stopped)
    (counts : worker.counted.toNat ≤ s.p.numRunningThreads →
      numRunningThreads + worker.counted.toNat = s.p.numRunningThreads + worker'.counted.toNat)
    (exits : worker' = .exited → s.p.io.stopped = true) :
    Works s { s with p := ({ s.p with io, numRunningThreads } : Impl H).setWorker i worker' } where
  joining := rfl
  released := rfl
  asked := rfl
  work := rfl
  length := List.length_set
  saved := rfl
  errorCb := rfl
  taskTraceHandler := rfl
  counts counts' := by
    have moved := countP_set worker' listed
    have within : worker.counted.toNat ≤ s.p.threads.countP Worker.counted := by
      cases counted : worker.counted with
      | false => exact Nat.zero_le _
      | true => exact List.countP_pos_iff.mpr ⟨worker, List.mem_of_getElem? listed, counted⟩
    have changed := counts (counts' ▸ within)
    show numRunningThreads = (s.p.threads.set i worker').countP Worker.counted
    omega
  stopped _ := stopped
  exited found := by
    rcases List.mem_or_eq_of_mem_set found with old | rfl
    · exact .inl old
    · exact .inr (exits rfl)

theorem works_io {io : IoContext} (stopped : s.joining = false → io.stopped = s.p.io.stopped) :
    Works s { s with p := { s.p with io } } :=
  ⟨rfl, rfl, rfl, rfl, rfl, rfl, rfl, rfl, id, stopped, .inl⟩

/-- All that is not called by the owner, except the end of `stop`. -/
theorem step_works (moved : step action s = some s') (free : action.isCall = false)
    (apart : action ≠ .join) : Works s s' := by
  cases action with
  | start | stop | stopBeforeFork | resumeAfterFork | setErrorHandler | setTaskTraceHandler =>
    cases free
  | join => exact absurd rfl apart
  | post task =>
    cases moved
    exact works_io fun _ => rfl
  | outOfWork =>
    simp only [step] at moved
    split at moved
    · rename_i ended
      cases moved
      exact works_io fun idle => by simp [ended.1] at idle
    · cases moved
  | run i =>
    obtain ⟨worker, p, listed, next, rfl⟩ := work_cases moved
    cases worker <;> cases next
    exact works_setWorker listed rfl (by simp [Worker.counted]) (by simp)
  | take i =>
    obtain ⟨worker, p, listed, next, rfl⟩ := work_cases moved
    cases worker <;> try cases next
    simp only at next
    split at next
    · rename_i task queue stopped waiting
      cases next
      exact works_setWorker listed rfl (fun _ => rfl) (by simp)
    · cases next
  | finish i threw =>
    obtain ⟨worker, p, listed, next, rfl⟩ := work_cases moved
    cases worker <;> cases next
    cases threw <;> exact works_setWorker listed rfl (fun _ => rfl) (by simp)
  | handled i =>
    obtain ⟨worker, p, listed, next, rfl⟩ := work_cases moved
    cases worker <;> cases next
    exact works_setWorker listed rfl (fun _ => rfl) (by simp)
  | «return» i =>
    obtain ⟨worker, p, listed, next, rfl⟩ := work_cases moved
    cases worker <;> try cases next
    simp only at next
    split at next
    · rename_i stopped
      cases next
      exact works_setWorker listed rfl (fun counted => Nat.sub_add_cancel counted) fun _ => stopped
    · cases next

/-! ## What holds after every step -/

structure Sane (s : State H) : Prop where
  /-- There are threads only while the pool is running or `stop` waits for them. -/
  idle : s.p.work = false → s.joining = false → s.p.threads = []
  stopping : s.joining = true → s.p.work = false
  length : s.p.work = true → s.p.threads.length = s.asked
  running : s.p.numRunningThreads = s.p.threads.countP Worker.counted
  kept : s.released = false

theorem Sane.empty : Sane ({} : State H) :=
  ⟨fun _ _ => rfl, (Bool.noConfusion ·), (Bool.noConfusion ·), rfl, rfl⟩

theorem Works.sane (works : Works s s') (sane : Sane s) : Sane s' where
  idle work joining := by
    have none := sane.idle (works.work ▸ work) (works.joining ▸ joining)
    exact List.eq_nil_of_length_eq_zero (by simpa [none] using works.length)
  stopping joining := works.work ▸ sane.stopping (works.joining ▸ joining)
  length work := by
    rw [works.length, works.asked]
    exact sane.length (works.work ▸ work)
  running := works.counts sane.running
  kept := works.released.trans sane.kept

theorem Sane.join (sane : Sane s) (join : s.join = some s') : Sane s' := by
  obtain ⟨joining, ended, rfl⟩ := join_cases join
  have none : s.p.threads.countP Worker.counted = 0 := by
    apply List.countP_eq_zero.mpr
    intro worker listed
    simp [ended worker listed, Worker.counted]
  have stopped := sane.stopping joining
  have running : s.p.numRunningThreads = 0 := sane.running.trans none
  exact ⟨fun _ _ => rfl, (Bool.noConfusion ·), fun work => by simp [stopped] at work,
    running, by simp [running]⟩

/-- A pool that is started had no threads. -/
theorem start_cases (sane : Sane s) (idle : s.joining = false) (n : ℕ) :
    (s.p.work = true ∧ s.start n = s) ∨ (s.p.work = false ∧ s.p.threads = [] ∧
      s.start n = { s with
        p := { s.p with work := true, threads := List.replicate n .starting }, asked := n }) := by
  cases work : s.p.work with
  | true => exact .inl ⟨rfl, by simp [State.start, Impl.start, work]⟩
  | false =>
    have none := sane.idle work idle
    exact .inr ⟨rfl, none, by simp [State.start, Impl.start, work, none]⟩

theorem Sane.start (sane : Sane s) (idle : s.joining = false) (n : ℕ) : Sane (s.start n) := by
  rcases start_cases sane idle n with ⟨-, same⟩ | ⟨-, none, started⟩
  · rwa [same]
  · have uncounted : (List.replicate n Worker.starting).countP Worker.counted = 0 := by
      simp [Worker.counted]
    have running := sane.running
    rw [none] at running
    rw [started]
    exact ⟨(Bool.noConfusion ·), fun joining => by simp [idle] at joining,
      fun _ => List.length_replicate, running.trans uncounted.symm, sane.kept⟩

theorem Sane.stop (sane : Sane s) (cancelWork : Bool) : Sane (s.stop cancelWork) := by
  cases cancelWork <;>
  exact ⟨fun _ => (Bool.noConfusion ·), fun _ => rfl, (Bool.noConfusion ·),
    sane.running, sane.kept⟩

/-- The first `stop_before_fork` stops the pool, and the next ones do nothing. -/
theorem stopBeforeFork_cases (s : State H) :
    (s.p.numThreadsBeforeFork ≠ 0 ∧ s.stopBeforeFork = s) ∨
    (s.p.numThreadsBeforeFork = 0 ∧ s.stopBeforeFork = ({ s with
      p := { s.p with numThreadsBeforeFork := s.p.threads.length } } : State H).stop true) := by
  by_cases saved : s.p.numThreadsBeforeFork ≠ 0
  · exact .inl ⟨saved, if_pos saved⟩
  · exact .inr ⟨by simpa using saved, if_neg saved⟩

theorem Sane.stopBeforeFork (sane : Sane s) : Sane s.stopBeforeFork := by
  obtain ⟨-, same⟩ | ⟨-, stops⟩ := stopBeforeFork_cases s
  · rwa [same]
  · rw [stops]
    refine Sane.stop ?_ true
    exact ⟨sane.idle, sane.stopping, sane.length, sane.running, sane.kept⟩

/-- A fresh pool with the handlers of the one before. -/
theorem Sane.fresh (sane : Sane s) (errorCb taskTraceHandler : Option H)
    (idle : s.joining = false) : Sane { s with p := { errorCb, taskTraceHandler } } :=
  ⟨fun _ _ => rfl, fun joining => by simp [idle] at joining, (Bool.noConfusion ·), rfl,
    sane.kept⟩

theorem Sane.resumeAfterFork (sane : Sane s) (idle : s.joining = false) :
    Sane s.resumeAfterFork := by
  unfold State.resumeAfterFork
  split
  · exact sane
  · exact (sane.fresh s.p.errorCb s.p.taskTraceHandler idle).start idle s.p.numThreadsBeforeFork

theorem Sane.step (sane : Sane s) (moved : step action s = some s') : Sane s' := by
  cases action with
  | start n =>
    obtain ⟨idle, -, rfl⟩ := own_cases moved
    exact sane.start idle n
  | stop cancelWork =>
    obtain ⟨-, -, rfl⟩ := own_cases moved
    exact sane.stop cancelWork
  | stopBeforeFork =>
    obtain ⟨-, -, rfl⟩ := own_cases moved
    exact sane.stopBeforeFork
  | resumeAfterFork =>
    obtain ⟨idle, -, rfl⟩ := own_cases moved
    exact sane.resumeAfterFork idle
  | setErrorHandler cb | setTaskTraceHandler cb =>
    obtain ⟨-, -, rfl⟩ := own_cases moved
    exact ⟨sane.idle, sane.stopping, sane.length, sane.running, sane.kept⟩
  | join => exact sane.join moved
  | post | outOfWork | run | take | finish | handled | «return» =>
    exact (step_works moved rfl (by simp)).sane sane

/-! ## Runs -/

theorem run_cons : run (action :: actions) s = (step action s).bind (run actions) := rfl

theorem run_singleton : run [action] s = step action s := by simp [run]

theorem run_append {actions' : List (Action H)} :
    run (actions ++ actions') s = (run actions s).bind (run actions') := List.foldlM_append

theorem Sane.run (sane : Sane s) (ran : run actions s = some s') : Sane s' := by
  induction actions generalizing s with
  | nil =>
    cases ran
    exact sane
  | cons action actions ih =>
    obtain ⟨next, moved, ran⟩ := Option.bind_eq_some_iff.mp (run_cons ▸ ran)
    exact ih (sane.step moved) ran

end Tconcurrent.ThreadPool
