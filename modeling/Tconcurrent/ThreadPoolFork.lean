import Tconcurrent.ThreadPoolInvariant

/-! `stop_before_fork` and `resume_after_fork`.

A pool with threads is stopped and started with as many of them.  A pool without threads is
taken for a stopped one, so it is running afterwards, with the threads that were saved. -/
namespace Tconcurrent.ThreadPool

variable {H : Type} {s s' s₀ : State H} {k : ℕ} {action call : Action H}
  {actions calls : List (Action H)}

/-- What the owner of the pool calls in a run, in order. -/
def callsOf (actions : List (Action H)) : List (Action H) := actions.filter Action.isCall

/-- What a fork must not change: whether the pool is running, the number of its threads and
its handlers. -/
def look (s : State H) : Bool × ℕ × Option H × Option H :=
  (s.p.isRunning, s.p.threads.length, s.p.errorCb, s.p.taskTraceHandler)

/-- The calls around a fork. -/
def forkCalls (k : ℕ) : List (Action H) :=
  List.replicate (k + 1) .stopBeforeFork ++ [.resumeAfterFork]

/-- After the calls around a fork the pool is as it was before them. -/
def RoundTrips (s : State H) : Prop :=
  ∀ k actions s', callsOf actions = forkCalls k → run actions s = some s' → look s' = look s

/-- `resume_after_fork` changes nothing. -/
def ResumeIdles (s : State H) : Prop := ∀ s', step .resumeAfterFork s = some s' → s' = s

/-- What is expected of a pool after a run, unless the run ends between `stop_before_fork`
and `resume_after_fork`. -/
def Restores (actions : List (Action H)) (s : State H) : Prop :=
  (callsOf actions).getLast? ≠ some .stopBeforeFork → RoundTrips s ∧ ResumeIdles s

/-! ## Runs with few calls -/

theorem callsOf_cons_of_not_isCall (free : action.isCall = false) :
    callsOf (action :: actions) = callsOf actions :=
  List.filter_cons_of_neg (by simp [free])

/-- A run up to the next call, that call and the rest. -/
theorem run_call_cases (listed : callsOf actions = call :: calls) (ran : run actions s = some s') :
    ∃ before after s₁ s₂, callsOf before = [] ∧ run before s = some s₁ ∧
      step call s₁ = some s₂ ∧ run after s₂ = some s' ∧ callsOf after = calls := by
  obtain ⟨before, after, rfl, quiet, -, rest⟩ := List.filter_eq_cons_iff.mp listed
  rw [run_append] at ran
  obtain ⟨s₁, first, ran⟩ := Option.bind_eq_some_iff.mp ran
  obtain ⟨s₂, moved, last⟩ := Option.bind_eq_some_iff.mp ran
  exact ⟨before, after, s₁, s₂, List.filter_eq_nil_iff.mpr quiet, first, moved, last, rest⟩

/-- What every step that is no call keeps. -/
theorem run_quiet {Kept : State H → Prop} (quiet : callsOf actions = [])
    (keeps : ∀ action s s', action.isCall = false → step action s = some s' → Kept s → Kept s')
    (kept : Kept s) (ran : run actions s = some s') : Kept s' := by
  induction actions generalizing s with
  | nil =>
    cases ran
    exact kept
  | cons action actions ih =>
    have free : ∀ action' ∈ action :: actions, action'.isCall = false := by
      simpa [callsOf, List.filter_eq_nil_iff] using quiet
    have first := free action List.mem_cons_self
    obtain ⟨next, moved, ran⟩ := Option.bind_eq_some_iff.mp (run_cons ▸ ran)
    exact ih (callsOf_cons_of_not_isCall first ▸ quiet) (keeps action s next first moved kept) ran

/-! ## Nothing to do -/

/-- While no call is unfinished, the pool looks as it did, and has saved as many threads. -/
structure Same (s₀ s : State H) : Prop where
  idle : s.joining = false
  look : look s = look s₀
  saved : s.p.numThreadsBeforeFork = s₀.p.numThreadsBeforeFork

theorem Same.step (same : Same s₀ s) (free : action.isCall = false)
    (moved : step action s = some s') : Same s₀ s' := by
  have apart : action ≠ .join := by
    rintro rfl
    have joining := (join_cases moved).1
    rw [same.idle] at joining
    cases joining
  have works := step_works moved free apart
  have looks : ThreadPool.look s' = ThreadPool.look s := by
    simp [ThreadPool.look, Impl.isRunning, works.work, works.length, works.errorCb,
      works.taskTraceHandler]
  exact ⟨works.joining.trans same.idle, looks.trans same.look, works.saved.trans same.saved⟩

theorem Same.runs (same : Same s₀ s) (quiet : callsOf actions = [])
    (ran : run actions s = some s') : Same s₀ s' :=
  run_quiet quiet (fun _ _ _ free moved same => Same.step same free moved) same ran

theorem Same.threads (same : Same s₀ s) (threads : s₀.p.threads ≠ []) : s.p.threads ≠ [] := by
  have length : s.p.threads.length = s₀.p.threads.length := congrArg (·.2.1) same.look
  rw [← List.length_pos_iff] at threads ⊢
  omega

/-- When a pool with threads has saved some already, none of the calls does anything. -/
theorem Same.calls_idle (same : Same s₀ s) (saved : s₀.p.numThreadsBeforeFork ≠ 0)
    (threads : s₀.p.threads ≠ []) (forks : ∀ call ∈ callsOf actions,
      call = .stopBeforeFork ∨ call = .resumeAfterFork) (ran : run actions s = some s') :
    Same s₀ s' := by
  generalize listed : callsOf actions = calls at forks
  induction calls generalizing actions s with
  | nil => exact same.runs listed ran
  | cons call calls ih =>
    obtain ⟨before, after, s₁, s₂, quiet, first, moved, last, rest⟩ := run_call_cases listed ran
    have same' := same.runs quiet first
    have idles : s₂ = s₁ := by
      rcases forks call List.mem_cons_self with rfl | rfl
      · obtain ⟨-, -, rfl⟩ := own_cases moved
        exact if_pos (same'.saved ▸ saved)
      · obtain ⟨-, -, rfl⟩ := own_cases moved
        exact if_pos (same'.threads threads)
    subst idles
    exact ih same' last rest fun call among => forks call (List.mem_cons_of_mem _ among)

/-! ## Stopped and started again -/

/-- After the first `stop_before_fork`. -/
structure Stopped (s₀ s : State H) : Prop where
  sane : Sane s
  work : s.p.work = false
  saved : s.p.numThreadsBeforeFork = s₀.p.threads.length
  threads : s.p.threads.length ≤ s₀.p.threads.length
  errorCb : s.p.errorCb = s₀.p.errorCb
  taskTraceHandler : s.p.taskTraceHandler = s₀.p.taskTraceHandler

theorem Stopped.step (stopped : Stopped s₀ s) (free : action.isCall = false)
    (moved : step action s = some s') : Stopped s₀ s' := by
  have sane := stopped.sane.step moved
  by_cases apart : action = .join
  · subst apart
    obtain ⟨-, -, rfl⟩ := join_cases moved
    exact ⟨sane, stopped.work, stopped.saved, Nat.zero_le _, stopped.errorCb,
      stopped.taskTraceHandler⟩
  · have works := step_works moved free apart
    exact ⟨sane, works.work.trans stopped.work, works.saved.trans stopped.saved,
      Nat.le_trans (Nat.le_of_eq works.length) stopped.threads, works.errorCb.trans stopped.errorCb,
      works.taskTraceHandler.trans stopped.taskTraceHandler⟩

theorem Stopped.runs (stopped : Stopped s₀ s) (quiet : callsOf actions = [])
    (ran : run actions s = some s') : Stopped s₀ s' :=
  run_quiet quiet (fun _ _ _ free moved stopped => Stopped.step stopped free moved) stopped ran

theorem Stopped.stopBeforeFork (stopped : Stopped s₀ s) (idle : s.joining = false) :
    Stopped s₀ s.stopBeforeFork := by
  have sane := stopped.sane.stopBeforeFork
  obtain ⟨-, same⟩ | ⟨saved, stops⟩ := stopBeforeFork_cases s
  · rwa [same]
  · have none := stopped.sane.idle stopped.work idle
    have zero : s₀.p.threads.length = 0 := stopped.saved.symm.trans saved
    rw [stops] at sane ⊢
    exact ⟨sane, rfl, by simp [State.stop, Impl.stop, none, zero], stopped.threads,
      stopped.errorCb, stopped.taskTraceHandler⟩

/-- A fresh pool with as many threads and the handlers of the one before. -/
theorem resume_fresh (none : s.p.threads = []) : s.resumeAfterFork = { s with
    p := {
      work := true
      threads := List.replicate s.p.numThreadsBeforeFork .starting
      errorCb := s.p.errorCb
      taskTraceHandler := s.p.taskTraceHandler }
    asked := s.p.numThreadsBeforeFork } := by
  rw [State.resumeAfterFork, if_neg (by simpa using none)]
  rfl

theorem Stopped.look_resumeAfterFork (stopped : Stopped s₀ s) (idle : s.joining = false)
    (running : s₀.p.work = true) : look s.resumeAfterFork = look s₀ := by
  rw [resume_fresh (stopped.sane.idle stopped.work idle)]
  simp [look, Impl.isRunning, running, stopped.saved, stopped.errorCb, stopped.taskTraceHandler]

theorem Stopped.look_calls (stopped : Stopped s₀ s) (running : s₀.p.work = true)
    (listed : callsOf actions = List.replicate k .stopBeforeFork ++ [.resumeAfterFork])
    (ran : run actions s = some s') : look s' = look s₀ := by
  induction k generalizing actions s with
  | zero =>
    obtain ⟨before, after, s₁, s₂, quiet, first, moved, last, rest⟩ := run_call_cases listed ran
    have stopped' := stopped.runs quiet first
    obtain ⟨idle, -, rfl⟩ := own_cases moved
    have resumed := stopped'.look_resumeAfterFork idle running
    have fresh := resume_fresh (stopped'.sane.idle stopped'.work idle)
    have same : Same s₁.resumeAfterFork s₁.resumeAfterFork := ⟨by rw [fresh]; exact idle, rfl, rfl⟩
    exact (same.runs rest last).look.trans resumed
  | succ k ih =>
    obtain ⟨before, after, s₁, s₂, quiet, first, moved, last, rest⟩ := run_call_cases listed ran
    have stopped' := stopped.runs quiet first
    obtain ⟨idle, -, rfl⟩ := own_cases moved
    exact ih (stopped'.stopBeforeFork idle) rest last

/-- The first `stop_before_fork` of a pool that has saved nothing. -/
theorem Same.stopBeforeFork (same : Same s₀ s) (sane : Sane s)
    (saved : s₀.p.numThreadsBeforeFork = 0) : Stopped s₀ s.stopBeforeFork := by
  have length : s.p.threads.length = s₀.p.threads.length := congrArg (·.2.1) same.look
  have errorCb : s.p.errorCb = s₀.p.errorCb := congrArg (·.2.2.1) same.look
  have taskTraceHandler : s.p.taskTraceHandler = s₀.p.taskTraceHandler :=
    congrArg (·.2.2.2) same.look
  have sane := sane.stopBeforeFork
  obtain ⟨before, -⟩ | ⟨-, stops⟩ := stopBeforeFork_cases s
  · exact absurd (same.saved.trans saved) before
  rw [stops] at sane ⊢
  exact ⟨sane, rfl, length, Nat.le_of_eq length, errorCb, taskTraceHandler⟩

/-! ## The round trip -/

theorem roundTrips_of_threads (sane : Sane s) (idle : s.joining = false) (work : s.p.work = true)
    (fresh : s.p.threads = [] → s.p.numThreadsBeforeFork = 0) : RoundTrips s := by
  intro k actions s' listed ran
  have same : Same s s := ⟨idle, rfl, rfl⟩
  by_cases saved : s.p.numThreadsBeforeFork = 0
  · obtain ⟨before, after, s₁, s₂, quiet, first, moved, last, rest⟩ := run_call_cases listed ran
    have same' := same.runs quiet first
    obtain ⟨-, -, rfl⟩ := own_cases moved
    have stopped := same'.stopBeforeFork (sane.run first) saved
    exact stopped.look_calls work rest last
  · have threads : s.p.threads ≠ [] := fun none => saved (fresh none)
    have forks : ∀ call ∈ callsOf actions, call = .stopBeforeFork ∨ call = .resumeAfterFork := by
      intro call among
      rw [listed] at among
      simpa [forkCalls] using among
    exact (same.calls_idle saved threads forks ran).look

theorem work_of_threads (sane : Sane s) (idle : s.joining = false) (threads : s.p.threads ≠ []) :
    s.p.work = true := by
  cases work : s.p.work with
  | true => rfl
  | false => exact absurd (sane.idle work idle) threads

/-- The pool has a thread, or it was started without threads, saved none and has an
`io_context` that was not used. -/
def Resumable (s : State H) : Prop :=
  s.p.threads ≠ [] ∨ (s.p.work = true ∧ s.p.numThreadsBeforeFork = 0 ∧ s.p.io = {})

/-- `resume_after_fork` changes nothing exactly then. -/
theorem resumeIdles_iff (sane : Sane s) (idle : s.joining = false) :
    ResumeIdles s ↔ Resumable s := by
  have moves : step .resumeAfterFork s = some s.resumeAfterFork := by
    simp [step, State.own, idle, sane.kept]
  constructor
  · intro idles
    have same := idles s.resumeAfterFork moves
    by_cases threads : s.p.threads = []
    · rw [resume_fresh threads] at same
      have work : true = s.p.work := congrArg (·.p.work) same
      have io : {} = s.p.io := congrArg (·.p.io) same
      have saved : 0 = s.p.numThreadsBeforeFork := congrArg (·.p.numThreadsBeforeFork) same
      exact .inr ⟨work.symm, saved.symm, io.symm⟩
    · exact .inl threads
  · rintro resumable s' moved
    obtain ⟨-, -, rfl⟩ := own_cases moved
    by_cases threads : s.p.threads = []
    · obtain ⟨work, saved, io⟩ := resumable.resolve_left (by simpa using threads)
      have running : s.p.numRunningThreads = 0 := by simpa [threads] using sane.running
      have asked : s.asked = 0 := by simpa [threads] using (sane.length work).symm
      rw [resume_fresh threads]
      obtain ⟨⟨io', work', threads', numRunningThreads', saved', errorCb', handler'⟩, joining',
        released', asked'⟩ := s
      simp only at work saved io running asked threads
      subst work saved io running asked threads
      rfl
    · exact if_pos threads

theorem Resumable.roundTrips (resumable : Resumable s) (sane : Sane s) (idle : s.joining = false) :
    RoundTrips s := by
  rcases resumable with threads | ⟨work, saved, -⟩
  · exact roundTrips_of_threads sane idle (work_of_threads sane idle threads)
      fun none => absurd none threads
  · exact roundTrips_of_threads sane idle work fun _ => saved

/-- `stop_before_fork` and `resume_after_fork` restore the pools that have a thread, and of
those without threads only the ones that are running and have nothing to lose. -/
theorem restores_iff (reached : run actions ({} : State H) = some s) (idle : s.joining = false) :
    Restores actions s ↔ (callsOf actions).getLast? = some .stopBeforeFork ∨ Resumable s := by
  have sane := Sane.empty.run reached
  constructor
  · intro restores
    by_cases forking : (callsOf actions).getLast? = some .stopBeforeFork
    · exact .inl forking
    · exact .inr ((resumeIdles_iff sane idle).mp (restores forking).2)
  · rintro (forking | resumable) apart
    · exact absurd forking apart
    · exact ⟨resumable.roundTrips sane idle, (resumeIdles_iff sane idle).mpr resumable⟩

/-- Two threads, before and after a first fork. -/
theorem restores_two_threads :
    Restores [.start 2, .run 1, .stopBeforeFork, .run 0, .return 1, .return 0, .join,
      .resumeAfterFork] ({
        p := { work := true, threads := [.starting, .starting] }, asked := 2 } : State Unit) :=
  (restores_iff (by decide) rfl).mpr (.inr (.inl (by decide)))

/-- A pool that was never started is running after a fork, without threads, so that it can no
longer be started. -/
theorem fork_starts_pool :
    (run [.stopBeforeFork, .join, .resumeAfterFork] ({} : State Unit)).map (fun s =>
      (s.p.isRunning, s.p.threads, s.p.start 2)) =
        some (true, [], .error "the threadpool is already running") ∧
    ¬ Restores [] ({} : State Unit) := by
  refine ⟨rfl, fun restores => ?_⟩
  have trips := (restores (by simp [callsOf])).1 0 [.stopBeforeFork, .join, .resumeAfterFork] _
    rfl rfl
  exact Bool.noConfusion (congrArg (·.1) trips)

end Tconcurrent.ThreadPool
