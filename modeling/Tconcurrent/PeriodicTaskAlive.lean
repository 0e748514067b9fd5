import Tconcurrent.PeriodicTaskSafety

/-! A running task has a chain that will call the callback.

`do_call` ignores an `operation_canceled` of the callback, which is right once
`stop` was called: a callback that ends so by itself leaves a task that is
running and has no chain. -/
namespace Tconcurrent.PeriodicTask
open Interleaving Builtins

variable {s s' : State} {k : ℕ} {phase : Phase} {r : VoidResult} {threads : ℕ}
  {config : Config State Unit}

/-- A running task has a chain, which is not cancelled. -/
structure Lively (s : State) : Prop where
  alive : s.state = .running → s.alive s.count = true
  uncancelled : s.state = .running → (s.chains s.count).isCancelRequested = false

theorem Lively.of_rests (rests : s.state ≠ .running) : Lively s where
  alive running := absurd running rests
  uncancelled running := absurd running rests

/-- Whatever is no chain, and does not set the task running. -/
theorem Lively.of_same (lively : Lively s) (count : s'.count = s.count)
    (chains : s'.chains = s.chains) (running : s'.state = .running → s.state = .running) :
    Lively s' where
  alive now := by
    rw [State.alive, chains, count]
    exact lively.alive (running now)
  uncancelled now := by
    rw [chains, count]
    exact lively.uncancelled (running now)

theorem Lively.setPhase (lively : Lively s)
    (keeps : s.state = .running → k = s.count → phase.alive = true) :
    Lively (s.setPhase k phase) := by
  constructor
  · intro running
    by_cases same : s.count = k
    · change (s.setPhase k phase).alive s.count = true
      rw [same, State.alive_setPhase_self]
      exact keeps running same.symm
    · change (s.setPhase k phase).alive s.count = true
      rw [State.alive_setPhase_ne same]
      exact lively.alive running
  · intro running
    have before := lively.uncancelled running
    by_cases same : s.count = k
    · subst same
      simpa [State.setPhase] using before
    · simpa [State.setPhase, same] using before

theorem Lively.newChain (phase : Phase) (alive : phase.alive = true) :
    Lively (s.newChain phase) := by
  constructor
  · intro _
    exact State.alive_newChain_self.trans alive
  · intro _
    simp [State.newChain]

/-- `reschedule` starts a timer unless the task is stopping. -/
theorem lively_reschedule (active : s.state ≠ .stopped) : Lively (reschedule s) := by
  rw [reschedule_of active]
  split
  · rename_i stopping
    exact .of_rests (by simp [stopping])
  · exact .newChain .armed rfl

theorem lively_continueCall (active : s.state ≠ .stopped)
    (canceled : r = .exception .operationCanceled → s.state ≠ .running) :
    Lively (continueCall k r s) := by
  cases r with
  | value => exact lively_reschedule active
  | exception e =>
    cases e with
    | operationCanceled => exact .of_rests (canceled rfl)
    | brokenPromise => exact .of_rests nofun
    | user code => exact .of_rests nofun

theorem lively_start {opt : StartOption} (lively : Lively s) (ran : start opt s = .ok s') :
    Lively s' := by
  unfold start at ran
  split at ran
  · cases ran
  · split at ran
    · cases ran
    · cases ran
      exact lively
    · split at ran
      · cases ran
        exact lively_reschedule nofun
      · cases ran
        exact .newChain .posted rfl

theorem runStop_running {quiet : Bool} (running : (runStop quiet s).state = .running) :
    s.state = .running := by
  cases quiet with
  | true => exact running
  | false => cases running

theorem runStop_same {quiet : Bool} :
    (runStop quiet s).count = s.count ∧ (runStop quiet s).chains = s.chains := by
  cases quiet with
  | true => exact ⟨rfl, rfl⟩
  | false =>
    have count : (check s (s.state ≠ .running)).count = s.count := check_keeps rfl
    have chains : (check s (s.state ≠ .running)).chains = s.chains := check_keeps rfl
    exact ⟨count, chains⟩

/-- After a call of `stop` the task is not running. -/
theorem stop_rests {answer : Option VoidResult} (sane : Sane s) :
    (stop answer s).state ≠ .running := by
  have then_rests : ∀ {quiet : Bool} {s : State}, s.state ≠ .running →
      (thenStop quiet s).state ≠ .running := by
    intro quiet s rests running
    unfold thenStop at running
    split at running
    · exact rests (runStop_running running)
    · exact rests running
  unfold stop
  split
  · rename_i stopped
    simp [stopped]
  · rename_i stopping
    exact then_rests (by simp [stopping])
  · rename_i state
    apply then_rests
    rw [check_of (sane.valid state)]
    have stopping : Sane { s with state := .stopping } := sane.stopping
    exact (stopping.requestCancel _ rfl).2

/-- The callback ends with `operation_canceled` only after `stop` was called, and
no `start` meets a stale continuation of `stop`. -/
def EndsWhenStopped (s : State) (call : Unit) (a : Action) : Prop :=
  StopsRan s call a ∧
    ((∃ k, a = .returnFuture k (some (.exception .operationCanceled)) ∨
      a = .continueCall k ∧ (s.chains k).phase = .resolved (.exception .operationCanceled)) →
        s.state ≠ .running)

/-- One step keeps a running task alive. -/
theorem Lively.step {a : Action} (sane : Sane s) (lively : Lively s)
    (allowed : EndsWhenStopped s () a) (ran : step a s = some s') : Lively s' := by
  have active : ∀ k, s.alive k = true → s.state ≠ .stopped := by
    intro k alive stopped
    rw [sane.once k alive, sane.idle stopped] at alive
    cases alive
  cases a with
  | setCallback =>
    cases ran
    exact lively.of_same rfl rfl id
  | start opt =>
    simp only [PeriodicTask.step] at ran
    split at ran
    · rename_i begun
      cases ran
      exact lively_start lively begun
    · cases ran
      exact lively
  | stop answer =>
    cases ran
    exact .of_rests (stop_rests sane)
  | andThen k =>
    obtain ⟨phase, same⟩ := Option.ite_none_right_eq_some.mp ran
    cases same
    unfold PeriodicTask.andThen
    split
    · rename_i cancelled
      apply lively.setPhase
      rintro running rfl
      rw [lively.uncancelled running] at cancelled
      cases cancelled
    · exact lively.setPhase fun _ _ => rfl
  | throwException k =>
    obtain ⟨phase, same⟩ := Option.ite_none_right_eq_some.mp ran
    cases same
    apply Lively.of_rests
    intro running
    cases running
  | returnFuture k resolved =>
    obtain ⟨phase, same⟩ := Option.ite_none_right_eq_some.mp ran
    cases same
    cases resolved with
    | none => exact lively.setPhase fun _ _ => rfl
    | some r =>
      apply lively_continueCall (active k (by simp [State.alive, phase, Phase.alive]))
      rintro rfl
      exact allowed.2 ⟨k, Or.inl rfl⟩
  | continueCall k =>
    simp only [PeriodicTask.step] at ran
    split at ran
    · rename_i r phase
      cases ran
      apply lively_continueCall (active k (by simp [State.alive, phase, Phase.alive]))
      rintro rfl
      exact allowed.2 ⟨k, Or.inr ⟨rfl, phase⟩⟩
    · cases ran
  | resolve k =>
    obtain ⟨phase, same⟩ := Option.ite_none_right_eq_some.mp ran
    cases same
    apply lively.setPhase
    rintro running rfl
    have alive := lively.alive running
    simp [State.alive, phase, Phase.alive] at alive
  | runStop m =>
    simp only [PeriodicTask.step] at ran
    split at ran
    · split at ran
      · cases ran
        exact lively.of_same runStop_same.1 runStop_same.2 runStop_running
      · cases ran
    · cases ran
  | resolveStop m =>
    simp only [PeriodicTask.step] at ran
    split at ran
    · split at ran
      · cases ran
        exact lively.of_same rfl rfl id
      · cases ran
    · cases ran
  | fire k | runPackage k | resolveCallback k =>
    obtain ⟨phase, same⟩ := Option.ite_none_right_eq_some.mp ran
    cases same
    exact lively.setPhase fun _ _ => rfl

/-- A running task has exactly one chain, which will call the callback: its timer
is armed, its package is posted, or its call of the callback is not done. -/
structure StaysAlive (s : State) : Prop where
  one : s.state = .running → ∃! k, s.alive k = true
  uncancelled : s.state = .running → ∀ k, s.alive k = true →
    (s.chains k).isCancelRequested = false

/-- **A running task stays alive under the condition.** -/
theorem staysAlive_of_endsWhenStopped
    (reached : Reachable exec EndsWhenStopped (initial threads) config) :
    StaysAlive config.state := by
  have both : Sane config.state ∧ Lively config.state := by
    apply reached.invariant_actions fun s => Sane s ∧ Lively s
    · have unused : Reachable exec StopsRan (initial threads) (initial threads) := .start
      exact ⟨sane_of_reachable unused, .of_rests nofun⟩
    · rintro a s s' ⟨sane, lively⟩ allowed ran
      exact ⟨sane.step allowed.1 ran, lively.step sane allowed ran⟩
  obtain ⟨sane, lively⟩ := both
  constructor
  · intro running
    exact ⟨_, lively.alive running, sane.once⟩
  · intro running k alive
    rw [sane.once k alive]
    exact lively.uncancelled running

/-- A check of the condition. -/
def endsWhenStopped (s : State) (call : Unit) (a : Action) : Bool :=
  stopsRan s call a &&
    match a with
    | .returnFuture _ (some (.exception .operationCanceled)) => s.state != .running
    | .continueCall k =>
      (s.chains k).phase != .resolved (.exception .operationCanceled) || s.state != .running
    | _ => true

theorem endsWhenStopped_sound (s : State) (call : Unit) (a : Action)
    (checked : endsWhenStopped s call a = true) : EndsWhenStopped s call a := by
  simp only [endsWhenStopped, Bool.and_eq_true] at checked
  refine ⟨stopsRan_sound s call a checked.1, ?_⟩
  rintro ⟨k, rfl | ⟨rfl, phase⟩⟩
  · simpa using checked.2
  · simpa [phase] using checked.2

/-- Two periods, the first of which has an asynchronous callback. -/
def twoPeriods : List (ℕ × Action) :=
  [(0, .setCallback), (0, .start .startImmediately), (1, .runPackage 1), (1, .returnFuture 1 none),
    (1, .resolveCallback 1 .value), (1, .continueCall 1), (1, .resolve 1), (1, .fire 2),
    (1, .andThen 2), (1, .returnFuture 2 (some .value)), (1, .resolve 2)]

theorem staysAlive_twoPeriods : ∃ config : Config State Unit,
    config.state.state = .running ∧ (config.state.chains 3).phase = .armed ∧
      StaysAlive config.state := by
  have ran : ((initial 2).runWithin exec endsWhenStopped twoPeriods).map (fun config =>
      config.state.state == .running && (config.state.chains 3).phase == .armed) =
        some true := by decide
  obtain ⟨config, reached, held⟩ := reachable_of_replay_within endsWhenStopped_sound _ _ ran
  simp only [Bool.and_eq_true, beq_iff_eq] at held
  exact ⟨config, held.1, held.2, staysAlive_of_endsWhenStopped reached⟩

/-- The callback returns a future that is cancelled. -/
def cancelItself : List (ℕ × Action) :=
  [(0, .setCallback), (0, .start .startImmediately), (1, .runPackage 1),
    (1, .returnFuture 1 (some (.exception .operationCanceled))), (1, .resolve 1)]

/-- A task that is running, and has one chain, which is over. -/
theorem canceled_callback_stays_running : ∃ config : Config State Unit,
    Reachable exec Anything (initial 2) config ∧ config.state.state = .running ∧
      config.state.count = 1 ∧ (config.state.chains 1).phase = .over ∧
      ¬ StaysAlive config.state := by
  have ran : ((initial 2).runWithin exec stopsRan cancelItself).map (fun config =>
      config.state.state == .running && config.state.count == 1 &&
      (config.state.chains 1).phase == .over) = some true := by decide
  obtain ⟨config, reached, held⟩ := reachable_of_replay_within stopsRan_sound _ _ ran
  simp only [Bool.and_eq_true, beq_iff_eq] at held
  obtain ⟨⟨running, count⟩, past⟩ := held
  have sane := sane_of_reachable reached
  refine ⟨config, reached.mono fun _ _ _ _ => trivial, running, count, past, fun stays => ?_⟩
  obtain ⟨k, alive, -⟩ := stays.one running
  have same := sane.once k alive
  rw [same, count] at alive
  simp [State.alive, past, Phase.alive] at alive

end Tconcurrent.PeriodicTask
