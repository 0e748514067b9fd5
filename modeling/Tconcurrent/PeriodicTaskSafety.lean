import Tconcurrent.PeriodicTask

/-! A start that meets no stale continuation of `stop` keeps one chain at a time.

`_state` is written by `start`, by `stop`, by the continuation of `stop` and by
the error paths of `do_call`; only the last of these frees the task for a
`start` while a continuation of `stop` still has to run. -/
namespace Tconcurrent.PeriodicTask
open Interleaving Builtins

variable {s s' : State} {k : ℕ} {phase : Phase} {r : VoidResult} {threads : ℕ}
  {config : Config State Unit}

/-- Whether the timer of a chain is armed, its package is posted, or the callback
runs and the future it returns is not done with. -/
def State.alive (s : State) (k : ℕ) : Bool := (s.chains k).phase.alive

/-- The continuation that still has to run writes `_state`. -/
def Stop.pending (stop : Stop) : Prop := stop.stage = .waiting ∧ stop.quiet = false

instance (stop : Stop) : Decidable stop.pending := inferInstanceAs (Decidable (_ ∧ _))

/-- Where a call of `stop` stands. -/
structure Stop.Sane (s : State) (stop : Stop) : Prop where
  chain : stop.chain ≤ s.count
  starts : stop.starts ≤ s.starts
  current : stop.starts = s.starts ∨ stop.pending → stop.chain = s.count ∧ s.state ≠ .running
  past : stop.stage ≠ .waiting → s.alive stop.chain = false

/-- There is one chain at most, none once the task is stopped, and a `stop` whose
continuation has not run has kept the task from starting again. -/
structure Sane (s : State) : Prop where
  once : ∀ k, s.alive k = true → k = s.count
  idle : s.state = .stopped → s.alive s.count = false
  asserts : s.assertFailed = false
  valid : s.state = .running → s.count ≠ 0
  stops : ∀ stop ∈ s.stops, stop.Sane s

/-! ## Phases -/

namespace State

@[simp] theorem setPhase_self : ((s.setPhase k phase).chains k).phase = phase := by simp [setPhase]

theorem setPhase_ne {j : ℕ} (other : j ≠ k) : (s.setPhase k phase).chains j = s.chains j := by
  simp [setPhase, other]

@[simp] theorem alive_setPhase_self : (s.setPhase k phase).alive k = phase.alive := by
  simp [alive]

theorem alive_setPhase_ne {j : ℕ} (other : j ≠ k) : (s.setPhase k phase).alive j = s.alive j := by
  simp [alive, setPhase_ne other]

theorem alive_of_setPhase (keeps : phase.alive = true → s.alive k = true) (j : ℕ)
    (alive : (s.setPhase k phase).alive j = true) : s.alive j = true := by
  by_cases same : j = k
  · subst same
    exact keeps (by simpa using alive)
  · rwa [alive_setPhase_ne same] at alive

theorem alive_newChain_self : (s.newChain phase).alive (s.count + 1) = phase.alive := by
  simp [alive, newChain]

theorem alive_newChain_ne {j : ℕ} (other : j ≠ s.count + 1) :
    (s.newChain phase).alive j = s.alive j := by
  simp [alive, newChain, other]

end State

/-! ## Steps that begin no chain -/

/-- A step that begins no chain and does not set the task running. -/
structure Quiet (s s' : State) : Prop where
  count : s'.count = s.count
  starts : s'.starts = s.starts
  alive : ∀ k, s'.alive k = true → s.alive k = true
  running : s'.state = .running → s.state = .running

theorem Quiet.refl : Quiet s s := ⟨rfl, rfl, fun _ => id, id⟩

theorem Quiet.trans {s'' : State} (first : Quiet s s') (second : Quiet s' s'') : Quiet s s'' where
  count := second.count.trans first.count
  starts := second.starts.trans first.starts
  alive k alive := first.alive k (second.alive k alive)
  running running := first.running (second.running running)

theorem Quiet.setPhase (keeps : phase.alive = true → s.alive k = true) :
    Quiet s (s.setPhase k phase) where
  count := rfl
  starts := rfl
  alive := State.alive_of_setPhase keeps
  running := id

theorem Stop.Sane.quiet {stop : Stop} (sane : stop.Sane s) (quiet : Quiet s s') : stop.Sane s' := by
  constructor
  · rw [quiet.count]
    exact sane.chain
  · rw [quiet.starts]
    exact sane.starts
  · rw [quiet.starts, quiet.count]
    intro now
    obtain ⟨chain, rests⟩ := sane.current now
    exact ⟨chain, fun running => rests (quiet.running running)⟩
  · intro past
    have dead := sane.past past
    cases alive : s'.alive stop.chain with
    | false => rfl
    | true =>
      rw [quiet.alive _ alive] at dead
      cases dead

/-- What a quiet step has to see to itself. -/
theorem Sane.quiet (sane : Sane s) (quiet : Quiet s s')
    (idle : s'.state = .stopped → s'.alive s'.count = false)
    (asserts : s'.assertFailed = false)
    (stops : ∀ stop ∈ s'.stops, stop ∈ s.stops ∨ stop.Sane s') : Sane s' where
  once k alive := by rw [quiet.count, sane.once k (quiet.alive k alive)]
  idle := idle
  asserts := asserts
  valid running := by rw [quiet.count]; exact sane.valid (quiet.running running)
  stops stop member := (stops stop member).elim (fun old => (sane.stops stop old).quiet quiet) id

theorem Sane.setPhase (sane : Sane s) (keeps : phase.alive = true → s.alive k = true) :
    Sane (s.setPhase k phase) := by
  have quiet := Quiet.setPhase (s := s) keeps
  apply sane.quiet quiet
  · intro stopped
    have dead := sane.idle stopped
    cases alive : (s.setPhase k phase).alive s.count with
    | false => exact alive
    | true =>
      rw [quiet.alive _ alive] at dead
      cases dead
  · exact sane.asserts
  · exact fun _ => Or.inl

/-- `do_call` leaves its chain dead and may then stop the task. -/
theorem Sane.stopped (sane : Sane s) (alive : s.alive k = true) (dead : phase.alive = false) :
    Sane { s.setPhase k phase with state := .stopped } := by
  have same := sane.once k alive
  have quiet : Quiet s { s.setPhase k phase with state := .stopped } := by
    constructor
    · rfl
    · rfl
    · exact State.alive_of_setPhase (by simp [dead])
    · intro running
      cases running
  apply sane.quiet quiet
  · intro _
    rw [quiet.count, ← same]
    simpa [State.alive] using dead
  · exact sane.asserts
  · exact fun _ => Or.inl

/-! ## Steps that begin a chain -/

/-- A new chain of a task that no `stop` waits for. -/
theorem Sane.newChain {starts : ℕ} (sane : Sane s) (idle : s.alive s.count = false)
    (later : s.starts ≤ starts) (past : ∀ stop ∈ s.stops, stop.starts < starts)
    (ran : ∀ stop ∈ s.stops, ¬ stop.pending) :
    Sane ({ s with state := .running, starts }.newChain phase) := by
  have others : ∀ k, k ≤ s.count →
      ({ s with state := .running, starts }.newChain phase).alive k = s.alive k := by
    intro k old
    exact State.alive_newChain_ne (s := { s with state := .running, starts }) (by simp; omega)
  have count : ({ s with state := .running, starts }.newChain phase).count = s.count + 1 := rfl
  constructor
  · intro k alive
    rw [count]
    by_contra other
    have before : s.alive k = true := by
      rwa [State.alive_newChain_ne (s := { s with state := .running, starts }) other] at alive
    rw [sane.once k before, idle] at before
    cases before
  · intro stopped
    cases stopped
  · exact sane.asserts
  · intro _
    rw [count]
    exact Nat.succ_ne_zero _
  · intro stop member
    have kept := sane.stops stop member
    constructor
    · rw [count]
      exact Nat.le_succ_of_le kept.chain
    · exact kept.starts.trans later
    · rintro (now | waits)
      · have earlier := past stop member
        simp only [State.newChain] at now
        omega
      · exact absurd waits (ran stop member)
    · intro done
      rw [others _ kept.chain]
      exact kept.past done

theorem reschedule_of (active : s.state ≠ .stopped) :
    reschedule s = if s.state = .stopping then s else s.newChain .armed := by
  simp only [reschedule, check_of active]

/-- `reschedule` after a chain has ended. -/
theorem Sane.reschedule (sane : Sane s) (active : s.state ≠ .stopped)
    (idle : s.alive s.count = false) : Sane (reschedule s) := by
  rw [reschedule_of active]
  split
  · exact sane
  · rename_i stopping
    have running : s.state = .running := by
      cases state : s.state with
      | stopped => exact absurd state active
      | running => rfl
      | stopping => exact absurd state stopping
    have same : s = { s with state := .running, starts := s.starts } := by rw [← running]
    rw [same]
    apply sane.newChain idle le_rfl
    · intro stop member
      have kept := sane.stops stop member
      refine lt_of_le_of_ne kept.starts fun now => ?_
      exact (kept.current (Or.inl now)).2 running
    · intro stop member waits
      exact ((sane.stops stop member).current (Or.inr waits)).2 running

theorem Sane.continueCall (sane : Sane s) (alive : s.alive k = true) :
    Sane (continueCall k r s) := by
  have same := sane.once k alive
  have active : s.state ≠ .stopped := by
    intro stopped
    rw [same, sane.idle stopped] at alive
    cases alive
  have ended : Sane (s.setPhase k .ending) := sane.setPhase (by simp [Phase.alive])
  unfold PeriodicTask.continueCall
  cases r with
  | value =>
    apply ended.reschedule active
    change (s.setPhase k .ending).alive s.count = false
    rw [← same, State.alive_setPhase_self]
    rfl
  | exception e =>
    cases e with
    | operationCanceled => exact ended
    | brokenPromise => exact sane.stopped alive rfl
    | user code => exact sane.stopped alive rfl

/-- A `start` that changes the state finds no continuation of `stop` that still
has to write it. -/
def StopsRan (s : State) (_ : Unit) (a : Action) : Prop :=
  (∃ opt, a = .start opt) → s.state = .stopped → ∀ stop ∈ s.stops, ¬ stop.pending

theorem Sane.start {opt : StartOption} (sane : Sane s) (allowed : StopsRan s () (.start opt))
    (ran : start opt s = .ok s') : Sane s' := by
  unfold PeriodicTask.start at ran
  split at ran
  · cases ran
  · cases state : s.state with
    | stopping =>
      rw [state] at ran
      cases ran
    | running =>
      rw [state] at ran
      cases ran
      exact sane
    | stopped =>
      have begun : ∀ phase, Sane
          ({ s with state := .running, starts := s.starts + 1 }.newChain phase) := fun phase =>
        sane.newChain (sane.idle state) (Nat.le_succ _)
          (fun stop member => Nat.lt_succ_of_le (sane.stops stop member).starts)
          (allowed ⟨opt, rfl⟩ state)
      rw [state] at ran
      cases opt with
      | noOption =>
        cases ran
        rw [reschedule_of]
        · exact begun .armed
        · exact nofun
      | startImmediately =>
        cases ran
        exact begun .posted

/-! ## Stopping -/

/-- A state that differs in what no invariant reads, or is no longer running. -/
theorem Quiet.of_same (count : s'.count = s.count) (starts : s'.starts = s.starts)
    (phases : ∀ k, (s'.chains k).phase = (s.chains k).phase)
    (running : s'.state = .running → s.state = .running) : Quiet s s' where
  count := count
  starts := starts
  alive k := by simp only [State.alive, phases k]; exact id
  running := running

theorem phase_flag (s : State) (k : ℕ) : (s.flag.chains k).phase = (s.chains k).phase := by
  by_cases same : k = s.count
  · subst same
    simp [State.flag]
  · simp [State.flag, same]

/-- The continuation of a `stop` whose chain is over. -/
theorem Sane.runStop (sane : Sane s) (quiet : Bool) (rests : quiet = false → s.state ≠ .running)
    (idle : quiet = false → s.alive s.count = false) :
    Sane (runStop quiet s) ∧ Quiet s (runStop quiet s) := by
  unfold PeriodicTask.runStop
  cases quiet with
  | true => exact ⟨sane, .refl⟩
  | false =>
    rw [if_neg nofun, check_of (rests rfl)]
    have same : Quiet s { s with state := .stopped } := .of_same rfl rfl (fun _ => rfl) nofun
    exact ⟨sane.quiet same (fun _ => idle rfl) sane.asserts fun _ => Or.inl, same⟩

theorem runStop_stops {quiet : Bool} : (runStop quiet s).stops = s.stops := by
  cases quiet with
  | true => rfl
  | false =>
    show (check s (s.state ≠ .running)).stops = s.stops
    exact check_keeps rfl

/-- A list of calls of `stop` may be rewritten when each of them stands as it should. -/
theorem Sane.withStops (sane : Sane s) {stops : List Stop}
    (each : ∀ stop ∈ stops, stop ∈ s.stops ∨ stop.Sane s) : Sane { s with stops } := by
  have same : Quiet s { s with stops } := .of_same rfl rfl (fun _ => rfl) id
  apply sane.quiet same sane.idle sane.asserts
  intro stop member
  exact (each stop member).imp id fun kept => kept.quiet same

theorem Sane.thenStop {quiet : Bool} (sane : Sane s) (rests : s.state ≠ .running) :
    Sane (thenStop quiet s) := by
  unfold PeriodicTask.thenStop
  split
  · rename_i past
    have dead : s.alive s.count = false := by simp [State.alive, past, Phase.alive]
    obtain ⟨ran, same⟩ := sane.runStop quiet (fun _ => rests) fun _ => dead
    apply ran.withStops
    intro stop member
    rcases List.mem_append.mp member with old | new
    · left
      rwa [runStop_stops]
    · right
      rw [List.mem_singleton.mp new]
      refine Stop.Sane.quiet (s := s) ⟨le_rfl, le_rfl, fun _ => ⟨rfl, rests⟩, fun _ => dead⟩ same
  · apply sane.withStops
    intro stop member
    rcases List.mem_append.mp member with old | new
    · exact Or.inl old
    · right
      rw [List.mem_singleton.mp new]
      exact ⟨le_rfl, le_rfl, fun _ => ⟨rfl, rests⟩, fun past => absurd rfl past⟩

theorem continueCall_quiet (stopping : s.state = .stopping) :
    Quiet s (continueCall k r s) := by
  have ended : Quiet s (s.setPhase k .ending) := .setPhase (by simp [Phase.alive])
  cases r with
  | value =>
    have still : (s.setPhase k .ending).state = .stopping := stopping
    rw [continueCall, reschedule_of (by simp [still]), if_pos still]
    exact ended
  | exception e =>
    cases e with
    | operationCanceled => exact ended
    | brokenPromise => exact ⟨rfl, rfl, ended.alive, nofun⟩
    | user code => exact ⟨rfl, rfl, ended.alive, nofun⟩

theorem Sane.stopping (sane : Sane s) : Sane { s with state := .stopping } := by
  have same : Quiet s { s with state := .stopping } := .of_same rfl rfl (fun _ => rfl) nofun
  apply sane.quiet same
  · intro stopped
    cases stopped
  · exact sane.asserts
  · exact fun _ => Or.inl

theorem Sane.requestCancel (sane : Sane s) (answer : Option VoidResult)
    (stopping : s.state = .stopping) :
    Sane (requestCancel answer s) ∧ (requestCancel answer s).state ≠ .running := by
  have rests : s.state ≠ .running := by simp [stopping]
  have same : Quiet s s.flag := .of_same rfl rfl (phase_flag s) id
  have flagged : Sane s.flag := by
    apply sane.quiet same
    · intro stopped
      rw [State.flag, stopping] at stopped
      cases stopped
    · exact sane.asserts
    · exact fun _ => Or.inl
  unfold PeriodicTask.requestCancel
  split
  · exact ⟨sane, rests⟩
  · exact ⟨flagged.setPhase (by simp [Phase.alive]), rests⟩
  · rename_i r phase
    have alive : s.flag.alive s.count = true := by
      simp [State.alive, phase_flag, phase, Phase.alive]
    refine ⟨(flagged.continueCall alive).setPhase (by simp [Phase.alive]), ?_⟩
    intro running
    have before := (continueCall_quiet (s := s.flag) stopping).running running
    exact rests before
  · exact ⟨flagged, rests⟩

theorem Sane.stop {answer : Option VoidResult} (sane : Sane s) : Sane (stop answer s) := by
  unfold PeriodicTask.stop
  split
  · rename_i state
    apply sane.withStops
    intro stop member
    rcases List.mem_append.mp member with old | new
    · exact Or.inl old
    · right
      rw [List.mem_singleton.mp new]
      exact ⟨le_rfl, le_rfl, fun _ => ⟨rfl, by simp [state]⟩, fun _ => sane.idle state⟩
  · rename_i state
    exact sane.thenStop (by simp [state])
  · rename_i state
    rw [check_of (sane.valid state)]
    obtain ⟨requested, rests⟩ := sane.stopping.requestCancel answer rfl
    exact requested.thenStop rests

/-! ## Runs -/

/-- One step keeps the invariant. -/
theorem Sane.step {a : Action} (sane : Sane s) (allowed : StopsRan s () a)
    (ran : step a s = some s') : Sane s' := by
  cases a with
  | setCallback =>
    cases ran
    have same : Quiet s { s with callback := true } := .of_same rfl rfl (fun _ => rfl) id
    exact sane.quiet same sane.idle sane.asserts fun _ => Or.inl
  | start opt =>
    simp only [PeriodicTask.step] at ran
    split at ran
    · rename_i begun
      cases ran
      exact sane.start allowed begun
    · cases ran
      exact sane
  | stop answer =>
    cases ran
    exact sane.stop
  | continueCall k =>
    simp only [PeriodicTask.step] at ran
    split at ran
    · rename_i r phase
      cases ran
      exact sane.continueCall (by simp [State.alive, phase, Phase.alive])
    · cases ran
  | runStop m =>
    simp only [PeriodicTask.step] at ran
    split at ran
    · rename_i stop found
      split at ran
      · rename_i waits
        obtain ⟨waiting, past⟩ := waits
        cases ran
        have member := List.mem_of_getElem? found
        have kept := sane.stops stop member
        have dead : s.alive stop.chain = false := by simp [State.alive, past, Phase.alive]
        obtain ⟨ran, same⟩ := sane.runStop stop.quiet
          (fun loud => (kept.current (Or.inr ⟨waiting, loud⟩)).2) fun loud => by
            rw [← (kept.current (Or.inr ⟨waiting, loud⟩)).1]
            exact dead
        apply ran.withStops
        intro other listed
        rcases List.mem_or_eq_of_mem_set listed with old | rfl
        · left
          rwa [runStop_stops]
        · right
          refine Stop.Sane.quiet (s := s) ⟨kept.chain, kept.starts, ?_, fun _ => dead⟩ same
          rintro (now | waits)
          · exact kept.current (Or.inl now)
          · cases waits.1
      · cases ran
    · cases ran
  | resolveStop m =>
    simp only [PeriodicTask.step] at ran
    split at ran
    · rename_i stop found
      split at ran
      · rename_i done
        cases ran
        have kept := sane.stops stop (List.mem_of_getElem? found)
        apply sane.withStops
        intro other listed
        rcases List.mem_or_eq_of_mem_set listed with old | rfl
        · exact Or.inl old
        · right
          refine ⟨kept.chain, kept.starts, ?_, fun _ => kept.past (by simp [done])⟩
          rintro (now | waits)
          · exact kept.current (Or.inl now)
          · cases waits.1
      · cases ran
    · cases ran
  | andThen k =>
    obtain ⟨phase, same⟩ := Option.ite_none_right_eq_some.mp ran
    cases same
    unfold PeriodicTask.andThen
    split
    · exact sane.setPhase (by simp [Phase.alive])
    · exact sane.setPhase (by simp [State.alive, phase, Phase.alive])
  | throwException k =>
    obtain ⟨phase, same⟩ := Option.ite_none_right_eq_some.mp ran
    cases same
    exact sane.stopped (by simp [State.alive, phase, Phase.alive]) rfl
  | returnFuture k resolved =>
    obtain ⟨phase, same⟩ := Option.ite_none_right_eq_some.mp ran
    cases same
    have alive : s.alive k = true := by simp [State.alive, phase, Phase.alive]
    cases resolved with
    | none => exact sane.setPhase fun _ => alive
    | some r => exact sane.continueCall alive
  | fire k | runPackage k | resolveCallback k | resolve k =>
    obtain ⟨phase, same⟩ := Option.ite_none_right_eq_some.mp ran
    cases same
    exact sane.setPhase (by simp [State.alive, phase, Phase.alive])

theorem sane_of_reachable (reached : Reachable exec StopsRan (initial threads) config) :
    Sane config.state := by
  apply reached.invariant_actions Sane
  · constructor
    · intro k alive
      cases alive
    · intro _
      rfl
    · rfl
    · intro running
      cases running
    · intro stop member
      cases member
  · exact fun a s s' sane allowed ran => sane.step allowed ran

/-- One chain at most is alive, and none while the task is stopped or after the
future of a `stop` is ready and no `start` has followed.  Every `assert` holds. -/
structure StopsCleanly (s : State) : Prop where
  once : ∀ j k, s.alive j = true → s.alive k = true → j = k
  idle : s.state = .stopped → ∀ k, s.alive k = false
  asserts : s.assertFailed = false
  past : ∀ stop ∈ s.stops, stop.stage = .ready → stop.starts = s.starts →
    s.state ≠ .running ∧ ∀ k, s.alive k = false

/-- **Start and stop are safe under the condition.** -/
theorem stopsCleanly_of_stopsRan
    (reached : Reachable exec StopsRan (initial threads) config) : StopsCleanly config.state := by
  have sane := sane_of_reachable reached
  have only : config.state.alive config.state.count = false →
      ∀ k, config.state.alive k = false := by
    intro dead k
    cases alive : config.state.alive k with
    | false => rfl
    | true => rw [← sane.once k alive, alive] at dead; exact dead
  constructor
  · intro j k first second
    rw [sane.once j first, sane.once k second]
  · exact fun stopped => only (sane.idle stopped)
  · exact sane.asserts
  · intro stop member ready now
    have kept := sane.stops stop member
    obtain ⟨chain, rests⟩ := kept.current (Or.inl now)
    have dead := kept.past (by simp [ready])
    rw [chain] at dead
    exact ⟨rests, only dead⟩

/-- A check of the condition. -/
def stopsRan (s : State) (_ : Unit) (a : Action) : Bool :=
  match a with
  | .start _ => s.state != .stopped || s.stops.all (!decide ·.pending)
  | _ => true

theorem stopsRan_sound (s : State) (call : Unit) (a : Action)
    (checked : stopsRan s call a = true) : StopsRan s call a := by
  rintro ⟨opt, rfl⟩ stopped stop member
  simp only [stopsRan, stopped, bne_self_eq_false, Bool.false_or, List.all_eq_true] at checked
  simpa using checked stop member

/-- The callback fails while a `stop` waits, and the task is started again after
the continuation of that `stop` has run. -/
def failAndRestart : List (ℕ × Action) :=
  [(0, .setCallback), (0, .start .noOption), (1, .fire 1), (1, .andThen 1), (0, .stop none),
    (1, .throwException 1), (1, .resolve 1), (1, .runStop 0), (1, .resolveStop 0),
    (0, .start .startImmediately), (1, .runPackage 2), (0, .stop none), (0, .stop none)]

theorem stopsCleanly_failAndRestart : ∃ config : Config State Unit,
    config.state.state = .stopping ∧ config.state.alive 2 = true ∧
      config.state.stops.length = 3 ∧ StopsCleanly config.state := by
  have ran : ((initial 2).runWithin exec stopsRan failAndRestart).map (fun config =>
      config.state.state == .stopping && config.state.alive 2 &&
      config.state.stops.length == 3) = some true := by decide
  obtain ⟨config, reached, held⟩ := reachable_of_replay_within stopsRan_sound _ _ ran
  simp only [Bool.and_eq_true, beq_iff_eq] at held
  obtain ⟨⟨stopping, alive⟩, stops⟩ := held
  exact ⟨config, stopping, alive, stops, stopsCleanly_of_stopsRan reached⟩

/-- As `failAndRestart`, but the task is started again before the chain of the
callback that has thrown is resolved. -/
def restartTooSoon : List (ℕ × Action) :=
  [(0, .setCallback), (0, .start .noOption), (1, .fire 1), (1, .andThen 1), (0, .stop none),
    (1, .throwException 1), (0, .start .noOption), (1, .resolve 1), (1, .runStop 0)]

/-- The continuation of the `stop` finds the task running: its `assert` fails, and
it leaves the task stopped with an armed timer. -/
theorem restart_meets_stale_stop : ∃ config : Config State Unit,
    Reachable exec Anything (initial 2) config ∧ config.state.assertFailed = true ∧
      config.state.state = .stopped ∧ (config.state.chains 2).phase = .armed ∧
      ¬ StopsCleanly config.state := by
  have ran : ((initial 2).run exec restartTooSoon).map (fun config =>
      config.state.assertFailed && config.state.state == .stopped &&
      (config.state.chains 2).phase == .armed) = some true := by decide
  obtain ⟨config, reached, held⟩ := reachable_of_replay _ _ ran
  simp only [Bool.and_eq_true, beq_iff_eq] at held
  obtain ⟨⟨failed, stopped⟩, armed⟩ := held
  refine ⟨config, reached, failed, stopped, armed, fun clean => ?_⟩
  rw [clean.asserts] at failed
  cases failed

end Tconcurrent.PeriodicTask
