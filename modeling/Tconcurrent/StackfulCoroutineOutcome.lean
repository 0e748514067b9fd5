import Tconcurrent.StackfulCoroutineResume

/-! What a stackful coroutine reports to its receiver.

Cancelation is requested while the coroutine is suspended.  One moment of that is too
early: `run_coroutine` is still submitting the sender that is awaited, and goes on with
the control block after the canceler has run the coroutine to its end. -/
namespace Tconcurrent.StackfulCoroutine
open Interleaving

variable {s s' : State} {others above : Multiset CoroutineCall} {call : CoroutineCall}
  {calls rest : List CoroutineCall} {choice : Choice} {k : ℕ} {isSender : ℕ → Bool}
  {config : Config State CoroutineCall}

/-- Cancelation is requested while the coroutine has switched out in an await. -/
def RequestsSwitchedOut (s : State) (_ : CoroutineCall) (choice : Choice) : Prop :=
  choice = .requestCancel → s.phase.awaiting ≠ none

/-- Nor is it requested by the `submit` of the awaited sender. -/
def RequestsSuspended (s : State) (_ : CoroutineCall) (choice : Choice) : Prop :=
  choice = .requestCancel → ∃ k, s.phase = .suspended k

/-- The receiver is signalled once, when the body has ended, as it has ended.
Nothing that was posted runs or writes to a coroutine that was aborted. -/
structure ReportsOnce (s : State) : Prop where
  signals : s.signals = (s.ended.map signalOf).toList
  ended : s.ended.isSome = s.phase.finished
  aborts : s.ended = some .aborted ↔ s.unwinding = true ∧ s.phase.finished = true
  posted : ∀ k ∈ s.queue, s.aborted k = true ∨ s.phase.awaiting = some k
  aborted : s.unwinding = true → ∀ k ∈ s.queue, s.aborted k = true
  resumed : ∀ k, s.resumed k ≤ 1
  resumes : s.badResume = false
  alive : s.dangling = false
  asserts : s.assertFailed = false

def Phase.submits : Phase → ℕ
  | submitting _ => 1
  | _ => 0

def submitCall : CoroutineCall → ℕ
  | .submitted => 1
  | _ => 0

/-- What holds besides when cancelation is requested in time. -/
structure Tidy (s : State) (above : Multiset CoroutineCall) : Prop where
  canceled : s.canceled = true → s.unwinding = true ∨ ∃ k, .cancelAwait k ∈ above
  cancels : ∀ k, .cancelAwait k ∈ above → s.phase = .suspended k
  submits : weight submitCall above = s.phase.submits
  previous : ∀ k, s.phase = .suspended k → s.previous = false
  uncrashed : .crashed ∉ above
  alive : s.dangling = false
  asserts : s.assertFailed = false

theorem reportsOnce_of_tidy (sane : Sane s above) (tidy : Tidy s above) : ReportsOnce s where
  signals := sane.ends.signals
  ended := sane.ends.ended
  aborts := sane.ends.aborts
  posted := sane.awaits.queue
  aborted unwinding k listed := by
    refine (sane.awaits.queue k listed).resolve_right fun awaits => ?_
    rcases (sane.ends.unwinding unwinding).2 with running | finished
    · rw [running] at awaits
      cases awaits
    · cases at_phase : s.phase with
      | suspended | submitting => rw [at_phase] at finished; cases finished
      | _ => rw [at_phase] at awaits; cases awaits
  resumed := sane.awaits.resumed
  resumes := sane.watched.resumes
  alive := tidy.alive
  asserts := tidy.asserts

/-! ## Steps -/

/-- A step that stays where it is. -/
theorem Tidy.keep (tidy : Tidy s (call ::ₘ others)) (phase : s'.phase = s.phase)
    (canceled : s'.canceled = s.canceled) (unwinding : s'.unwinding = s.unwinding)
    (previous : s'.previous = s.previous) (dangling : s'.dangling = s.dangling)
    (asserts : s'.assertFailed = s.assertFailed) : Tidy s' (call ::ₘ others) where
  canceled := by
    rw [canceled, unwinding]
    exact tidy.canceled
  cancels := by
    rw [phase]
    exact tidy.cancels
  submits := by
    rw [phase]
    exact tidy.submits
  previous := by
    rw [phase, previous]
    exact tidy.previous
  uncrashed := tidy.uncrashed
  alive := dangling.trans tidy.alive
  asserts := asserts.trans tidy.asserts

/-- Neither a canceler nor the end of a `submit`, and no crash. -/
def Plain (call : CoroutineCall) : Prop :=
  cancelCall call = 0 ∧ submitCall call = 0 ∧ call ≠ .crashed

/-- The calls of a step around plain calls. -/
theorem Tidy.of_plain (aborting : s'.canceled = true → s'.unwinding = true)
    (plain : ∀ other ∈ others, Plain other)
    (submits : weight submitCall (calls : Multiset CoroutineCall) = s'.phase.submits)
    (made : ∀ call ∈ calls, cancelCall call = 0 ∧ call ≠ .crashed)
    (previous : ∀ k, s'.phase = .suspended k → s'.previous = false)
    (alive : s'.dangling = false) (asserts : s'.assertFailed = false) :
    Tidy s' (↑calls + others) where
  canceled flagged := Or.inl (aborting flagged)
  cancels k member := by
    rcases Multiset.mem_add.mp member with new | old
    · cases (made _ (Multiset.mem_coe.mp new)).1
    · cases (plain _ old).1
  submits := by
    have quiet : weight submitCall others = 0 := by
      apply Multiset.sum_eq_zero
      intro value member
      obtain ⟨call, held, rfl⟩ := Multiset.mem_map.mp member
      exact (plain call held).2.1
    rw [weight_add, quiet, add_zero, submits]
  previous := previous
  uncrashed := by
    intro member
    rcases Multiset.mem_add.mp member with new | old
    · exact (made _ (Multiset.mem_coe.mp new)).2 rfl
    · exact (plain _ old).2.2 rfl
  alive := alive
  asserts := asserts

/-- Where nothing is awaited no canceler runs. -/
theorem Tidy.apart (tidy : Tidy s (call ::ₘ others)) (idle : s.phase.awaiting = none) (k : ℕ) :
    .cancelAwait k ∉ call ::ₘ others := by
  intro member
  rw [tidy.cancels k member] at idle
  cases idle

/-- Only user code surrounds a call that is made where nothing is awaited. -/
theorem Tidy.plain (tidy : Tidy s (call ::ₘ others)) (idle : s.phase.awaiting = none) :
    ∀ other ∈ others, Plain other := by
  intro other member
  have inside : other ∈ call ::ₘ others := Multiset.mem_cons_of_mem member
  have quiet := measure_le_weight submitCall inside
  rw [tidy.submits] at quiet
  refine ⟨?_, ?_, ?_⟩
  · cases other with
    | cancelAwait k => exact absurd inside (tidy.apart idle k)
    | _ => rfl
  · cases at_phase : s.phase with
    | submitting k => rw [at_phase] at idle; cases idle
    | _ => rw [at_phase] at quiet; exact Nat.le_zero.mp quiet
  · rintro rfl
    exact tidy.uncrashed inside

/-- The coroutine runs as long as it is not canceled. -/
theorem Tidy.uncanceled (tidy : Tidy s (call ::ₘ others)) (idle : s.phase.awaiting = none)
    (sound : s.unwinding = false) : s.canceled = false := by
  by_contra flagged
  rcases tidy.canceled (by simpa using flagged) with unwinding | ⟨k, member⟩
  · rw [sound] at unwinding
    cases unwinding
  · exact tidy.apart idle k member

theorem Tidy.awaitsUncanceled (sane : Sane s (call ::ₘ others)) (tidy : Tidy s (call ::ₘ others))
    {thread : ℕ} (ran : exec thread choice s call = some (s', calls)) :
    AwaitsUncanceled s call choice := by
  cases call with
  | body =>
    have running : s.phase = .running := sane.fits _ (Multiset.mem_cons_self _ _)
    have sound : s.unwinding = false → s.canceled = false :=
      tidy.uncanceled (by rw [running]; rfl)
    cases choice with
    | awaitFuture k | awaitSender k =>
      simp only [exec, body] at ran
      split at ran
      · cases ran
      · rename_i able
        push Not at able
        have uncanceled := sound (by simpa using able.1)
        simp [AwaitsUncanceled, uncanceled]
    | _ => trivial
  | _ => trivial

theorem resolve_frame (resolves : resolve k s = some s') :
    s'.phase = s.phase ∧ s'.canceled = s.canceled ∧ s'.unwinding = s.unwinding ∧
      s'.previous = s.previous ∧ s'.dangling = s.dangling ∧ s'.assertFailed = s.assertFailed := by
  unfold resolve at resolves
  split at resolves
  · cases resolves
  · cases resolves
    dsimp only
    split <;> exact ⟨rfl, rfl, rfl, rfl, rfl, rfl⟩

theorem Tidy.resolve (tidy : Tidy s (call ::ₘ others)) (resolves : resolve k s = some s') :
    Tidy s' (call ::ₘ others) := by
  obtain ⟨phase, canceled, unwinding, previous, dangling, asserts⟩ := resolve_frame resolves
  exact tidy.keep phase canceled unwinding previous dangling asserts

/-- A fresh await of what is not ready is entered. -/
theorem Tidy.suspend (sane : Sane s (.body ::ₘ others)) (tidy : Tidy s (.body ::ₘ others))
    (sound : s.unwinding = false) :
    Tidy (suspend k s).1 (↑(suspend k s).2 + others) := by
  have running : s.phase = .running := sane.fits .body (Multiset.mem_cons_self _ _)
  have idle : s.phase.awaiting = none := by rw [running]; rfl
  have uncanceled := tidy.uncanceled idle sound
  have free : s.canceler = none := sane.canceler.trans idle
  have asserts : (s.assertFailed || s.canceler.isSome) = false := by
    rw [tidy.asserts, free]
    rfl
  simp only [StackfulCoroutine.suspend, setCanceler, uncanceled, Bool.false_eq_true, if_false,
    switchedBack]
  split
  · refine Tidy.of_plain ?_ (tidy.plain idle) rfl ?_ ?_ tidy.alive asserts
    · simp
    · simp [cancelCall]
    · simp
  · split <;>
      refine Tidy.of_plain ?_ (tidy.plain idle) rfl ?_ (fun _ _ => rfl) tidy.alive asserts <;>
      simp

theorem body_tidy (sane : Sane s (.body ::ₘ others)) (tidy : Tidy s (.body ::ₘ others))
    (timely : RequestsSuspended s .body choice) (ran : body s choice = some (s', calls)) :
    Tidy s' (↑calls + others) := by
  have running : s.phase = .running := sane.fits .body (Multiset.mem_cons_self _ _)
  have idle : s.phase.awaiting = none := by rw [running]; rfl
  have one (tidy' : Tidy s' (.body ::ₘ others)) (made : calls = [.body]) :
      Tidy s' (↑calls + others) := by
    rw [made]
    exact tidy'
  have aborting (canceled : s.canceled = true) : s.unwinding = true := by
    by_contra sound
    rw [tidy.uncanceled idle (by simpa using sound)] at canceled
    cases canceled
  cases choice with
  | resolve k =>
    obtain ⟨after, resolved, same⟩ := Option.map_eq_some_iff.mp ran
    cases same
    exact one (tidy.resolve resolved) rfl
  | requestCancel =>
    obtain ⟨k, suspended⟩ := timely rfl
    rw [running] at suspended
    cases suspended
  | awaitFuture k =>
    simp only [body] at ran
    split at ran
    · cases ran
    · rename_i able
      push Not at able
      obtain ⟨sound, unused, -⟩ := able
      have unaborted := (sane.awaits.fresh k (by simpa using unused)).2.1
      split at ran
      · cases ran
        refine one (tidy.keep ?_ ?_ ?_ ?_ ?_ ?_) rfl
        all_goals simp only [awaitReturns, unaborted, Bool.false_eq_true, if_false]
        all_goals split <;> rfl
      · have made : suspend k s = (s', calls) := Option.some.inj ran
        have stepped : Tidy (suspend k s).1 _ := tidy.suspend sane (by simpa using sound)
        rwa [made] at stepped
  | awaitSender k =>
    simp only [body] at ran
    split at ran
    · cases ran
    · rename_i able
      push Not at able
      have made : suspend k s = (s', calls) := Option.some.inj ran
      have stepped : Tidy (suspend k s).1 _ := tidy.suspend sane (by simpa using able.1)
      rwa [made] at stepped
  | yield k =>
    simp only [body] at ran
    split at ran
    · cases ran
    · rename_i able
      push Not at able
      obtain ⟨sound, unused, future, unready⟩ := able
      split at ran
      · cases ran
        exact one (tidy.keep rfl rfl rfl rfl rfl rfl) rfl
      · have fresh : s.used k = false := by simpa using unused
        have ready : resolve k s = some { s with resolved := Function.update s.resolved k true } := by
          simp [resolve, unready, future, (sane.awaits.fresh k fresh).1]
        have made : suspend k { s with resolved := Function.update s.resolved k true } =
            (s', calls) := Option.some.inj ran
        have stepped : Tidy (suspend k { s with resolved := Function.update s.resolved k true }).1 _ :=
          (tidy.resolve ready).suspend (sane.resolve ready) (by simpa using sound)
        rwa [made] at stepped
  | dispatch =>
    simp only [body] at ran
    split at ran
    · cases ran
    · cases ran
      exact Tidy.of_plain aborting (tidy.plain idle) rfl (by simp [cancelCall]) (by simp)
        tidy.alive tidy.asserts
  | finish ending =>
    simp only [body] at ran
    split at ran
    · cases ran
      exact Tidy.of_plain aborting (tidy.plain idle) rfl (by simp [cancelCall]) (by simp)
        tidy.alive tidy.asserts
    · cases ran
  | _ => cases ran

/-- User code returns, or goes on. -/
theorem Tidy.drop (tidy : Tidy s (.user ::ₘ others)) : Tidy s others :=
  { tidy with
    canceled := fun canceled => (tidy.canceled canceled).imp id fun ⟨k, member⟩ =>
      ⟨k, (Multiset.mem_cons.mp member).resolve_left nofun⟩
    cancels := fun k member => tidy.cancels k (Multiset.mem_cons_of_mem member)
    submits := by simpa [submitCall] using tidy.submits
    uncrashed := fun member => tidy.uncrashed (Multiset.mem_cons_of_mem member) }

theorem Tidy.user (tidy : Tidy s above) : Tidy s (.user ::ₘ above) :=
  { tidy with
    canceled := fun canceled => (tidy.canceled canceled).imp id fun ⟨k, member⟩ =>
      ⟨k, Multiset.mem_cons_of_mem member⟩
    cancels := fun k member => tidy.cancels k ((Multiset.mem_cons.mp member).resolve_left nofun)
    submits := by simpa [submitCall] using tidy.submits
    uncrashed := fun member => tidy.uncrashed ((Multiset.mem_cons.mp member).resolve_left nofun) }

/-- A suspended coroutine is canceled: its canceler is called. -/
theorem Tidy.request (sane : Sane s above) (tidy : Tidy s above) (suspended : s.phase = .suspended k) :
    Tidy (requestCancel s).1 (↑(requestCancel s).2 + above) := by
  unfold requestCancel
  split
  · simpa using tidy
  · have installed : s.canceler = some k := by
      rw [sane.canceler, suspended]
      rfl
    rw [installed]
    exact {
      canceled := fun _ => Or.inr ⟨k, by simp⟩
      cancels := by
        intro j member
        rcases Multiset.mem_add.mp member with made | old
        · have same : j = k := by simpa using made
          rw [same]
          exact suspended
        · exact tidy.cancels j old
      submits := by simpa [submitCall] using tidy.submits
      previous := tidy.previous
      uncrashed := by
        intro member
        rcases Multiset.mem_add.mp member with made | old
        · simp at made
        · exact tidy.uncrashed old
      alive := tidy.alive
      asserts := tidy.asserts }

theorem user_tidy (sane : Sane s (.user ::ₘ others)) (tidy : Tidy s (.user ::ₘ others))
    (timely : RequestsSuspended s .user choice) (ran : user s choice = some (s', calls)) :
    Tidy s' (↑calls + others) := by
  cases choice with
  | «return» =>
    cases ran
    simpa using tidy.drop
  | submit nested =>
    simp only [StackfulCoroutine.user] at ran
    split at ran
    · rename_i fresh
      cases ran
      have idle : s.phase.awaiting = none := by rw [fresh]; rfl
      refine Tidy.of_plain (fun canceled => ?_) (tidy.plain idle) rfl (by simp [cancelCall])
        (by simp) tidy.alive tidy.asserts
      rcases tidy.canceled canceled with unwinding | ⟨k, member⟩
      · exact unwinding
      · exact absurd member (tidy.apart idle k)
    · cases ran
  | resolve k =>
    obtain ⟨after, resolved, same⟩ := Option.map_eq_some_iff.mp ran
    cases same
    exact tidy.resolve resolved
  | requestCancel =>
    obtain ⟨k, suspended⟩ := timely rfl
    cases ran
    have requested := (tidy.drop.request (sane.drop rfl) suspended).user
    rwa [← Multiset.coe_add, Multiset.coe_singleton, add_assoc, Multiset.singleton_add,
      Multiset.add_cons]
  | _ => cases ran

/-- `run_coroutine` returns after `submit`, with a coroutine that is still suspended. -/
theorem submitted_tidy (tidy : Tidy s (.submitted ::ₘ others)) : Tidy (submitted s) others := by
  have one := tidy.submits
  rw [weight_cons] at one
  unfold submitted
  split
  · rename_i k submitting
    rw [submitting] at one
    exact {
      canceled := fun canceled => (tidy.canceled canceled).imp id fun ⟨j, member⟩ =>
        ⟨j, (Multiset.mem_cons.mp member).resolve_left nofun⟩
      cancels := fun j member => by
        have suspended := tidy.cancels j (Multiset.mem_cons_of_mem member)
        rw [submitting] at suspended
        cases suspended
      submits := by
        change submitCall .submitted + weight submitCall others = 1 at one
        change weight submitCall others = 0
        have counted : submitCall .submitted = 1 := rfl
        omega
      previous := fun _ _ => rfl
      uncrashed := fun member => tidy.uncrashed (Multiset.mem_cons_of_mem member)
      alive := tidy.alive
      asserts := tidy.asserts }
  · rename_i elsewhere
    exfalso
    cases at_phase : s.phase with
    | submitting k => exact elsewhere k at_phase
    | _ =>
      rw [at_phase] at one
      simp [submitCall, Phase.submits] at one

/-- A coroutine that is suspended and not being submitted is resumed. -/
theorem Tidy.resume {aborted : ℕ → Bool} {queue : List ℕ} (suspended : s.phase = .suspended k)
    (alone : s.previous = false) (plain : ∀ other ∈ above, Plain other) (alive : s.dangling = false)
    (asserts : s.assertFailed = false)
    (aborting : s.canceled = true → s.unwinding = true ∨ aborted k = true) :
    Tidy (runCoroutine { s with aborted, queue }).1
      (↑(runCoroutine { s with aborted, queue }).2 + above) := by
  simp only [runCoroutine, suspended, alone, Bool.false_eq_true, if_false]
  obtain ⟨phase, canceled, -, -, -, -, -, -, -, -, -, unwinding⟩ := awaitReturns_frame k { s with
    aborted, queue, phase := .running, resumed := Function.update s.resumed k (s.resumed k + 1) }
  have frame : (awaitReturns k { s with
      aborted, queue, phase := .running
      resumed := Function.update s.resumed k (s.resumed k + 1) }).dangling = s.dangling ∧
      (awaitReturns k { s with
        aborted, queue, phase := .running
        resumed := Function.update s.resumed k (s.resumed k + 1) }).assertFailed =
        s.assertFailed := by
    unfold awaitReturns
    dsimp only
    split
    · exact ⟨rfl, rfl⟩
    · split <;> exact ⟨rfl, rfl⟩
  rw [alone] at phase canceled unwinding frame
  refine Tidy.of_plain ?_ plain ?_ (by simp [cancelCall]) ?_ ?_ ?_
  · intro flagged
    rw [canceled] at flagged
    rw [unwinding]
    exact Bool.or_eq_true_iff.mpr (aborting flagged)
  · rw [phase]
    rfl
  · intro j again
    rw [phase] at again
    cases again
  · exact frame.1.trans alive
  · exact frame.2.trans asserts

theorem cancelAwait_tidy (sane : Sane s (.cancelAwait k ::ₘ others))
    (tidy : Tidy s (.cancelAwait k ::ₘ others)) :
    Tidy (cancelAwait k s).1 (↑(cancelAwait k s).2 + others) := by
  have suspended := tidy.cancels k (Multiset.mem_cons_self _ _)
  have quiet := tidy.submits
  rw [suspended, weight_cons] at quiet
  apply Tidy.resume suspended (tidy.previous k suspended) _ tidy.alive tidy.asserts
  · exact fun _ => Or.inr (Function.update_self ..)
  · intro other member
    have low := measure_le_weight submitCall member
    refine ⟨?_, by simp only [Phase.submits] at quiet; omega, ?_⟩
    · rcases sane.others_neutral (Or.inr rfl) other member with rfl | rfl <;> rfl
    · rintro rfl
      exact tidy.uncrashed (Multiset.mem_cons_of_mem member)

theorem continuation_tidy (sane : Sane s 0) (tidy : Tidy s 0) (listed : k ∈ s.queue) :
    Tidy (continuation k { s with queue := s.queue.erase k }).1
      ↑(continuation k { s with queue := s.queue.erase k }).2 := by
  unfold continuation
  split
  · exact ⟨tidy.canceled, tidy.cancels, tidy.submits, tidy.previous, tidy.uncrashed, tidy.alive,
      tidy.asserts⟩
  · rename_i alive
    have awaits : s.phase.awaiting = some k := (sane.awaits.queue k listed).resolve_left alive
    have suspended : s.phase = .suspended k := by
      cases at_phase : s.phase with
      | suspended j =>
        rw [at_phase] at awaits
        rw [Option.some.inj awaits]
      | submitting j =>
        have due := tidy.submits
        rw [at_phase] at due
        cases due
      | _ => rw [at_phase] at awaits; cases awaits
    rw [if_pos (Or.inl suspended)]
    have resumed : Tidy (runCoroutine { s with queue := s.queue.erase k }).1
        (↑(runCoroutine { s with queue := s.queue.erase k }).2 + 0) := by
      apply Tidy.resume suspended (tidy.previous k suspended) (by simp) tidy.alive tidy.asserts
      intro canceled
      rcases tidy.canceled canceled with unwinding | ⟨j, member⟩
      · exact Or.inl unwinding
      · cases member
    simpa using resumed

theorem above_tidy {thread : ℕ} (sane : Sane s (call ::ₘ others)) (tidy : Tidy s (call ::ₘ others))
    (timely : RequestsSuspended s call choice) (ran : exec thread choice s call = some (s', calls)) :
    Tidy s' (↑calls + others) := by
  cases call with
  | user => exact user_tidy sane tidy timely ran
  | body => exact body_tidy sane tidy timely ran
  | exitCoroutine | resumeWork =>
    have phase : s.phase = _ := sane.fits _ (Multiset.mem_cons_self _ _)
    have idle : s.phase.awaiting = none := by rw [phase]; rfl
    cases ran
    refine Tidy.of_plain (fun canceled => ?_) (tidy.plain idle) rfl (by simp [cancelCall])
      (by simp) tidy.alive tidy.asserts
    rcases tidy.canceled canceled with unwinding | ⟨k, member⟩
    · exact unwinding
    · exact absurd member (tidy.apart idle k)
  | submitted =>
    cases ran
    simpa using submitted_tidy tidy
  | cancelAwait k =>
    have made : cancelAwait k s = (s', calls) := Option.some.inj ran
    have stepped := cancelAwait_tidy sane tidy
    rwa [made] at stepped
  | executor | crashed => exact (sane.fits _ (Multiset.mem_cons_self _ _)).elim

theorem executor_tidy (sane : Sane s 0) (tidy : Tidy s 0)
    (ran : executor s choice = some (s', calls)) :
    ∃ above : List CoroutineCall, calls = above ++ [.executor] ∧ Sane s' ↑above ∧ Tidy s' ↑above := by
  cases choice with
  | task =>
    cases ran
    refine ⟨[.user], rfl, ?_, ?_⟩
    · simpa using sane.user
    · simpa using tidy.user
  | continuation k =>
    simp only [executor] at ran
    split at ran
    · rename_i listed
      have stepped := continuation_tidy sane tidy listed
      generalize continued : continuation k { s with queue := s.queue.erase k } = next at ran stepped
      obtain ⟨after, inside⟩ := next
      cases ran
      refine ⟨inside, rfl, ?_, stepped⟩
      rcases continuation_step sane listed continued with resumed | ⟨-, rfl, -⟩
      · exact resumed
      · exact (stepped.uncrashed (by simp)).elim
    · cases ran
  | _ => cases ran

/-- The executor, and above it what one task does. -/
def Orderly (s : State) (agenda : List CoroutineCall) : Prop :=
  ∃ above : List CoroutineCall, agenda = above ++ [.executor] ∧ Sane s ↑above ∧ Tidy s ↑above

theorem orderly_step {thread : ℕ} (orderly : Orderly s (call :: rest))
    (timely : RequestsSuspended s call choice)
    (ran : exec thread choice s call = some (s', calls)) : Orderly s' (calls ++ rest) := by
  obtain ⟨above, agenda, sane, tidy⟩ := orderly
  cases above with
  | nil =>
    cases agenda
    rw [List.append_nil]
    exact executor_tidy sane tidy ran
  | cons head above =>
    cases agenda
    rw [← Multiset.cons_coe] at sane tidy
    have tidy' := above_tidy sane tidy timely ran
    rcases above_step sane (tidy.awaitsUncanceled sane ran) ran with sane' | ⟨rfl, -⟩
    · exact ⟨calls ++ above, by simp, by simpa using sane', by simpa using tidy'⟩
    · exact (tidy'.uncrashed (by simp)).elim

theorem tidy_start (isSender : ℕ → Bool) : Tidy { isSender } 0 where
  canceled := nofun
  cancels := by simp
  submits := rfl
  previous := fun _ suspended => nomatch suspended
  uncrashed := by simp
  alive := rfl
  asserts := rfl

/-- **A coroutine reports exactly one outcome** in every run in which cancelation is
only requested while it is suspended, and not by the `submit` of what it awaits. -/
theorem reportsOnce_of_requestsSuspended
    (reached : Reachable exec RequestsSuspended (start isSender) config) :
    ReportsOnce config.state := by
  have initial : Orderly { isSender } [.executor] :=
    ⟨[], rfl, sane_start isSender, tidy_start isSender⟩
  obtain ⟨agenda, -, above, -, sane, tidy⟩ := reached.invariant_agenda Orderly initial
    fun _ _ _ _ _ _ _ orderly timely ran => orderly_step orderly timely ran
  exact reportsOnce_of_tidy sane tidy

/-- The condition can be checked. -/
def requestsSuspended (s : State) (_ : CoroutineCall) (choice : Choice) : Bool :=
  match choice, s.phase with
  | .requestCancel, .suspended _ => true
  | .requestCancel, _ => false
  | _, _ => true

theorem requestsSuspended_sound (s : State) (call : CoroutineCall) (choice : Choice)
    (checked : requestsSuspended s call choice = true) : RequestsSuspended s call choice := by
  rintro rfl
  cases at_phase : s.phase with
  | suspended k => exact ⟨k, rfl⟩
  | _ => simp [requestsSuspended, at_phase] at checked

/-- A sender has signalled, and its continuation was posted, when the coroutine that
awaits it is canceled.  The continuation runs after that. -/
theorem reportsOnce_posted : ∃ config : Config State CoroutineCall,
    ReportsOnce config.state ∧ config.state.signals = [.done] ∧ config.state.resolved 0 = true ∧
      config.state.queue = [] := by
  have ran : ((start fun _ => true).runWithin exec requestsSuspended
      [(0, .task), (0, .submit false), (0, .awaitSender 0), (0, .return), (0, .return),
        (0, .resolve 0), (0, .requestCancel), (0, .return), (0, .return), (0, .finish .aborted),
        (0, .return), (0, .return), (0, .return), (0, .continuation 0)]).map (fun config =>
      decide (config.state.signals = [.done] ∧ config.state.resolved 0 = true ∧
        config.state.queue = [])) = some true := by decide
  obtain ⟨config, reached, holds⟩ := reachable_of_replay_within requestsSuspended_sound _ _ ran
  exact ⟨config, reportsOnce_of_requestsSuspended reached, of_decide_eq_true holds⟩

/-- A check of the moments at which the coroutine has switched out. -/
def requestsSwitchedOut (s : State) (_ : CoroutineCall) (choice : Choice) : Bool :=
  choice != .requestCancel || s.phase.awaiting.isSome

theorem requestsSwitchedOut_sound (s : State) (call : CoroutineCall) (choice : Choice)
    (checked : requestsSwitchedOut s call choice = true) : RequestsSwitchedOut s call choice := by
  rintro rfl awaits
  simp [requestsSwitchedOut, awaits] at checked

/-- A coroutine that was started by another one awaits a sender whose `submit` cancels
it: the assertion of `run_coroutine` fails, and the receiver gets nothing. -/
theorem cancel_in_submit_fails : ∃ config : Config State CoroutineCall,
    Reachable exec RequestsSwitchedOut (start fun _ => true) config ∧
      config.state.signals = [] ∧ config.call 0 = some .crashed ∧ ¬ ReportsOnce config.state := by
  have ran : ((start fun _ => true).runWithin exec requestsSwitchedOut
      [(0, .task), (0, .submit true), (0, .awaitSender 0), (0, .requestCancel), (0, .return),
        (0, .return)]).map (fun config =>
      decide (config.state.signals = [] ∧ config.call 0 = some .crashed ∧
        config.state.assertFailed = true)) = some true := by decide
  obtain ⟨config, reached, holds⟩ := reachable_of_replay_within requestsSwitchedOut_sound _ _ ran
  obtain ⟨silent, crashed, failed⟩ := of_decide_eq_true holds
  refine ⟨config, reached, silent, crashed, fun right => ?_⟩
  rw [right.asserts] at failed
  cases failed

/-- Without another coroutine around it is run to its end and deleted, and
`run_coroutine` writes to it after that. -/
theorem cancel_in_submit_writes : ∃ config : Config State CoroutineCall,
    Reachable exec RequestsSwitchedOut (start fun _ => true) config ∧
      config.state.phase = .deleted ∧ config.state.dangling = true := by
  have ran : ((start fun _ => true).runWithin exec requestsSwitchedOut
      [(0, .task), (0, .submit false), (0, .awaitSender 0), (0, .requestCancel), (0, .return),
        (0, .return), (0, .finish .aborted), (0, .return), (0, .return), (0, .return),
        (0, .return)]).map (fun config =>
      decide (config.state.phase = .deleted ∧ config.state.dangling = true)) = some true := by decide
  obtain ⟨config, reached, holds⟩ := reachable_of_replay_within requestsSwitchedOut_sound _ _ ran
  exact ⟨config, reached, of_decide_eq_true holds⟩

end Tconcurrent.StackfulCoroutine
