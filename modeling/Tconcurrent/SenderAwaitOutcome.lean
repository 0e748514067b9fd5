import Tconcurrent.SenderAwait

/-! The coroutine is resumed once with the outcome of each sender, unless a `submit` throws.

What is in the queue of the executor is about the await that the coroutine is suspended
in, and is there as soon as what is awaited has signalled. -/
namespace Tconcurrent.SenderAwait
open Interleaving

variable {α ε : Type} {s s' : State α ε} {calls above : List AwaitCall} {call : AwaitCall}
  {choice : Choice α ε} {k : ℕ}

namespace Phase

/-- The await that has not ended. -/
def awaiting : Phase → Option ℕ
  | submitting k => some k
  | suspended k => some k
  | _ => none

/-- The call of the coroutine that is being made. -/
def frame : Phase → List AwaitCall
  | running => [.body]
  | dispatched => [.resumeWork]
  | submitting k => [.submitting k]
  | signalling => [.exitCoroutine]
  | _ => []

def finished : Phase → Bool
  | signalling => true
  | deleted => true
  | _ => false

end Phase

/-- What an await should end with: what was signalled, or what `submit` has thrown. -/
def OutcomeOf (s : State α ε) (k : ℕ) (outcome : Outcome α ε) : Prop :=
  (∃ signal, s.sent k = some signal ∧ outcome = signal.outcome) ∨
    ∃ e, s.threw k = some e ∧ outcome = .threw e

/-- The coroutine is resumed exactly once for each sender, with its outcome. -/
structure ResumesOnce (s : State α ε) : Prop where
  outcomes : ∀ entry ∈ s.history, OutcomeOf s entry.1 entry.2
  once : ∀ k, s.isSender k = true →
    s.resumed k ≤ 1 ∧ (s.history.map Prod.fst).count k = s.resumed k
  /-- It stays suspended only until its sender has signalled or thrown.  Then the executor
  can resume it, and the await ends with the outcome. -/
  resumes : ∀ k, s.phase = .suspended k → (s.sent k).isSome ∨ (s.threw k).isSome →
    ∃ outcome s', OutcomeOf s k outcome ∧
      executor s .continuation = some (s', [.body, .executor]) ∧
      s'.phase = .running ∧ s'.history = s.history ++ [(k, outcome)]
  /-- Its receiver is signalled by nobody else. -/
  alone : s.ended = none → s.signals = []
  badResume : s.badResume = false
  assertFailed : s.assertFailed = false

/-- No `submit` of an awaited sender throws. -/
def SubmitReturns (_ : State α ε) (_ : AwaitCall) (choice : Choice α ε) : Prop :=
  ∀ e, choice ≠ .throw e

/-- The continuation of the await that has not ended, once it is due. -/
def due (s : State α ε) : List (ℕ × Outcome α ε) :=
  match s.phase.awaiting with
  | some k => ((s.sent k).map fun signal => (k, signal.outcome)).toList
  | none => []

structure Sane (s : State α ε) : Prop where
  unthrown : ∀ k, s.threw k = none
  awaiting : ∀ k, s.phase.awaiting = some k →
    s.used k = true ∧ s.registered k = true ∧ s.resumed k = 0
  fresh : ∀ k, s.used k = false →
    s.registered k = false ∧ s.resumed k = 0 ∧ k ∉ s.history.map Prod.fst
  waits : ∀ k, s.registered k = true → s.sent k = none → s.phase.awaiting = some k
  unsent : ∀ k, s.isSender k = true → s.registered k = false → s.sent k = none
  queue : s.queue = due s
  outcomes : ∀ entry ∈ s.history, ∃ signal, s.sent entry.1 = some signal ∧ entry.2 = signal.outcome
  resumed : ∀ k, s.resumed k ≤ 1
  counted : ∀ k, s.isSender k = true → (s.history.map Prod.fst).count k = s.resumed k
  previous : s.previous = true → s.phase.frame ≠ []
  ended : s.ended.isSome = s.phase.finished
  signals : s.signals = (s.ended.map signalOf).toList
  badResume : s.badResume = false
  assertFailed : s.assertFailed = false

/-! ## What is on the agenda -/

/-- Above the loop of the executor there is user code and, at most once, the coroutine. -/
def Above (s : State α ε) (above : List AwaitCall) : Prop :=
  above.filter (· ≠ .user) = s.phase.frame

theorem Phase.frame_tail {phase : Phase} (current : phase.frame = call :: above) : above = [] := by
  cases phase with
  | running | dispatched | submitting | signalling =>
    exact (List.cons.inj current).2.symm
  | unsubmitted | suspended | deleted => cases current

theorem Above.user (placed : Above s (.user :: above)) : Above s above := by
  simpa [Above] using placed

/-- Under the coroutine there is only user code. -/
theorem Above.own (placed : Above s (call :: above)) (own : call ≠ .user) :
    s.phase.frame = [call] ∧ above.filter (· ≠ .user) = [] := by
  rw [Above, List.filter_cons_of_pos (by simpa using own)] at placed
  have alone := Phase.frame_tail placed.symm
  rw [alone] at placed
  exact ⟨placed.symm, alone⟩

/-- `submit` runs while the coroutine is switched out for it. -/
theorem Above.submitting (placed : Above s (.submitting k :: above)) :
    s.phase = .submitting k := by
  obtain ⟨framed, -⟩ := placed.own (by simp)
  cases phase : s.phase with
  | submitting j =>
    simp only [phase, Phase.frame, List.cons.injEq, AwaitCall.submitting.injEq, and_true] at framed
    rw [framed]
  | _ => simp [phase, Phase.frame] at framed

theorem Above.append (calm : above.filter (· ≠ .user) = [])
    (made : calls.filter (· ≠ .user) = s.phase.frame) : Above s (calls ++ above) := by
  rw [Above, List.filter_append, calm, made, List.append_nil]

/-! ## The operations -/

theorem signal_eq {sent : Signal α ε} (ran : signal k sent s = some s') :
    s.sent k = none ∧ (s.isSender k = true → s.registered k = true) ∧
      s' = { s with
        sent := Function.update s.sent k (some sent)
        queue := if s.registered k then s.queue ++ [(k, sent.outcome)] else s.queue } := by
  unfold signal at ran
  split at ran
  · cases ran
  · rename_i unsent
    push Not at unsent
    obtain rfl := Option.some.inj ran
    refine ⟨by simpa using unsent.1, by simpa using unsent.2.2, ?_⟩
    split
    · rfl
    · rfl

theorem signal_phase {sent : Signal α ε} (ran : signal k sent s = some s') :
    s'.phase = s.phase := by
  rw [(signal_eq ran).2.2]

/-- A signal is posted if the coroutine is waiting for it. -/
theorem Sane.signal {sent : Signal α ε} (sane : Sane s) (ran : signal k sent s = some s') :
    Sane s' := by
  obtain ⟨unsent, allowed, rfl⟩ := signal_eq ran
  refine { sane with waits := ?_, unsent := ?_, queue := ?_, outcomes := ?_ }
  · intro j registered missing
    by_cases same : j = k
    · subst same
      simp at missing
    · exact sane.waits j registered (by simpa [Function.update_of_ne same] using missing)
  · intro j sender unregistered
    have other : j ≠ k := by
      rintro rfl
      rw [allowed sender] at unregistered
      cases unregistered
    exact (Function.update_of_ne other _ _).trans (sane.unsent j sender unregistered)
  · cases registered : s.registered k with
    | true =>
      have current := sane.waits k registered unsent
      simp only [if_true, sane.queue, due, current, unsent, Function.update_self]
      rfl
    | false =>
      simp only [Bool.false_eq_true, if_false, sane.queue, due]
      cases current : s.phase.awaiting with
      | none => rfl
      | some j =>
        have other : j ≠ k := by
          rintro rfl
          rw [(sane.awaiting j current).2.1] at registered
          cases registered
        simp only [Function.update_of_ne other]
  · intro entry member
    obtain ⟨signal, held, same⟩ := sane.outcomes entry member
    have other : entry.1 ≠ k := by
      intro equal
      rw [equal, unsent] at held
      cases held
    exact ⟨signal, (Function.update_of_ne other _ _).trans held, same⟩

/-- The coroutine ends or begins something that is not an await. -/
theorem Sane.move (sane : Sane s) (phase : Phase) (apart : s.phase.awaiting = none)
    (inside : phase.awaiting = none) (framed : phase.frame ≠ [])
    (going : phase.finished = s.phase.finished) : Sane { s with phase } := by
  refine { sane with
    awaiting := ?_, waits := ?_, queue := ?_, previous := fun _ => framed, ended := ?_ }
  · intro k current
    rw [inside] at current
    cases current
  · intro k registered missing
    rw [sane.waits k registered missing] at apart
    cases apart
  · rw [sane.queue, due, due, apart, inside]
  · rw [going]
    exact sane.ended

/-- An await is over, or its outcome is known at once. -/
theorem Sane.earlyReturn {sent : Signal α ε} (sane : Sane s) (future : s.isSender k = false)
    (unused : s.used k = false) (ready : s.sent k = some sent) :
    Sane { s with
      used := Function.update s.used k true
      history := s.history ++ [(k, sent.outcome)] } := by
  refine { sane with awaiting := ?_, fresh := ?_, outcomes := ?_, counted := ?_ }
  · intro j current
    obtain ⟨used, rest⟩ := sane.awaiting j current
    have other : j ≠ k := by
      rintro rfl
      rw [unused] at used
      cases used
    exact ⟨(Function.update_of_ne other _ _).trans used, rest⟩
  · intro j untouched
    have other : j ≠ k := by
      rintro rfl
      simp at untouched
    obtain ⟨silent, once, absent⟩ := sane.fresh j (by simpa [other] using untouched)
    refine ⟨silent, once, ?_⟩
    simpa [other] using absent
  · intro entry member
    rcases List.mem_append.mp member with member | member
    · exact sane.outcomes entry member
    · obtain rfl := List.mem_singleton.mp member
      exact ⟨sent, ready, rfl⟩
  · intro j sender
    have other : k ≠ j := by
      rintro rfl
      rw [future] at sender
      cases sender
    have same := sane.counted j sender
    simpa [List.count_append, List.count_singleton, other] using same

/-- An await begins. -/
theorem Sane.begin (sane : Sane s) (phase : Phase) (previous : Bool)
    (current : s.phase = .running) (unused : s.used k = false) (begins : phase.awaiting = some k)
    (going : phase.finished = false) (framed : previous = true → phase.frame ≠ []) :
    Sane { s with
      used := Function.update s.used k true
      registered := Function.update s.registered k true
      phase
      previous
      queue := ((s.sent k).map fun signal => (k, signal.outcome)).toList } := by
  obtain ⟨unregistered, never, absent⟩ := sane.fresh k unused
  refine { sane with
    awaiting := ?_, fresh := ?_, waits := ?_, unsent := ?_, queue := ?_, previous := framed, ended := ?_ }
  · intro j awaited
    obtain rfl := Option.some.inj (begins.symm.trans awaited)
    exact ⟨Function.update_self .., Function.update_self .., never⟩
  · intro j untouched
    have other : j ≠ k := by
      rintro rfl
      simp at untouched
    obtain ⟨silent, rest⟩ := sane.fresh j (by simpa [other] using untouched)
    exact ⟨(Function.update_of_ne other _ _).trans silent, rest⟩
  · intro j registered missing
    by_cases same : j = k
    · rw [same]
      exact begins
    · have before := sane.waits j (by simpa [same] using registered) missing
      rw [current] at before
      cases before
  · intro j sender silent
    have other : j ≠ k := by
      rintro rfl
      simp at silent
    exact sane.unsent j sender (by simpa [other] using silent)
  · simp only [due, begins]
  · rw [going, sane.ended, current]
    rfl

/-- The coroutine switches out, and `run_coroutine` returns or submits a sender. -/
theorem Sane.await (sane : Sane s) (early : Bool) (current : s.phase = .running)
    (unused : s.used k = false) :
    Sane (await k early s).1 ∧ (await k early s).2 = (await k early s).1.phase.frame := by
  have empty : s.queue = [] := by rw [sane.queue, due, current]; rfl
  unfold SenderAwait.await
  simp only
  split
  · rename_i sent early ready
    have future : s.isSender k = false := by
      cases sender : s.isSender k with
      | true => simp [sender] at early
      | false => rfl
    refine ⟨sane.earlyReturn future unused ready, ?_⟩
    rw [current]
    rfl
  · unfold suspend
    simp only [empty, List.nil_append]
    split
    · rename_i sender
      have missing := sane.unsent k sender (sane.fresh k unused).1
      refine ⟨?_, rfl⟩
      have begun := sane.begin (.submitting k) s.previous current unused rfl rfl
        (fun _ => List.cons_ne_nil _ _)
      simpa [missing, empty] using begun
    · have begun := sane.begin (.suspended k) false current unused rfl rfl
        (fun bad => by cases bad)
      split
      · rename_i sent ready
        rw [ready] at begun
        exact ⟨begun, rfl⟩
      · rename_i missing
        rw [missing] at begun
        exact ⟨by simpa [empty] using begun, rfl⟩

/-- `submit` returns. -/
theorem Sane.submitted (sane : Sane s) (current : s.phase = .submitting k) :
    Sane { s with phase := .suspended k, previous := false } := by
  have same : s.phase.awaiting = (Phase.suspended k).awaiting := by rw [current]; rfl
  refine { sane with
    awaiting := ?_, waits := ?_, queue := ?_, previous := fun bad => (by cases bad), ended := ?_ }
  · rw [← same]
    exact sane.awaiting
  · rw [← same]
    exact sane.waits
  · rw [sane.queue, due, due, same]
  · rw [sane.ended, current]
    rfl

/-- What the loop of the executor finds in the queue resumes the coroutine. -/
theorem Sane.resume {outcome : Outcome α ε} {rest : List (ℕ × Outcome α ε)} (sane : Sane s)
    (outside : s.phase.frame = []) (posted : s.queue = (k, outcome) :: rest) :
    ∃ s', runCoroutine k outcome { s with queue := rest } = (s', [.body]) ∧ Sane s' ∧
      s'.phase = .running ∧ s'.history = s.history ++ [(k, outcome)] := by
  have current : s.phase = .suspended k := by
    rw [sane.queue, due] at posted
    cases phase : s.phase with
    | suspended j =>
      rw [phase] at posted
      cases ready : s.sent j with
      | none => simp [Phase.awaiting, ready] at posted
      | some sent =>
        simp only [Phase.awaiting, ready, Option.map_some, Option.toList_some, List.cons.injEq,
          Prod.mk.injEq] at posted
        rw [posted.1.1]
    | submitting | running | dispatched | signalling => simp [phase, Phase.frame] at outside
    | unsubmitted | deleted => simp [phase, Phase.awaiting] at posted
  have awaited : s.phase.awaiting = some k := by rw [current]; rfl
  obtain ⟨used, registered, never⟩ := sane.awaiting k awaited
  have due_now := sane.queue
  rw [posted, due, awaited] at due_now
  cases ready : s.sent k with
  | none => simp [ready] at due_now
  | some sent =>
    simp only [ready, Option.map_some, Option.toList_some, List.cons.injEq, Prod.mk.injEq,
      true_and] at due_now
    obtain ⟨rfl, rfl⟩ := due_now
    have free : s.previous = false := by
      cases set : s.previous with
      | false => rfl
      | true => exact absurd outside (sane.previous set)
    refine ⟨_, by rw [runCoroutine, if_neg (by simp [free]), if_pos (Or.inl current)], ?_, rfl, rfl⟩
    refine { sane with
      awaiting := fun j bad => (by cases bad)
      fresh := ?_, waits := ?_, queue := rfl, outcomes := ?_, resumed := ?_, counted := ?_
      previous := fun _ => List.cons_ne_nil _ _, ended := ?_ }
    · intro j untouched
      have other : j ≠ k := by
        rintro rfl
        rw [used] at untouched
        cases untouched
      obtain ⟨silent, none_yet, absent⟩ := sane.fresh j untouched
      refine ⟨silent, (Function.update_of_ne other _ _).trans none_yet, ?_⟩
      simpa [other] using absent
    · intro j silent missing
      have before := sane.waits j silent missing
      rw [awaited] at before
      obtain rfl := Option.some.inj before
      rw [ready] at missing
      cases missing
    · intro entry member
      rcases List.mem_append.mp member with member | member
      · exact sane.outcomes entry member
      · obtain rfl := List.mem_singleton.mp member
        exact ⟨sent, ready, rfl⟩
    · intro j
      by_cases same : j = k
      · simp [same, never]
      · simpa [same] using sane.resumed j
    · intro j sender
      have before := sane.counted j sender
      by_cases same : j = k
      · subst same
        simp [List.count_append, before, never]
      · simpa [List.count_append, List.count_singleton, same, Ne.symm same] using before
    · rw [sane.ended, current]
      rfl

/-! ## Every step -/

theorem Sane.finish (sane : Sane s) (current : s.phase = .running) (ending : Outcome α ε) :
    Sane (finishBody ending s).1 := by
  have unended : s.ended = none := by
    have going : s.ended.isSome = false := by
      rw [sane.ended, current]
      rfl
    simpa using going
  have moved := sane.queue
  rw [due, current] at moved
  refine { sane with
    awaiting := fun j bad => (by cases bad), waits := ?_, queue := moved
    previous := fun _ => List.cons_ne_nil _ _, ended := rfl, signals := ?_ }
  · intro k registered missing
    have before := sane.waits k registered missing
    rw [current] at before
    cases before
  · simp only [finishBody, sane.signals, unended]
    rfl

theorem body_step (sane : Sane s) (placed : Above s (.body :: above))
    (ran : body s choice = some (s', calls)) : Sane s' ∧ Above s' (calls ++ above) := by
  obtain ⟨framed, calm⟩ := placed.own (by simp)
  have current : s.phase = .running := by
    cases phase : s.phase with
    | running => rfl
    | _ => simp [phase, Phase.frame] at framed
  cases choice with
  | signal k sent =>
    obtain ⟨next, signaled, same⟩ := Option.map_eq_some_iff.mp ran
    cases same
    refine ⟨sane.signal signaled, Above.append calm ?_⟩
    rw [signal_phase signaled, current]
    rfl
  | await k early =>
    simp only [body] at ran
    split at ran
    · cases ran
    · rename_i unused
      obtain ⟨after, frame⟩ := sane.await early current (by simpa using unused)
      rw [Option.some.inj ran] at after frame
      refine ⟨after, Above.append calm ?_⟩
      have own : ∀ call ∈ s'.phase.frame, call ≠ .user := by
        cases s'.phase <;> simp [Phase.frame]
      rw [show calls = s'.phase.frame from frame]
      exact List.filter_eq_self.mpr fun call member => by simpa using own call member
  | dispatch =>
    obtain ⟨rfl, rfl⟩ := Prod.mk.inj (Option.some.inj ran)
    refine ⟨sane.move .dispatched (by rw [current]; rfl) rfl (List.cons_ne_nil _ _)
      (by rw [current]; rfl), ?_⟩
    exact Above.append calm rfl
  | finish ending =>
    obtain ⟨rfl, rfl⟩ := Prod.mk.inj (Option.some.inj ran)
    exact ⟨sane.finish current ending, Above.append calm rfl⟩
  | «return» | throw | task | continuation | submit => cases ran

theorem submitting_step (sane : Sane s) (placed : Above s (.submitting k :: above))
    (returns : ∀ e, choice ≠ .throw e) (ran : submitting k s choice = some (s', calls)) :
    Sane s' ∧ Above s' (calls ++ above) := by
  obtain ⟨-, calm⟩ := placed.own (by simp)
  have current := placed.submitting
  cases choice with
  | signal j sent =>
    obtain ⟨next, signaled, same⟩ := Option.map_eq_some_iff.mp ran
    cases same
    refine ⟨sane.signal signaled, Above.append calm ?_⟩
    rw [signal_phase signaled, current]
    rfl
  | «return» =>
    obtain ⟨rfl, rfl⟩ := Prod.mk.inj (Option.some.inj ran)
    exact ⟨sane.submitted current, Above.append calm rfl⟩
  | throw e => exact absurd rfl (returns e)
  | task | continuation | submit | await | dispatch | finish => cases ran

theorem user_step (sane : Sane s) (placed : Above s (.user :: above))
    (ran : user s choice = some (s', calls)) : Sane s' ∧ Above s' (calls ++ above) := by
  cases choice with
  | «return» =>
    obtain ⟨rfl, rfl⟩ := Prod.mk.inj (Option.some.inj ran)
    exact ⟨sane, placed.user⟩
  | submit connected nested =>
    simp only [user] at ran
    split at ran
    · rename_i unsubmitted
      obtain ⟨rfl, rfl⟩ := Prod.mk.inj (Option.some.inj ran)
      have calm := placed.user
      rw [Above, unsubmitted] at calm
      have moved := sane.move .running (by rw [unsubmitted]; rfl) rfl (List.cons_ne_nil _ _)
        (by rw [unsubmitted]; rfl)
      refine ⟨{ moved with previous := fun _ => List.cons_ne_nil _ _ }, ?_⟩
      rw [Above, List.cons_append, List.cons_append, List.nil_append, List.filter_cons_of_pos (by simp),
        List.filter_cons_of_neg (by simp), calm]
      rfl
    · cases ran
  | signal k sent =>
    obtain ⟨next, signaled, same⟩ := Option.map_eq_some_iff.mp ran
    cases same
    refine ⟨sane.signal signaled, ?_⟩
    rw [List.singleton_append, Above, signal_phase signaled]
    exact placed
  | throw | task | continuation | await | dispatch | finish => cases ran

theorem resumeWork_step (sane : Sane s) (placed : Above s (.resumeWork :: above)) :
    Sane { s with phase := .running } ∧ Above { s with phase := .running } (.body :: above) := by
  obtain ⟨framed, calm⟩ := placed.own (by simp)
  have current : s.phase = .dispatched := by
    cases phase : s.phase with
    | dispatched => rfl
    | _ => simp [phase, Phase.frame] at framed
  refine ⟨sane.move .running (by rw [current]; rfl) rfl (List.cons_ne_nil _ _)
    (by rw [current]; rfl), ?_⟩
  have made : ([.body] : List AwaitCall).filter (· ≠ .user) = Phase.running.frame := rfl
  exact Above.append (s := { s with phase := .running }) calm made

theorem exitCoroutine_step (sane : Sane s) (placed : Above s (.exitCoroutine :: above)) :
    Sane { s with phase := .deleted, previous := false } ∧
      Above { s with phase := .deleted, previous := false } above := by
  obtain ⟨framed, calm⟩ := placed.own (by simp)
  have current : s.phase = .signalling := by
    cases phase : s.phase with
    | signalling => rfl
    | _ => simp [phase, Phase.frame] at framed
  have moved := sane.queue
  rw [due, current] at moved
  refine ⟨{ sane with
    awaiting := fun j bad => (by cases bad), waits := ?_, queue := moved
    previous := fun bad => (by cases bad), ended := ?_ }, calm⟩
  · intro k registered missing
    have before := sane.waits k registered missing
    rw [current] at before
    cases before
  · rw [sane.ended, current]
    rfl

/-- What is on the thread of the executor, and on the others. -/
def Placed (thread : ℕ) (s : State α ε) (agenda : List AwaitCall) : Prop :=
  if thread = 0 then ∃ above, agenda = above ++ [.executor] ∧ Above s above
  else agenda = [.outside]

theorem above_step (sane : Sane s) (placed : Above s (call :: above))
    (returns : ∀ e, choice ≠ .throw e) (ran : exec 0 choice s call = some (s', calls)) :
    Sane s' ∧ Above s' (calls ++ above) := by
  cases call with
  | body => exact body_step sane placed ran
  | submitting k => exact submitting_step sane placed returns ran
  | user => exact user_step sane placed ran
  | resumeWork =>
    obtain ⟨rfl, rfl⟩ := Prod.mk.inj (Option.some.inj ran)
    exact resumeWork_step sane placed
  | exitCoroutine =>
    obtain ⟨rfl, rfl⟩ := Prod.mk.inj (Option.some.inj ran)
    exact exitCoroutine_step sane placed
  | executor | outside =>
    obtain ⟨framed, -⟩ := placed.own (by simp)
    cases phase : s.phase <;> simp [phase, Phase.frame] at framed
  | crashed => cases ran

theorem executor_step (sane : Sane s) (placed : Above s [])
    (ran : executor s choice = some (s', calls)) :
    Sane s' ∧ ∃ above, calls = above ++ [.executor] ∧ Above s' above := by
  cases choice with
  | task =>
    obtain ⟨rfl, rfl⟩ := Prod.mk.inj (Option.some.inj ran)
    exact ⟨sane, [.user], rfl, placed⟩
  | continuation =>
    simp only [executor] at ran
    split at ran
    · rename_i k outcome rest posted
      obtain ⟨next, resumed, after, running, -⟩ := sane.resume placed.symm posted
      simp only [resumed] at ran
      obtain ⟨rfl, rfl⟩ := Prod.mk.inj (Option.some.inj ran)
      refine ⟨after, [.body], rfl, ?_⟩
      rw [Above, running]
      rfl
    · cases ran
  | «return» | throw | submit | signal | await | dispatch | finish => cases ran

theorem exec_step {thread : ℕ} {rest : List AwaitCall} (sane : Sane s)
    (placed : Placed thread s (call :: rest)) (returns : SubmitReturns s call choice)
    (ran : exec thread choice s call = some (s', calls)) :
    Sane s' ∧ Placed thread s' (calls ++ rest) ∧
      ∀ other ≠ thread, ∀ agenda, Placed other s agenda → Placed other s' agenda := by
  by_cases first : thread = 0
  · subst first
    have others : ∀ other ≠ 0, ∀ agenda, Placed other s agenda → Placed other s' agenda := by
      intro other apart agenda before
      rw [Placed, if_neg apart] at before ⊢
      exact before
    rw [Placed, if_pos rfl] at placed ⊢
    obtain ⟨above, split, inside⟩ := placed
    cases above with
    | nil =>
      obtain ⟨rfl, rfl⟩ := List.cons.inj split
      obtain ⟨after, above, made, placed⟩ := executor_step sane inside ran
      exact ⟨after, ⟨above, by rw [made, List.append_nil], placed⟩, others⟩
    | cons next above =>
      obtain ⟨rfl, rfl⟩ := List.cons.inj split
      obtain ⟨after, placed⟩ := above_step sane inside returns ran
      exact ⟨after, ⟨calls ++ above, (List.append_assoc _ _ _).symm, placed⟩, others⟩
  · rw [Placed, if_neg first] at placed ⊢
    obtain ⟨rfl, rfl⟩ := List.cons.inj placed
    cases choice with
    | signal k sent =>
      obtain ⟨next, signaled, same⟩ := Option.map_eq_some_iff.mp ran
      cases same
      refine ⟨sane.signal signaled, rfl, fun other apart agenda before => ?_⟩
      simp only [Placed, Above, signal_phase signaled] at before ⊢
      exact before
    | _ => cases ran

/-! ## Every run -/

theorem sane_start (isSender : ℕ → Bool) : Sane ({ isSender } : State α ε) where
  unthrown _ := rfl
  awaiting _ bad := by cases bad
  fresh _ _ := ⟨rfl, rfl, List.not_mem_nil⟩
  waits _ bad := by cases bad
  unsent _ _ _ := rfl
  queue := rfl
  outcomes _ member := absurd member List.not_mem_nil
  resumed _ := Nat.zero_le 1
  counted _ _ := rfl
  previous bad := by cases bad
  ended := rfl
  signals := rfl
  badResume := rfl
  assertFailed := rfl

theorem Sane.resumesOnce (sane : Sane s) : ResumesOnce s where
  outcomes entry member := Or.inl (sane.outcomes entry member)
  once k sender := ⟨sane.resumed k, sane.counted k sender⟩
  resumes k current ends := by
    have sent : (s.sent k).isSome := by simpa [sane.unthrown k] using ends
    obtain ⟨signal, held⟩ := Option.isSome_iff_exists.mp sent
    have posted : s.queue = [(k, signal.outcome)] := by
      rw [sane.queue, due, current]
      simp only [Phase.awaiting, held]
      rfl
    obtain ⟨next, ran, -, running, ends⟩ := sane.resume (by rw [current]; rfl) posted
    refine ⟨signal.outcome, next, Or.inl ⟨signal, held, rfl⟩, ?_, running, ends⟩
    simp only [executor, posted, ran]
    rfl
  alone unended := by
    rw [sane.signals, unended]
    rfl
  badResume := sane.badResume
  assertFailed := sane.assertFailed

theorem sane_of_reachable {isSender : ℕ → Bool} {threads : ℕ} {config : Config (State α ε) AwaitCall}
    (reached : Reachable exec SubmitReturns (start isSender threads) config) :
    Sane config.state ∧ ∀ thread agenda, config.threads[thread]? = some agenda →
      Placed thread config.state agenda := by
  refine reached.invariant_threads Sane Placed (sane_start isSender) ?_
    fun _ _ _ _ _ _ _ sane placed returns ran => exec_step sane placed returns ran
  intro thread agenda listed
  cases thread with
  | zero =>
    obtain rfl := Option.some.inj listed
    exact ⟨[], rfl, rfl⟩
  | succ thread =>
    simp only [start, List.getElem?_cons_succ] at listed
    exact List.eq_of_mem_replicate (List.mem_of_getElem? listed)

/-- **A coroutine that awaits senders is resumed once with the outcome of each**, on
every run on which no `submit` throws. -/
theorem resumesOnce_of_submitReturns (isSender : ℕ → Bool) (threads : ℕ)
    (config : Config (State α ε) AwaitCall)
    (reached : Reachable exec SubmitReturns (start isSender threads) config) :
    ResumesOnce config.state :=
  (sane_of_reachable reached).1.resumesOnce

def submitReturns (_ : State α ε) (_ : AwaitCall) : Choice α ε → Bool
  | .throw _ => false
  | _ => true

theorem submitReturns_sound (s : State α ε) (call : AwaitCall) (choice : Choice α ε)
    (checked : submitReturns s call choice = true) : SubmitReturns s call choice := by
  rintro e rfl
  cases checked

/-- A sender signals from `submit`, another thread sends an error later, and a third
sender is done. -/
theorem resumesOnce_threeSenders : ∃ config : Config (State ℕ ℕ) AwaitCall,
    ResumesOnce config.state ∧ config.state.history =
      [(0, .returned 5), (1, .threw (.other 7)), (2, .threw .operationCanceled)] ∧
      config.state.signals = [.value 9] := by
  have ran : ((start (fun _ => true) 1 : Config (State ℕ ℕ) AwaitCall).runWithin exec submitReturns
      [(0, .task), (0, .submit true false), (0, .await 0 true), (0, .signal 0 (.value 5)),
        (0, .return), (0, .return), (0, .continuation), (0, .await 1 true), (0, .return),
        (1, .signal 1 (.error (.other 7))), (0, .continuation), (0, .await 2 true),
        (0, .signal 2 .done), (0, .return), (0, .continuation),
        (0, .finish (.returned 9))]).map (fun config =>
      decide (config.state.history =
        [(0, .returned 5), (1, .threw (.other 7)), (2, .threw .operationCanceled)] ∧
        config.state.signals = [.value 9])) = some true := by decide
  obtain ⟨config, reached, holds⟩ := reachable_of_replay_within submitReturns_sound _ _ ran
  exact ⟨config, resumesOnce_of_submitReturns _ 1 config reached, of_decide_eq_true holds⟩

/-! ## When `submit` throws -/

theorem escape_same {e : Exception ε} (ran : escape e s = (s', calls)) :
    s'.phase = s.phase ∧ s'.threw = s.threw ∧ s'.queue = s.queue := by
  unfold escape at ran
  split at ran
  all_goals
    obtain ⟨rfl, -⟩ := Prod.mk.inj ran
    exact ⟨rfl, rfl, rfl⟩

/-- After a `submit` has thrown, an await is not over that nothing is posted for. -/
theorem stranded (suspended : s.phase = .suspended k) (thrown : (s.threw k).isSome = true)
    (empty : s.queue = []) : ¬ ResumesOnce s := by
  intro right
  obtain ⟨outcome, next, -, resumed, -⟩ := right.resumes k suspended (Or.inr thrown)
  simp [executor, empty] at resumed

/-- After a `submit` has thrown, the executor has nothing that would resume the coroutine. -/
theorem stranded_of_throw {isSender : ℕ → Bool} {threads thread : ℕ} {e : Exception ε}
    {config : Config (State α ε) AwaitCall} {rest : List AwaitCall}
    (reached : Reachable exec SubmitReturns (start isSender threads) config)
    (current : config.threads[thread]? = some (.submitting k :: rest))
    (thrown : submitting k config.state (.throw e) = some (s', calls)) : ¬ ResumesOnce s' := by
  obtain ⟨sane, placed⟩ := sane_of_reachable reached
  have here := placed thread _ current
  intro right
  simp only [SenderAwait.submitting] at thrown
  split at thrown
  · cases thrown
  · rename_i unsent
    obtain ⟨phase, threw, queue⟩ := escape_same (Option.some.inj thrown)
    have suspending : config.state.phase = .submitting k := by
      by_cases first : thread = 0
      · rw [Placed, if_pos first] at here
        obtain ⟨above, split, inside⟩ := here
        cases above with
        | nil => cases split
        | cons next above =>
          obtain ⟨rfl, -⟩ := List.cons.inj split
          exact inside.submitting
      · rw [Placed, if_neg first] at here
        cases here
    have empty : config.state.queue = [] := by
      have missing : config.state.sent k = none := by simpa using unsent
      rw [sane.queue, due, suspending]
      simp only [Phase.awaiting, missing]
      rfl
    exact stranded phase (by rw [threw]; simp) (by rw [queue, empty]) right

/-- A sender that throws at the first suspension, under `connect`: its receiver gets the
error while the coroutine is suspended, and nobody will resume it. -/
theorem throwing_submit_strands : ∃ config : Config (State ℕ ℕ) AwaitCall,
    Reachable exec Anything (start (fun _ => true) 0) config ∧
      config.state.phase = .suspended 0 ∧ config.state.signals = [.error (.other 7)] ∧
      ¬ ResumesOnce config.state := by
  have ran : ((start (fun _ => true) 0 : Config (State ℕ ℕ) AwaitCall).run exec
      [(0, .task), (0, .submit true false), (0, .await 0 true), (0, .throw (.other 7))]).map
        (fun config => decide (config.state.phase = .suspended 0 ∧
          config.state.signals = [.error (.other 7)] ∧ config.state.ended = none)) = some true := by
    decide
  obtain ⟨config, reached, holds⟩ := reachable_of_replay _ _ ran
  obtain ⟨suspended, signaled, unended⟩ := of_decide_eq_true holds
  refine ⟨config, reached, suspended, signaled, fun right => ?_⟩
  rw [right.alone unended] at signaled
  cases signaled

/-- Once a sender has resumed the coroutine, the error handler of the executor gets the
exception, and the receiver gets nothing. -/
theorem late_throw_is_uncaught : ∃ config : Config (State ℕ ℕ) AwaitCall,
    Reachable exec Anything (start (fun _ => true) 0) config ∧
      config.state.phase = .suspended 1 ∧ config.state.uncaught = [.other 7] ∧
      config.state.signals = [] ∧ ¬ ResumesOnce config.state := by
  have ran : ((start (fun _ => true) 0 : Config (State ℕ ℕ) AwaitCall).run exec
      [(0, .task), (0, .submit true false), (0, .await 0 true), (0, .signal 0 (.value 5)),
        (0, .return), (0, .return), (0, .continuation), (0, .await 1 true),
        (0, .throw (.other 7))]).map (fun config =>
      decide (config.state.phase = .suspended 1 ∧ config.state.uncaught = [.other 7] ∧
        config.state.signals = [] ∧ (config.state.threw 1).isSome = true ∧
        config.state.queue = [])) = some true := by decide
  obtain ⟨config, reached, holds⟩ := reachable_of_replay _ _ ran
  obtain ⟨suspended, uncaught, silent, thrown, empty⟩ := of_decide_eq_true holds
  exact ⟨config, reached, suspended, uncaught, silent, stranded suspended thrown empty⟩

/-- Once a future, or a `yield`, has resumed it, no error handler gets the exception either. -/
theorem late_throw_is_swallowed : ∃ config : Config (State ℕ ℕ) AwaitCall,
    Reachable exec Anything (start (fun k => k == 1) 0) config ∧
      config.state.phase = .suspended 1 ∧ config.state.swallowed = [.other 7] ∧
      config.state.uncaught = [] ∧ config.state.signals = [] ∧ ¬ ResumesOnce config.state := by
  have ran : ((start (fun k => k == 1) 0 : Config (State ℕ ℕ) AwaitCall).run exec
      [(0, .task), (0, .submit true false), (0, .await 0 true), (0, .signal 0 (.value 5)),
        (0, .return), (0, .continuation), (0, .await 1 true), (0, .throw (.other 7))]).map
      (fun config =>
      decide (config.state.phase = .suspended 1 ∧ config.state.swallowed = [.other 7] ∧
        config.state.uncaught = [] ∧ config.state.signals = [] ∧
        (config.state.threw 1).isSome = true ∧ config.state.queue = [])) = some true := by decide
  obtain ⟨config, reached, holds⟩ := reachable_of_replay _ _ ran
  obtain ⟨suspended, swallowed, caught, silent, thrown, empty⟩ := of_decide_eq_true holds
  exact ⟨config, reached, suspended, swallowed, caught, silent, stranded suspended thrown empty⟩

end Tconcurrent.SenderAwait
