import Tconcurrent.PackagedTask

/-! A cancelable task is run, cancelled or dropped, and the first of these decides.

The canceler holds a promise while it resolves the future.  A call of the task
holds none: the copies have to outlive the function. -/
namespace Tconcurrent.PackagedTask
open Interleaving Builtins

variable {α : Type} {s s' : State α} {calls : List TaskCall} {others : Multiset TaskCall}
  {choice : Choice α} {config : Config (State α) TaskCall}

/-- The function that is running. -/
def returns : TaskCall → ℕ
  | .functionReturn => 1
  | _ => 0

/-- The cancelation that has not resolved the future yet. -/
def cancels : TaskCall → ℕ
  | .cancelFinish => 1
  | _ => 0

/-- The promises that a canceler holds. -/
def locks : TaskCall → ℕ
  | .cancelFinish => 1
  | .dropLock => 1
  | _ => 0

/-- What may have happened to a task, with the numbers of function returns, of
cancelations and of locks that are still to come. -/
inductive Stage (s : State α) (returning cancelling held : ℕ) : Prop where
  | fresh (first : s.first = none) (isDone : s.isDone = false) (result : s.result = none)
      (runs : s.runs = 0) (returned : s.returned = none) (canceler : s.token.doCancels = [()])
      (copies : 0 < s.copies) (pending : returning = 0 ∧ cancelling = 0 ∧ held = 0)
  | running (first : s.first = some .called) (isDone : s.isDone = true) (result : s.result = none)
      (runs : s.runs = 1) (returned : s.returned = none) (canceler : s.token.doCancels = [])
      (copies : 0 < s.copies) (pending : returning = 1 ∧ cancelling = 0 ∧ held = 0)
  | returned (r : Except Exc α) (first : s.first = some .called) (isDone : s.isDone = true)
      (result : s.result = some r) (runs : s.runs = 1) (returned : s.returned = some r)
      (pending : returning = 0 ∧ cancelling = 0 ∧ held = 0)
  | cancelling (first : s.first = some .cancelled) (isDone : s.isDone = true)
      (function : s.function = false) (result : s.result = none) (runs : s.runs = 0)
      (returned : s.returned = none) (canceler : s.token.doCancels = [])
      (pending : returning = 0 ∧ cancelling = 1 ∧ held = 1)
  | cancelled (first : s.first = some .cancelled) (isDone : s.isDone = true)
      (function : s.function = false) (result : s.result = some (.error .operationCanceled))
      (runs : s.runs = 0) (returned : s.returned = none)
      (pending : returning = 0 ∧ cancelling = 0)
  | dropped (first : s.first = some .dropped) (result : s.result = some (.error .brokenPromise))
      (runs : s.runs = 0) (returned : s.returned = none) (copies : s.copies = 0)
      (pending : returning = 0 ∧ cancelling = 0 ∧ held = 0)

structure Sane (s : State α) (pending : Multiset TaskCall) : Prop where
  counted : s.promiseCount = s.copies + weight locks pending
  stage : Stage s (weight returns pending) (weight cancels pending) (weight locks pending)
  visible : s.requestedInside = true → s.token.isCancelRequested = true
  asserts : s.assertFailed = false

/-- The last copy is not destroyed while the function is running. -/
def OutlivesFunction (s : State α) (call : TaskCall) (choice : Choice α) : Prop :=
  call = .user → choice = .destroy → s.copies = 1 → ¬ s.running

/-- What came first stays first. -/
theorem happens_of {event : First} (decided : s.first ≠ none) : s.happens event = s := by
  cases before : s.first with
  | none => exact absurd before decided
  | some event' =>
    simp only [State.happens, before, Option.some_or]
    rw [← before]

theorem finish_of {r : Except Exc α} (unresolved : s.result = none) :
    finish r s = ({ s with result := some r }, [.user]) := by
  rw [finish, check_of (by rw [unresolved]; rfl)]

/-- A promise is given up that is not the last one, or of a resolved state. -/
theorem decrementPromise_of (positive : 0 < s.promiseCount)
    (harmless : s.promiseCount = 1 → s.result ≠ none) :
    decrementPromise s = ({ s with promiseCount := s.promiseCount - 1 }, []) := by
  have stays : ¬ (s.promiseCount - 1 = 0 ∧ s.result.isNone = true) := by
    rintro ⟨zero, unresolved⟩
    exact harmless (by omega) (Option.isNone_iff_eq_none.mp unresolved)
  simp only [decrementPromise, check_of positive, if_neg stays]

/-- The last promise of an unresolved state is given up. -/
theorem decrementPromise_last (one : s.promiseCount = 1) (unresolved : s.result = none) :
    decrementPromise s = ({ s with
      promiseCount := 0
      result := some (.error .brokenPromise) }, [.user]) := by
  have checked : check s (0 < s.promiseCount) = s := check_of (by omega)
  have breaks : s.promiseCount - 1 = 0 ∧ s.result.isNone = true := by
    rw [unresolved, one]
    exact ⟨rfl, rfl⟩
  simp only [decrementPromise, checked, if_pos breaks]
  rw [finish_of (by exact unresolved), one]

/-- User code comes and goes. -/
theorem Sane.user (sane : Sane s others) : Sane s (.user ::ₘ others) := by
  constructor
  · simpa [locks] using sane.counted
  · simpa [locks, returns, cancels] using sane.stage
  · exact sane.visible
  · exact sane.asserts

theorem Sane.of_user (sane : Sane s (.user ::ₘ others)) : Sane s others := by
  constructor
  · simpa [locks] using sane.counted
  · simpa [locks, returns, cancels] using sane.stage
  · exact sane.visible
  · exact sane.asserts

/-- The calls of an operation are made before user code goes on. -/
theorem Sane.then_user (sane : Sane s (↑calls + others)) :
    Sane s (((calls ++ [.user] : List TaskCall) : Multiset TaskCall) + others) := by
  rw [← Multiset.coe_add, Multiset.coe_singleton, add_assoc, Multiset.singleton_add,
    Multiset.add_cons]
  exact sane.user

/-! ## What user code does -/

/-- A task that is neither done nor dropped is fresh. -/
theorem Sane.fresh (sane : Sane s others) (isDone : s.isDone = false) (copies : s.copies ≠ 0) :
    s.first = none ∧ s.result = none ∧ s.runs = 0 ∧ s.returned = none ∧
      s.token.doCancels = [()] ∧ weight returns others = 0 ∧ weight cancels others = 0 ∧
      weight locks others = 0 := by
  cases sane.stage with
  | fresh first _ result runs returned canceler _ pending =>
    exact ⟨first, result, runs, returned, canceler, pending⟩
  | dropped _ _ _ _ none => exact absurd none copies
  | running _ done | returned _ _ done | cancelling _ done | cancelled _ done =>
    rw [isDone] at done
    cases done

/-- A task that is done has been decided. -/
theorem Sane.decided (sane : Sane s others) (isDone : s.isDone = true) (copies : s.copies ≠ 0) :
    s.first ≠ none := by
  cases sane.stage with
  | fresh _ done =>
    rw [isDone] at done
    cases done
  | dropped _ _ _ _ none => exact absurd none copies
  | running first | returned _ first | cancelling first | cancelled first =>
    rw [first]
    exact Option.some_ne_none _

/-- The first call enters the function. -/
theorem Sane.call (sane : Sane s others) (copies : s.copies ≠ 0) :
    Sane (call s).1 (↑(call s).2 + others) := by
  cases isDone : s.isDone with
  | true =>
    have same : PackagedTask.call s = (s, []) := by
      rw [PackagedTask.call, happens_of (sane.decided isDone copies), if_pos isDone]
    rw [same]
    simpa using sane
  | false =>
    obtain ⟨first, result, runs, returned, canceler, pending⟩ := sane.fresh isDone copies
    have enters : (s.happens .called).isDone = false := isDone
    simp only [PackagedTask.call, enters, Bool.false_eq_true, if_false]
    constructor
    · simpa [locks, State.happens] using sane.counted
    · apply Stage.running
      · simp [State.happens, first]
      · rfl
      · exact result
      · change s.runs + 1 = 1
        rw [runs]
      · exact returned
      · simp [State.happens, CancelationToken.popCancelationCallback, canceler]
      · exact Nat.pos_of_ne_zero copies
      · simp [returns, cancels, locks, pending]
    · exact sane.visible
    · exact sane.asserts

theorem Sane.copy (sane : Sane s others) (copies : s.copies ≠ 0) : Sane (copy s) others := by
  have counted := sane.counted
  have positive : s.promiseCount ≠ 0 := by omega
  simp only [PackagedTask.copy, check_of positive]
  constructor
  · change s.promiseCount + 1 = s.copies + 1 + _
    omega
  · cases sane.stage with
    | fresh first isDone result runs returned canceler _ pending =>
      exact .fresh first isDone result runs returned canceler (Nat.succ_pos _) pending
    | running first isDone result runs returned canceler _ pending =>
      exact .running first isDone result runs returned canceler (Nat.succ_pos _) pending
    | returned r first isDone result runs returned pending =>
      exact .returned r first isDone result runs returned pending
    | cancelling first isDone function result runs returned canceler pending =>
      exact .cancelling first isDone function result runs returned canceler pending
    | cancelled first isDone function result runs returned pending =>
      exact .cancelled first isDone function result runs returned pending
    | dropped _ _ _ _ none => exact absurd none copies
  · exact sane.visible
  · exact sane.asserts

/-- A copy is destroyed that is not the last one, or when something came first. -/
theorem destroy_of (decided : s.copies = 1 → s.first ≠ none) (copies : s.copies ≠ 0) :
    destroy s = decrementPromise { s with copies := s.copies - 1 } := by
  rw [destroy]
  split
  · rename_i none
    have first : s.first ≠ Option.none := decided (by simp only at none; omega)
    rw [@happens_of _ { s with copies := s.copies - 1 } _ first]
  · rfl

/-- The last copy of a task is destroyed to which nothing has happened. -/
theorem destroy_last (first : s.first = none) (one : s.copies = 1)
    (unresolved : s.result = none) (last : s.promiseCount = 1) :
    destroy s = ({ s with
      copies := 0
      first := some .dropped
      promiseCount := 0
      result := some (.error .brokenPromise) }, [.user]) := by
  have dropped : State.happens { s with copies := 0 } .dropped =
      { s with copies := 0, first := some .dropped } := by
    simp only [State.happens, first, Option.none_or]
  rw [destroy, one, if_pos rfl, dropped]
  exact decrementPromise_last last unresolved

/-- The last copy of a task that was neither called nor cancelled breaks the promise. -/
theorem Sane.destroy (sane : Sane s others) (copies : s.copies ≠ 0)
    (outlives : s.copies = 1 → ¬ s.running) :
    Sane (destroy s).1 (↑(destroy s).2 + others) := by
  have counted := sane.counted
  have simple : (s.copies = 1 → s.first ≠ none) → (s.promiseCount = 1 → s.result ≠ none) →
      Stage { s with copies := s.copies - 1, promiseCount := s.promiseCount - 1 }
        (weight returns others) (weight cancels others) (weight locks others) →
      Sane (PackagedTask.destroy s).1 (↑(PackagedTask.destroy s).2 + others) := by
    intro decided harmless stage
    have positive : 0 < s.promiseCount := by omega
    rw [destroy_of decided copies,
      decrementPromise_of (s := { s with copies := s.copies - 1 }) positive harmless]
    constructor
    · change s.promiseCount - 1 = s.copies - 1 + _
      simp
      omega
    · simpa using stage
    · exact sane.visible
    · exact sane.asserts
  cases sane.stage with
  | fresh first isDone result runs returned canceler _ pending =>
    by_cases one : s.copies = 1
    · rw [destroy_last first one result (by omega)]
      constructor
      · simp [locks, pending]
      · exact .dropped rfl rfl runs returned rfl (by simp [returns, cancels, locks, pending])
      · exact sane.visible
      · exact sane.asserts
    · apply simple
      · exact fun last => absurd last one
      · omega
      · exact .fresh first isDone result runs returned canceler (by simp only; omega) pending
  | running first isDone result runs returned canceler _ pending =>
    have more : s.copies ≠ 1 := fun one => outlives one ⟨first, returned⟩
    apply simple
    · exact fun last => absurd last more
    · omega
    · exact .running first isDone result runs returned canceler (by simp only; omega) pending
  | returned r first isDone result runs returned pending =>
    apply simple
    · simp [first]
    · simp [result]
    · exact .returned r first isDone result runs returned pending
  | cancelling first isDone function result runs returned canceler pending =>
    apply simple
    · simp [first]
    · omega
    · exact .cancelling first isDone function result runs returned canceler pending
  | cancelled first isDone function result runs returned pending =>
    apply simple
    · simp [first]
    · simp [result]
    · exact .cancelled first isDone function result runs returned pending
  | dropped _ _ _ _ none => exact absurd none copies

/-- A resolved future has no token any more. -/
theorem requestCancel_resolved {x : Except Exc α} (before : s.result = some x) :
    requestCancel s = (s.happens .cancelled, []) := by
  have resolved : ¬ (s.happens .cancelled).result.isNone = true := by
    show ¬ s.result.isNone = true
    simp [before]
  rw [requestCancel, if_neg resolved]

/-- The request finds no canceler. -/
theorem requestCancel_without (decided : s.first ≠ none) (unresolved : s.result = none)
    (canceler : s.token.doCancels = []) :
    requestCancel s = ({ s with
      token := { s.token with isCancelRequested := true }
      requestedInside := s.requestedInside || decide s.running }, []) := by
  simp [requestCancel, happens_of decided, unresolved, CancelationToken.requestCancel, canceler]

/-- The first request on a task that was not called calls the canceler. -/
theorem requestCancel_fresh (first : s.first = none) (isDone : s.isDone = false)
    (unresolved : s.result = none) (canceler : s.token.doCancels = [()])
    (positive : s.promiseCount ≠ 0) :
    requestCancel s = ({ s with
      isDone := true
      function := false
      promiseCount := s.promiseCount + 1
      token := { s.token with isCancelRequested := true, doCancels := [] }
      first := some .cancelled }, [.user, .cancelFinish]) := by
  simp [requestCancel, State.happens, State.running, PackagedTask.canceler, first, isDone,
    unresolved, positive, CancelationToken.requestCancel, CancelationToken.popCancelationCallback,
    canceler]

/-- The first cancelation of a fresh task destroys its function; a later one is
seen by the function. -/
theorem Sane.requestCancel (sane : Sane s others) :
    Sane (requestCancel s).1 (↑(requestCancel s).2 + others) := by
  have counted := sane.counted
  cases sane.stage with
  | fresh first isDone result runs returned canceler copies pending =>
    rw [requestCancel_fresh first isDone result canceler (by omega)]
    constructor
    · simp [locks, pending, counted]
    · refine .cancelling rfl rfl rfl result runs returned rfl ?_
      simp [returns, cancels, locks, pending]
    · exact fun _ => rfl
    · exact sane.asserts
  | running first isDone result runs returned canceler copies pending =>
    rw [requestCancel_without (by simp [first]) result canceler]
    exact ⟨by simpa using counted,
      by simpa using .running first isDone result runs returned canceler copies pending,
      fun _ => rfl, sane.asserts⟩
  | cancelling first isDone function result runs returned canceler pending =>
    rw [requestCancel_without (by simp [first]) result canceler]
    exact ⟨by simpa using counted,
      by simpa using .cancelling first isDone function result runs returned canceler pending,
      fun _ => rfl, sane.asserts⟩
  | returned r first _ result | cancelled first _ _ result | dropped first result =>
    rw [requestCancel_resolved result, happens_of (by simp [first])]
    simpa using sane

/-! ## The calls that follow -/

theorem Sane.functionReturn {r : Except Exc α} (sane : Sane s (.functionReturn ::ₘ others)) :
    Sane (functionReturn r s).1 (↑(functionReturn r s).2 + others) := by
  have counted := sane.counted
  simp only [weight_cons, locks, zero_add] at counted
  cases sane.stage with
  | running first isDone result runs returned canceler copies pending =>
    simp only [weight_cons, returns, cancels, locks] at pending
    rw [PackagedTask.functionReturn, finish_of (by exact result)]
    constructor
    · simpa [locks] using counted
    · apply Stage.returned r
      · exact first
      · exact isDone
      · rfl
      · exact runs
      · rfl
      · simp [returns, cancels, locks]
        omega
    · exact sane.visible
    · exact sane.asserts
  | fresh _ _ _ _ _ _ _ pending | returned _ _ _ _ _ _ pending | cancelling _ _ _ _ _ _ _ pending
  | cancelled _ _ _ _ _ _ pending | dropped _ _ _ _ _ pending =>
    simp [returns] at pending

theorem Sane.clearFunction (sane : Sane s (.clearFunction ::ₘ others)) :
    Sane { s with function := false } others := by
  constructor
  · simpa [locks] using sane.counted
  · have stage := sane.stage
    simp only [weight_cons, returns, cancels, locks, zero_add] at stage
    cases stage with
    | fresh first isDone result runs returned canceler copies pending =>
      exact .fresh first isDone result runs returned canceler copies pending
    | running first isDone result runs returned canceler copies pending =>
      exact .running first isDone result runs returned canceler copies pending
    | returned r first isDone result runs returned pending =>
      exact .returned r first isDone result runs returned pending
    | cancelling first isDone function result runs returned canceler pending =>
      exact .cancelling first isDone rfl result runs returned canceler pending
    | cancelled first isDone function result runs returned pending =>
      exact .cancelled first isDone rfl result runs returned pending
    | dropped first result runs returned none pending =>
      exact .dropped first result runs returned none pending
  · exact sane.visible
  · exact sane.asserts

theorem Sane.cancelFinish (sane : Sane s (.cancelFinish ::ₘ others)) :
    Sane { s with result := some (.error .operationCanceled) } (.dropLock ::ₘ others) ∧
      s.result = none := by
  have counted := sane.counted
  simp only [weight_cons, locks] at counted
  cases sane.stage with
  | cancelling first isDone function result runs returned canceler pending =>
    simp only [weight_cons, returns, cancels, locks] at pending
    refine ⟨?_, result⟩
    constructor
    · simpa [locks] using counted
    · apply Stage.cancelled
      · exact first
      · exact isDone
      · exact function
      · rfl
      · exact runs
      · exact returned
      · simp [returns, cancels]
        omega
    · exact sane.visible
    · exact sane.asserts
  | fresh _ _ _ _ _ _ _ pending | running _ _ _ _ _ _ _ pending | returned _ _ _ _ _ _ pending
  | cancelled _ _ _ _ _ _ pending | dropped _ _ _ _ _ pending =>
    simp [cancels] at pending

theorem Sane.dropLock (sane : Sane s (.dropLock ::ₘ others)) :
    Sane (decrementPromise s).1 (↑(decrementPromise s).2 + others) := by
  have counted := sane.counted
  simp only [weight_cons, locks] at counted
  cases sane.stage with
  | cancelled first isDone function result runs returned pending =>
    simp only [weight_cons, returns, cancels, zero_add] at pending
    rw [decrementPromise_of (by omega) (by simp [result])]
    constructor
    · change s.promiseCount - 1 = s.copies + _
      simp
      omega
    · simpa using .cancelled first isDone function result runs returned pending
    · exact sane.visible
    · exact sane.asserts
  | fresh _ _ _ _ _ _ _ pending | running _ _ _ _ _ _ _ pending | returned _ _ _ _ _ _ pending
  | dropped _ _ _ _ _ pending =>
    simp [locks] at pending
  | cancelling _ _ _ _ _ _ _ pending =>
    simp only [weight_cons, cancels, locks] at pending
    have few : weight cancels others ≤ weight locks others := by
      apply Multiset.sum_map_le_sum_map
      intro call _
      cases call <;> simp [cancels, locks]
    omega

/-- **One step keeps the invariant.** -/
theorem Sane.step {thread : ℕ} {call : TaskCall} (sane : Sane s (call ::ₘ others))
    (allowed : OutlivesFunction s call choice)
    (ran : exec thread choice s call = some (s', calls)) : Sane s' (↑calls + others) := by
  cases call with
  | user =>
    have sane := sane.of_user
    cases choice with
    | «return» =>
      cases ran
      simpa using sane
    | call =>
      obtain ⟨copies, same⟩ := Option.ite_none_left_eq_some.mp ran
      cases same
      exact (sane.call copies).then_user
    | copy =>
      obtain ⟨copies, same⟩ := Option.ite_none_left_eq_some.mp ran
      cases same
      simpa using (sane.copy copies).user
    | destroy =>
      obtain ⟨copies, same⟩ := Option.ite_none_left_eq_some.mp ran
      cases same
      exact (sane.destroy copies (allowed rfl rfl)).then_user
    | requestCancel =>
      cases ran
      exact sane.requestCancel.then_user
    | finish r => cases ran
  | functionReturn =>
    cases choice with
    | finish r =>
      cases ran
      exact sane.functionReturn
    | _ => cases ran
  | clearFunction =>
    cases ran
    simpa using sane.clearFunction.user
  | cancelFinish =>
    obtain ⟨done, unresolved⟩ := sane.cancelFinish
    simp only [exec, finish_of unresolved] at ran
    cases ran
    rw [← Multiset.coe_add, Multiset.coe_singleton, Multiset.coe_singleton, add_assoc,
      Multiset.singleton_add, Multiset.singleton_add]
    exact done.user
  | dropLock =>
    have same : decrementPromise s = (s', calls) := Option.some.inj ran
    simpa [same] using sane.dropLock

theorem sane_start : Sane ({} : State α) {.user} := by
  constructor
  · rfl
  · exact .fresh rfl rfl rfl rfl rfl rfl Nat.one_pos ⟨rfl, rfl, rfl⟩
  · simp
  · rfl

theorem sane_of_reachable (reached : Reachable exec OutlivesFunction start config) :
    Sane config.state config.pending := by
  apply reached.invariant Sane
  · exact sane_start
  · exact fun _ _ _ _ _ _ _ sane allowed ran => sane.step allowed ran

/-! ## Runs -/

theorem decrementPromise_keeps {x : Except Exc α} (before : s.result = some x) :
    (decrementPromise s).1.result = some x := by
  have checked : (check s (0 < s.promiseCount)).result = some x :=
    (check_keeps rfl).trans before
  have stays : ∀ count, ¬ (count = 0 ∧ (check s (0 < s.promiseCount)).result.isNone = true) := by
    rintro count ⟨-, unresolved⟩
    rw [checked] at unresolved
    cases unresolved
  simp only [decrementPromise, if_neg (stays _)]
  exact checked

theorem destroy_keeps {x : Except Exc α} (before : s.result = some x) :
    (destroy s).1.result = some x := by
  refine decrementPromise_keeps ?_
  split <;> exact before

theorem call_keeps : (call s).1.result = s.result := by
  simp only [call]
  split <;> rfl

/-- A result is never replaced. -/
theorem Sane.keeps {thread : ℕ} {call : TaskCall} {x : Except Exc α}
    (sane : Sane s (call ::ₘ others)) (ran : exec thread choice s call = some (s', calls))
    (before : s.result = some x) : s'.result = some x := by
  cases call with
  | user =>
    cases choice with
    | «return» =>
      cases ran
      exact before
    | call =>
      obtain ⟨copies, same⟩ := Option.ite_none_left_eq_some.mp ran
      cases same
      exact call_keeps.trans before
    | copy =>
      obtain ⟨copies, same⟩ := Option.ite_none_left_eq_some.mp ran
      cases same
      have kept : (check s (s.promiseCount ≠ 0)).result = s.result := check_keeps rfl
      exact kept.trans before
    | destroy =>
      obtain ⟨copies, same⟩ := Option.ite_none_left_eq_some.mp ran
      cases same
      exact destroy_keeps before
    | requestCancel =>
      have same : some ((PackagedTask.requestCancel s).1,
          (PackagedTask.requestCancel s).2 ++ [.user]) = some (s', calls) := ran
      rw [requestCancel_resolved before] at same
      cases same
      exact before
    | finish r => cases ran
  | functionReturn =>
    cases sane.stage with
    | running _ _ result =>
      rw [before] at result
      cases result
    | fresh _ _ _ _ _ _ _ pending | returned _ _ _ _ _ _ pending | cancelling _ _ _ _ _ _ _ pending
    | cancelled _ _ _ _ _ _ pending | dropped _ _ _ _ _ pending =>
      simp [returns] at pending
  | clearFunction =>
    cases ran
    exact before
  | cancelFinish =>
    have unresolved := sane.cancelFinish.2
    rw [before] at unresolved
    cases unresolved
  | dropLock =>
    have same : decrementPromise s = (s', calls) := Option.some.inj ran
    have kept := decrementPromise_keeps before
    rwa [same] at kept

theorem keeps_of_reachable {config' : Config (State α) TaskCall} {x : Except Exc α}
    (reached : Reachable exec OutlivesFunction start config)
    (more : Reachable exec OutlivesFunction config config')
    (before : config.state.result = some x) : config'.state.result = some x := by
  induction more with
  | start => exact before
  | @next middle after thread choice earlier _ stepped ih =>
    obtain ⟨call, calls, others, -, pending, -, ran⟩ := Config.next_spec stepped
    have sane := sane_of_reachable (reached.trans earlier)
    rw [pending] at sane
    exact sane.keeps ran ih

/-- The function runs once at most, the future is resolved once, and what comes
first decides with what.  A cancelation that comes first is over only when the
future is resolved; one that comes while the function is running is seen by it. -/
structure RunOrCancelled (config : Config (State α) TaskCall) : Prop where
  runs : config.state.runs ≤ 1
  kept : ∀ config', Reachable exec OutlivesFunction config config' → ∀ x,
    config.state.result = some x → config'.state.result = some x
  undecided : config.state.first = none →
    config.state.result = none ∧ config.state.runs = 0 ∧ config.state.isDone = false ∧
      config.state.token.doCancels = [()] ∧ 0 < config.state.copies
  called : config.state.first = some .called →
    config.state.runs = 1 ∧ config.state.result = config.state.returned
  cancelled : config.state.first = some .cancelled →
    config.state.runs = 0 ∧ config.state.function = false ∧
      (config.state.result = some (.error .operationCanceled) ∨ .cancelFinish ∈ config.pending)
  dropped : config.state.first = some .dropped →
    config.state.runs = 0 ∧ config.state.result = some (.error .brokenPromise)
  visible : config.state.requestedInside = true → config.state.token.isCancelRequested = true
  asserts : config.state.assertFailed = false

/-- **A task whose copies outlive its function is run or cancelled, never both.** -/
theorem runOrCancelled_of_outlivesFunction
    (reached : Reachable exec OutlivesFunction start config) : RunOrCancelled config := by
  have sane := sane_of_reachable reached
  have kept : ∀ config', Reachable exec OutlivesFunction config config' → ∀ x,
      config.state.result = some x → config'.state.result = some x :=
    fun _ more _ before => keeps_of_reachable reached more before
  have visible := sane.visible
  have asserts := sane.asserts
  cases sane.stage with
  | fresh first isDone result runs returned canceler copies =>
    exact ⟨by omega, kept, fun _ => ⟨result, runs, isDone, canceler, copies⟩, by simp [first],
      by simp [first], by simp [first], visible, asserts⟩
  | running first isDone result runs returned =>
    exact ⟨by omega, kept, by simp [first], fun _ => ⟨runs, result.trans returned.symm⟩,
      by simp [first], by simp [first], visible, asserts⟩
  | returned r first isDone result runs returned =>
    exact ⟨by omega, kept, by simp [first], fun _ => ⟨runs, result.trans returned.symm⟩,
      by simp [first], by simp [first], visible, asserts⟩
  | cancelling first isDone function result runs returned canceler pending =>
    have ahead : TaskCall.cancelFinish ∈ config.pending := by
      have due : 0 < weight cancels config.pending := by omega
      obtain ⟨call, member, positive⟩ := exists_of_weight_pos due
      cases call with
      | cancelFinish => exact member
      | _ => simp [cancels] at positive
    exact ⟨by omega, kept, by simp [first], by simp [first],
      fun _ => ⟨runs, function, Or.inr ahead⟩, by simp [first], visible, asserts⟩
  | cancelled first isDone function result runs =>
    exact ⟨by omega, kept, by simp [first], by simp [first],
      fun _ => ⟨runs, function, Or.inl result⟩, by simp [first], visible, asserts⟩
  | dropped first result runs =>
    exact ⟨by omega, kept, by simp [first], by simp [first], by simp [first],
      fun _ => ⟨runs, result⟩, visible, asserts⟩

/-- A check of the condition. -/
def outlivesFunction (s : State α) (call : TaskCall) (choice : Choice α) : Bool :=
  match call, choice with
  | .user, .destroy => s.copies != 1 || !decide s.running
  | _, _ => true

theorem outlivesFunction_sound (s : State α) (call : TaskCall) (choice : Choice α)
    (checked : outlivesFunction s call choice = true) : OutlivesFunction s call choice := by
  rintro rfl rfl one
  simpa [outlivesFunction, one] using checked

/-- A task is called; its function cancels it, calls it again and destroys one of
two copies, and then returns 7. -/
def cancelInside : List (ℕ × Choice ℕ) :=
  [.copy, .call, .requestCancel, .call, .destroy, .return, .finish (.ok 7), .return, .return,
    .return, .destroy].map (0, ·)

/-- A task is cancelled, called and destroyed. -/
def cancelBefore : List (ℕ × Choice ℕ) :=
  [.requestCancel, .return, .return, .return, .call, .destroy].map (0, ·)

theorem runOrCancelled_cancelled :
    (∃ config : Config (State ℕ) TaskCall, config.state.result = some (.ok 7) ∧
      config.state.requestedInside = true ∧ RunOrCancelled config) ∧
    ∃ config : Config (State ℕ) TaskCall, config.state.first = some .cancelled ∧
      config.state.result = some (.error .operationCanceled) ∧ RunOrCancelled config := by
  constructor
  · have ran : (start.runWithin exec outlivesFunction cancelInside).map (fun config =>
        decide (config.state.result = some (.ok 7)) && config.state.requestedInside) =
          some true := by decide
    obtain ⟨config, reached, held⟩ := reachable_of_replay_within outlivesFunction_sound _ _ ran
    simp only [Bool.and_eq_true, decide_eq_true_eq] at held
    exact ⟨config, held.1, held.2, runOrCancelled_of_outlivesFunction reached⟩
  · have ran : (start.runWithin exec outlivesFunction cancelBefore).map (fun config =>
        decide (config.state.first = some .cancelled) &&
          decide (config.state.result = some (.error .operationCanceled))) = some true := by decide
    obtain ⟨config, reached, held⟩ := reachable_of_replay_within outlivesFunction_sound _ _ ran
    simp only [Bool.and_eq_true, decide_eq_true_eq] at held
    exact ⟨config, held.1, held.2, runOrCancelled_of_outlivesFunction reached⟩

/-- The function destroys the only copy of its task, and then returns 7. -/
def destroyInside : List (ℕ × Choice ℕ) :=
  [.call, .destroy, .return, .return, .finish (.ok 7)].map (0, ·)

/-- The future is resolved twice. -/
theorem destroy_inside_resolves_twice : ∃ config : Config (State ℕ) TaskCall,
    Reachable exec Anything start config ∧ config.state.runs = 1 ∧
      config.state.returned = some (.ok 7) ∧ config.state.assertFailed = true ∧
      ¬ RunOrCancelled config := by
  have ran : (start.run exec destroyInside).map (fun config =>
      config.state.runs == 1 && decide (config.state.returned = some (.ok 7)) &&
      config.state.assertFailed) = some true := by decide
  obtain ⟨config, reached, held⟩ := reachable_of_replay _ _ ran
  simp only [Bool.and_eq_true, beq_iff_eq, decide_eq_true_eq] at held
  obtain ⟨⟨runs, returned⟩, failed⟩ := held
  refine ⟨config, reached, runs, returned, failed, fun right => ?_⟩
  rw [right.asserts] at failed
  cases failed

end Tconcurrent.PackagedTask
