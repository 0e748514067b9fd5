import Tconcurrent.JobLock

/-! What `_scheduled` says, and when no trigger is lost.

`_scheduled` is cleared by the run body only.  A posted task that is cancelled or
dropped before it is taken, and a run that `~job` overtakes while it is chained,
leave it set for good; without these it is set exactly while a run is ahead. -/
namespace Tconcurrent.Job
open Interleaving

variable {s s' : State} {pending others : Multiset JobAction} {call : JobAction}
  {calls : List JobAction} {k n : ℕ} {thread : ℕ} {choice : Choice}

/-- Run `k` was requested, its body has not begun and can still begin: its closure
waits for the previous run and the job is not stopping, its task is with the
executor, or its body is about to begin. -/
def Ahead (s : State) (pending : Multiset JobAction) (k : ℕ) : Prop :=
  (1 ≤ k ∧ k ≤ s.count ∧ s.begun < k) ∧
    ((s.stopping = false ∧
      (.client (.chainContinuation k) ∈ (s.heap.states (.chain (k - 1))).thens ∨
        .thenRun (.chain (k - 1)) (.client (.chainContinuation k)) ∈ pending ∨
        .client (.chainContinuation k) ∈ pending)) ∨
      (s.taskDone k = false ∧ (k ∈ s.queue ∨ .client (.packagedTask k) ∈ pending)) ∨
      .client (.runBody k) ∈ pending)

/-- A posted task is neither cancelled nor dropped before it is taken, and the
job is not destroyed while a run is chained behind another. -/
def RunsBegin (s : State) (call : JobAction) (choice : Choice) : Prop :=
  match call, choice with
  | .client (.cancelTask k), _ => s.taskDone k = true
  | .client .executor, .drop k => s.taskDone k = true
  | .client .destroy, _ => ∀ k, 1 ≤ k → k ≤ s.count → s.continued k = true
  | _, _ => True

/-- The calls between the decision of `triggerImpl` and the return. -/
def Returning : JobCall → Prop
  | .assignFuture _ _ => True
  | .returnFuture _ => True
  | _ => False

theorem releases_of_returning {c : JobCall} (returning : Returning c) :
    releases (.client c) = 1 := by
  cases c <;> first | rfl | exact returning.elim

/-- The consequences of the condition, besides what always holds. -/
structure Begins (s : State) (pending : Multiset JobAction) : Prop where
  chained : ∀ k, s.continued k = true → s.posted k = true
  kept : ∀ k, s.dropped k = false
  taken : ∀ k, s.taskDone k = true → s.begun < k → .client (.runBody k) ∈ pending
  stopping : s.stopping = true → ∀ k, 1 ≤ k → k ≤ s.count → s.continued k = true
  caught : ∀ k n e, .client (.catchCallback k n e) ∈ pending → s.invoked k = true
  ran : ∀ k r, Outcome s.heap pending (.task k) r → s.invoked k = true ∨ s.stopping = true
  returning : ∀ c, .client c ∈ pending → Returning c → s.scheduled = true
  futures : ∀ f b, (f, b) ∈ s.futures → ∃ k, f = .chain k ∧ b < k

/-- A step that neither chains, takes nor begins a run. -/
theorem Begins.frame (begins : Begins s (call ::ₘ others)) (continued : s'.continued = s.continued)
    (posted : s'.posted = s.posted) (dropped : s'.dropped = s.dropped)
    (taskDone : s'.taskDone = s.taskDone) (begun : s'.begun = s.begun)
    (stopping : s'.stopping = s.stopping) (count : s'.count = s.count)
    (scheduled : s'.scheduled = s.scheduled) (futures : s'.futures = s.futures)
    (invoked : ∀ k, s.invoked k = true → s'.invoked k = true)
    (body : ∀ k, call ≠ .client (.runBody k))
    (caught : ∀ k n e, .client (.catchCallback k n e) ∈ calls → s.invoked k = true)
    (ran : ∀ k r, Outcome s'.heap (↑calls + others) (.task k) r →
      Outcome s.heap (call ::ₘ others) (.task k) r ∨ s.invoked k = true)
    (returning : ∀ c, .client c ∈ calls → Returning c → s.scheduled = true) :
    Begins s' (↑calls + others) where
  chained := by
    rw [continued, posted]
    exact begins.chained
  kept := by
    rw [dropped]
    exact begins.kept
  taken k done ahead := by
    rw [taskDone] at done
    rw [begun] at ahead
    have member := begins.taken k done ahead
    exact Multiset.mem_add.mpr (Or.inr ((Multiset.mem_cons.mp member).resolve_left (body k).symm))
  stopping := by
    rw [stopping, count, continued]
    exact begins.stopping
  caught k n e member := by
    rcases Multiset.mem_add.mp member with made | other
    · exact invoked k (caught k n e (Multiset.mem_coe.mp made))
    · exact invoked k (begins.caught k n e (Multiset.mem_cons_of_mem other))
  ran k r outcome := by
    rw [stopping]
    rcases ran k r outcome with before | called
    · exact (begins.ran k r before).imp (invoked k) id
    · exact Or.inl (invoked k called)
  returning c member returns := by
    rw [scheduled]
    rcases Multiset.mem_add.mp member with made | other
    · exact returning c (Multiset.mem_coe.mp made) returns
    · exact begins.returning c (Multiset.mem_cons_of_mem other) returns
  futures := by
    rw [futures]
    exact begins.futures

/-- A step of the program that resolves no task. -/
theorem outcome_quiet {heap heap' : JobHeap}
    (same : ∀ k, (heap'.states (.task k)).r = (heap.states (.task k)).r)
    (made : ∀ k r, .finish (.task k) r ∉ calls) (k : ℕ) (r : JobResult)
    (outcome : Outcome heap' (↑calls + others) (.task k) r) :
    Outcome heap (call ::ₘ others) (.task k) r :=
  (outcome_after call (same k) outcome).resolve_left (made k r)

theorem Begins.library (sane : Sane s (call ::ₘ others)) (begins : Begins s (call ::ₘ others))
    (library : ∀ c, call ≠ .client c) :
    Begins { s with heap := (s.heap.exec call).1 } (↑(s.heap.exec call).2 + others) := by
  have respects := sane.wired.calls call (Multiset.mem_cons_self _ _)
  have quiet := quiet_closures sane.wired.heap respects
  refine begins.frame rfl rfl rfl rfl rfl rfl rfl rfl rfl (fun _ => id) (fun k => library _) ?_ ?_ ?_
  · intro k n e member
    rcases exec_clients sane.wired.heap respects member with ⟨j, same, -⟩ | ⟨p, registered⟩
    · cases same
    · cases p <;> exact registered.elim
  · exact fun k r outcome => Or.inl (exec_outcome sane.wired.heap respects rfl outcome)
  · intro c member returns
    have weighs := releases_of_returning returns
    simp [(quiet _ member).1] at weighs

theorem Begins.user (begins : Begins s pending) : Begins s (.client .user ::ₘ pending) where
  chained := begins.chained
  kept := begins.kept
  taken k done ahead := Multiset.mem_cons_of_mem (begins.taken k done ahead)
  stopping := begins.stopping
  caught k n e member := begins.caught k n e (by simpa using member)
  ran k r outcome := begins.ran k r (by simpa [Outcome] using outcome)
  returning c member returns := by
    rcases Multiset.mem_cons.mp member with same | other
    · cases same
      exact returns.elim
    · exact begins.returning c other returns
  futures := begins.futures

/-- The mutex plays no part. -/
theorem Begins.withMutex (begins : Begins s pending) (mutex : Option (ℕ × ℕ)) :
    Begins { s with mutex } pending := { begins with }

theorem Begins.acquire (begins : Begins s pending) {s₁ : State}
    (acquired : acquire thread s = some s₁) : Begins s₁ pending := by
  obtain ⟨mutex, rfl⟩ := acquire_eq acquired
  exact begins.withMutex mutex

theorem Begins.release (begins : Begins s pending) : Begins (release s) pending := by
  obtain ⟨mutex, same⟩ := release_eq s
  rw [same]
  exact begins.withMutex mutex

/-- A step that keeps the heap and registers nothing of interest. -/
theorem Begins.quiet (begins : Begins s (call ::ₘ others)) (continued : s'.continued = s.continued)
    (posted : s'.posted = s.posted) (dropped : s'.dropped = s.dropped)
    (taskDone : s'.taskDone = s.taskDone) (begun : s'.begun = s.begun)
    (stopping : s'.stopping = s.stopping) (count : s'.count = s.count)
    (scheduled : s'.scheduled = s.scheduled) (futures : s'.futures = s.futures)
    (invoked : s'.invoked = s.invoked) (heap : s'.heap = s.heap)
    (body : ∀ k, call ≠ .client (.runBody k))
    (caught : ∀ k n e, .client (.catchCallback k n e) ∉ calls)
    (made : ∀ k r, .finish (.task k) r ∉ calls)
    (returning : ∀ c, .client c ∈ calls → Returning c → s.scheduled = true) :
    Begins s' (↑calls + others) :=
  begins.frame continued posted dropped taskDone begun stopping count scheduled futures
    (fun _ => invoked ▸ id) body (fun k n e member => absurd member (caught k n e))
    (fun k r outcome => Or.inl (outcome_quiet (by simp [heap]) made k r outcome)) returning

theorem begins_user (begins : Begins s (.client .user ::ₘ others)) {step : JobStep}
    (ran : user s choice = some step) : Begins step.1 (↑step.2 + others) := by
  cases choice <;> simp only [user] at ran
  case trigger =>
    split at ran
    · cases ran
    · cases ran
      exact begins.quiet rfl rfl rfl rfl rfl rfl rfl rfl rfl rfl rfl (by simp) (by simp) (by simp)
        (by simp [Returning])
  case resolve =>
    split at ran
    · cases ran
      exact begins.quiet rfl rfl rfl rfl rfl rfl rfl rfl rfl rfl rfl (by simp) (by simp) (by simp)
        (by simp [Returning])
    · cases ran
  case destroy =>
    split at ran
    · cases ran
    · cases ran
      exact begins.quiet rfl rfl rfl rfl rfl rfl rfl rfl rfl rfl rfl (by simp) (by simp) (by simp)
        (by simp [Returning])
  case requestCancel =>
    cases ran
    exact begins.quiet rfl rfl rfl rfl rfl rfl rfl rfl rfl rfl rfl (by simp) (by simp) (by simp)
      (by simp [Returning])
  case «return» =>
    cases ran
    exact begins.quiet rfl rfl rfl rfl rfl rfl rfl rfl rfl rfl rfl (by simp) (by simp) (by simp)
      (by simp)
  all_goals cases ran

theorem begins_executor (begins : Begins s (.client .executor ::ₘ others))
    (allowed : RunsBegin s (.client .executor) choice) {step : JobStep}
    (ran : executor s choice = some step) : Begins step.1 (↑step.2 + others) := by
  cases choice <;> simp only [executor] at ran
  case run =>
    split at ran
    · cases ran
      exact begins.quiet rfl rfl rfl rfl rfl rfl rfl rfl rfl rfl rfl (by simp) (by simp) (by simp)
        (by simp [Returning])
    · cases ran
  case drop k =>
    have taken : s.taskDone k = true := allowed
    simp only [taken, if_true] at ran
    split at ran
    · cases ran
      exact begins.quiet rfl rfl rfl rfl rfl rfl rfl rfl rfl rfl rfl (by simp) (by simp) (by simp)
        (by simp [Returning])
    · cases ran
  case «return» =>
    cases ran
    exact begins.quiet rfl rfl rfl rfl rfl rfl rfl rfl rfl rfl rfl (by simp) (by simp) (by simp)
      (by simp [Returning])
  all_goals cases ran

theorem begins_trigger {setPromise : Bool}
    (sane : Sane s (.client (.trigger setPromise) ::ₘ others))
    (begins : Begins s (.client (.trigger setPromise) ::ₘ others)) :
    Begins (trigger setPromise s).1 (↑(trigger setPromise s).2 + others) := by
  obtain ⟨-, -, working⟩ := sane.alive
    (sane.due_of_pending .triggering (Multiset.mem_cons_self _ _) Nat.one_pos)
  unfold trigger
  split
  · rename_i scheduled
    exact begins.quiet rfl rfl rfl rfl rfl rfl rfl rfl rfl rfl rfl (by simp) (by simp) (by simp)
      (fun _ _ _ => scheduled)
  · refine ⟨begins.chained, begins.kept, fun k done ahead => ?_, fun stopping => ?_,
      fun k n e member => ?_, fun k r outcome => ?_, fun _ _ _ => rfl, begins.futures⟩
    · exact Multiset.mem_add.mpr (Or.inr (by simpa using begins.taken k done ahead))
    · simp [working] at stopping
    · exact begins.caught k n e (by simpa using member)
    · exact begins.ran k r (outcome_quiet (by simp [Heap.setState_states_ne]) (by simp) k r outcome)

theorem begins_returnFuture {setPromise : Bool}
    (sane : Sane s (.client (.returnFuture setPromise) ::ₘ others))
    (begins : Begins s (.client (.returnFuture setPromise) ::ₘ others)) :
    Begins (returnFuture setPromise s) (↑([] : List JobAction) + others) := by
  have scheduled := begins.returning _ (Multiset.mem_cons_self _ _) trivial
  unfold returnFuture
  dsimp only
  split
  · split
    · exact begins.quiet rfl rfl rfl rfl rfl rfl rfl rfl rfl rfl rfl (by simp) (by simp) (by simp)
        (by simp)
    · exact begins.quiet rfl rfl rfl rfl rfl rfl rfl rfl rfl rfl rfl (by simp) (by simp) (by simp)
        (by simp)
  · have without : Begins { s with triggering := s.triggering - 1 }
        (↑([] : List JobAction) + others) :=
      begins.quiet rfl rfl rfl rfl rfl rfl rfl rfl rfl rfl rfl (by simp) (by simp) (by simp)
        (by simp)
    refine { without with futures := fun f b member => ?_ }
    rcases List.mem_append.mp member with before | last
    · exact begins.futures f b before
    · obtain ⟨rfl, rfl⟩ : f = s.future ∧ b = s.begun := by simpa using last
      have next := sane.ordered.next
      rw [scheduled, Bool.toNat_true] at next
      exact ⟨s.count, sane.ordered.future, by omega⟩

theorem begins_chainContinuation (sane : Sane s (.client (.chainContinuation k) ::ₘ others))
    (begins : Begins s (.client (.chainContinuation k) ::ₘ others)) :
    Begins (chainContinuation k s).1 (↑(chainContinuation k s).2 + others) := by
  obtain ⟨requested, fresh, unposted, untaken, -⟩ := sane.next_chained
  have working : s.stopping = false := by
    rw [← Bool.not_eq_true]
    intro stopping
    simp [begins.stopping stopping k requested.1 requested.2] at fresh
  unfold chainContinuation
  dsimp only
  split
  · rename_i stopping
    simp [working] at stopping
  · refine ⟨fun j continued => ?_, begins.kept, fun j done ahead => ?_, fun stopping => ?_,
      fun j n e member => ?_, fun j r outcome => ?_, fun c member returns => ?_, begins.futures⟩
    · by_cases same : j = k
      · simp [same]
      · simpa [same] using begins.chained j (by simpa [same] using continued)
    · exact Multiset.mem_add.mpr (Or.inr (by simpa using begins.taken j done ahead))
    · simp [working] at stopping
    · exact begins.caught j n e (by simpa using member)
    · refine begins.ran j r ?_
      rcases outcome with member | result
      · exact Or.inl (by simpa using member)
      · rw [Heap.setState_states_ne _ (by simp), Heap.setToken_states] at result
        by_cases same : j = k
        · subst same
          simp at result
        · rw [Heap.setState_states_ne _ (by simpa using same)] at result
          exact Or.inr result
    · refine begins.returning c ?_ returns
      rcases Multiset.mem_add.mp member with made | other
      · simp only [Multiset.mem_coe, List.mem_cons, List.not_mem_nil, or_false] at made
        rcases made with made | made <;> cases made
        exact returns.elim
      · exact Multiset.mem_cons_of_mem other

theorem begins_packagedTask (begins : Begins s (.client (.packagedTask k) ::ₘ others)) :
    Begins { s with taskDone := Function.update s.taskDone k true }
      (↑([.popCancelationCallback (.task k), .client (.runBody k)] : List JobAction) + others) := by
  refine ⟨begins.chained, begins.kept, fun j done ahead => ?_, begins.stopping,
    fun j n e member => ?_, fun j r outcome => ?_, fun c member returns => ?_, begins.futures⟩
  · by_cases same : j = k
    · simp [same]
    · have before := begins.taken j (by simpa [same] using done) ahead
      exact Multiset.mem_add.mpr (Or.inr (by simpa using before))
  · exact begins.caught j n e (by simpa using member)
  · exact begins.ran j r (outcome_quiet (fun _ => rfl) (by simp) j r outcome)
  · refine begins.returning c ?_ returns
    rcases Multiset.mem_add.mp member with made | other
    · simp only [Multiset.mem_coe, List.mem_cons, List.not_mem_nil, or_false] at made
      rcases made with made | made <;> cases made
      exact returns.elim
    · exact Multiset.mem_cons_of_mem other

/-- The one step that clears `_scheduled` finds no call on its way to a return. -/
theorem begins_runBody (sane : Sane s (.client (.runBody k) ::ₘ others))
    (begins : Begins s (.client (.runBody k) ::ₘ others)) (alone : weight releases others = 0) :
    Begins (runBody k s).1 (↑(runBody k s).2 + others) := by
  obtain ⟨last, next, -⟩ := sane.next_begins
  have taken : ∀ j, s.taskDone j = true → ¬ k < j := by
    intro j done ahead
    have := (sane.taken_requested (Or.inl done)).2.2.2
    omega
  have returning : ∀ c, .client c ∈ others → ¬ Returning c := by
    intro c member returns
    have small := measure_le_weight releases member
    rw [releases_of_returning returns] at small
    omega
  unfold runBody
  dsimp only
  split
  · rename_i stopping
    refine ⟨begins.chained, begins.kept, fun j done ahead => absurd ahead (taken j done),
      begins.stopping, fun j n e member => begins.caught j n e (by simpa using member),
      fun j r _ => Or.inr stopping, fun c member returns => ?_, begins.futures⟩
    exact absurd returns (returning c (by simpa using member))
  · refine ⟨begins.chained, begins.kept, fun j done ahead => absurd ahead (taken j done),
      begins.stopping, fun j n e member => begins.caught j n e (by simpa using member),
      fun j r outcome => begins.ran j r (outcome_quiet (fun _ => rfl) (by simp) j r outcome),
      fun c member returns => ?_, begins.futures⟩
    rcases Multiset.mem_add.mp member with made | other
    · simp only [Multiset.mem_coe, List.mem_singleton] at made
      cases made
      exact returns.elim
    · exact absurd returns (returning c other)

theorem begins_returnCallback (sane : Sane s (.client (.returnCallback k n) ::ₘ others))
    (begins : Begins s (.client (.returnCallback k n) ::ₘ others)) (r : Option JobResult) :
    Begins (returnCallback k n r s).1 (↑(returnCallback k n r s).2 + others) := by
  have invoked := sane.calling.1
  refine begins.frame rfl rfl rfl rfl rfl rfl rfl rfl rfl (fun _ => id) (by simp)
    (by simp [returnCallback]) (fun j r' outcome => ?_) (by simp [returnCallback])
  rcases outcome with member | result
  · rcases Multiset.mem_add.mp member with made | other
    · obtain ⟨rfl, -⟩ : j = k ∧ _ := by simpa [returnCallback] using made
      exact Or.inr invoked
    · exact Or.inl (Or.inl (Multiset.mem_cons_of_mem other))
  · refine Or.inl (Or.inr ?_)
    simpa [returnCallback, Heap.setState_states_ne] using result

/-- `_cb()` throws. -/
theorem begins_throwCallback (sane : Sane s (.client (.returnCallback k n) ::ₘ others))
    (begins : Begins s (.client (.returnCallback k n) ::ₘ others)) (e : Exc) :
    Begins { s with returned := Function.update s.returned k true }
      (↑([.client (.catchCallback k n e)] : List JobAction) + others) := by
  have invoked := sane.calling.1
  refine begins.frame rfl rfl rfl rfl rfl rfl rfl rfl rfl (fun _ => id) (by simp) ?_
    (fun j r outcome => Or.inl (outcome_quiet (fun _ => rfl) (by simp) j r outcome))
    (by simp [Returning])
  intro j m e' member
  obtain ⟨rfl, -⟩ : j = k ∧ _ := by simpa using member
  exact invoked

theorem begins_catchCallback {e : Exc}
    (begins : Begins s (.client (.catchCallback k n e) ::ₘ others)) :
    Begins { s with running := false, captured := none }
      (↑([.finish (.task k) (.exception e)] : List JobAction) + others) := by
  have invoked := begins.caught k n e (Multiset.mem_cons_self _ _)
  refine begins.frame rfl rfl rfl rfl rfl rfl rfl rfl rfl (fun _ => id) (by simp) (by simp)
    (fun j r outcome => ?_) (by simp)
  rcases outcome_after (.client (.catchCallback k n e)) rfl outcome with made | before
  · obtain ⟨rfl, -⟩ : j = k ∧ _ := by simpa using made
    exact Or.inr invoked
  · exact Or.inl before

theorem begins_runContinuation (begins : Begins s (.client (.runContinuation k n) ::ₘ others))
    {step : JobStep} (ran : runContinuation k n s = some step) :
    Begins step.1 (↑step.2 + others) := by
  unfold runContinuation at ran
  split at ran
  · cases ran
    refine Begins.release ?_
    exact begins.quiet rfl rfl rfl rfl rfl rfl rfl rfl rfl rfl rfl (by simp) (by simp) (by simp)
      (by simp)
  · cases ran
    exact begins.quiet rfl rfl rfl rfl rfl rfl rfl rfl rfl rfl rfl (by simp) (by simp) (by simp)
      (by simp [Returning])
  · cases ran

theorem begins_setPromises {i : ℕ}
    (begins : Begins s (.client (.setPromises k n i) ::ₘ others)) :
    Begins (setPromises k n i s).1 (↑(setPromises k n i s).2 + others) := by
  unfold setPromises
  split
  · exact begins.quiet rfl rfl rfl rfl rfl rfl rfl rfl rfl rfl rfl (by simp) (by simp) (by simp)
      (by simp [Returning])
  · refine Begins.release ?_
    exact begins.quiet rfl rfl rfl rfl rfl rfl rfl rfl rfl rfl rfl (by simp) (by simp) (by simp)
      (by simp)

/-- `~job`: every run requested was continued. -/
theorem begins_destroy (begins : Begins s (.client .destroy ::ₘ others))
    (continued : ∀ k, 1 ≤ k → k ≤ s.count → s.continued k = true) :
    Begins { s with stopping := true }
      (↑([.requestCancel s.future, .client (.waitDestroyed s.future)] : List JobAction) +
        others) := by
  refine ⟨begins.chained, begins.kept, fun j done ahead => ?_, fun _ => continued,
    fun j n e member => begins.caught j n e (by simpa using member), fun _ _ _ => Or.inr rfl,
    fun c member returns => ?_, begins.futures⟩
  · exact Multiset.mem_add.mpr (Or.inr (by simpa using begins.taken j done ahead))
  · refine begins.returning c ?_ returns
    rcases Multiset.mem_add.mp member with made | other
    · simp only [Multiset.mem_coe, List.mem_cons, List.not_mem_nil, or_false] at made
      rcases made with made | made <;> cases made
      exact returns.elim
    · exact Multiset.mem_cons_of_mem other

theorem begins_clientExec {c : JobCall} {step : JobStep} (sane : Sane s (.client c ::ₘ others))
    (begins : Begins s (.client c ::ₘ others)) (allowed : RunsBegin s (.client c) choice)
    (free : mutexUse.bottom (.client c) → mutexUse.releases (.client c) = 0 →
      (∀ other ≠ thread, 0 < mutexUse.held s thread ∨ mutexUse.held s other = 0) →
      weight mutexUse.releases others = 0)
    (ran : clientExec thread choice s c = some step) : Begins step.1 (↑step.2 + others) := by
  cases c with
  | user => exact begins_user begins ran
  | executor => exact begins_executor begins allowed ran
  | trigger setPromise =>
    obtain ⟨s₁, acquired, rfl⟩ := Option.map_eq_some_iff.mp ran
    exact begins_trigger (sane.acquire acquired) (begins.acquire acquired)
  | assignFuture k setPromise =>
    have scheduled := begins.returning _ (Multiset.mem_cons_self _ _) trivial
    cases ran
    exact begins.quiet rfl rfl rfl rfl rfl rfl rfl rfl rfl rfl rfl (by simp) (by simp) (by simp)
      (fun _ _ _ => scheduled)
  | returnFuture setPromise =>
    cases ran
    exact Begins.release (begins_returnFuture sane begins)
  | chainContinuation k =>
    obtain ⟨s₁, acquired, rfl⟩ := Option.map_eq_some_iff.mp ran
    exact begins_chainContinuation (sane.acquire acquired) (begins.acquire acquired)
  | endReschedule k =>
    cases ran
    refine Begins.release ?_
    exact begins.quiet rfl rfl rfl rfl rfl rfl rfl rfl rfl rfl rfl (by simp) (by simp) (by simp)
      (by simp)
  | packagedTask k =>
    simp only [clientExec] at ran
    split at ran
    · cases ran
      exact begins.quiet rfl rfl rfl rfl rfl rfl rfl rfl rfl rfl rfl (by simp) (by simp) (by simp)
        (by simp)
    · cases ran
      exact begins_packagedTask begins
  | runBody k =>
    obtain ⟨s₁, acquired, rfl⟩ := Option.map_eq_some_iff.mp ran
    refine Begins.release ?_
    exact begins_runBody (sane.acquire acquired) (begins.acquire acquired)
      (free trivial rfl fun other different => ((acquire_held acquired).2 other different).2)
  | callCallback k n =>
    cases ran
    refine begins.frame rfl rfl rfl rfl rfl rfl rfl rfl rfl (fun j called => ?_) (by simp) (by simp)
      (fun j r outcome => Or.inl (outcome_quiet (fun _ => rfl) (by simp) j r outcome))
      (by simp [Returning])
    by_cases same : j = k
    · simp [same]
    · simpa [same] using called
  | returnCallback k n =>
    cases choice with
    | throws e =>
      cases ran
      exact begins_throwCallback sane begins e
    | returns r =>
      cases ran
      exact begins_returnCallback sane begins r
    | _ => cases ran
  | catchCallback k n e =>
    obtain ⟨s₁, acquired, rfl⟩ := Option.map_eq_some_iff.mp ran
    exact Begins.release (begins_catchCallback (begins.acquire acquired))
  | runContinuation k n =>
    obtain ⟨s₁, acquired, continued⟩ := Option.bind_eq_some_iff.mp ran
    exact begins_runContinuation (begins.acquire acquired) continued
  | setPromises k n i =>
    cases ran
    exact begins_setPromises begins
  | cancelTask k =>
    have taken : s.taskDone k = true := allowed
    simp only [clientExec, taken, Bool.true_or, if_true] at ran
    cases ran
    exact begins.quiet rfl rfl rfl rfl rfl rfl rfl rfl rfl rfl rfl (by simp) (by simp) (by simp)
      (by simp)
  | destroy =>
    obtain ⟨s₁, acquired, rfl⟩ := Option.map_eq_some_iff.mp ran
    have continued : ∀ k, 1 ≤ k → k ≤ s₁.count → s₁.continued k = true := by
      obtain ⟨mutex, rfl⟩ := acquire_eq acquired
      exact allowed
    exact Begins.release (begins_destroy (begins.acquire acquired) continued)
  | waitDestroyed p =>
    simp only [clientExec] at ran
    split at ran
    · cases ran
      exact begins.quiet rfl rfl rfl rfl rfl rfl rfl rfl rfl rfl rfl (by simp) (by simp) (by simp)
        (by simp)
    · cases ran

theorem begins_exec (sane : Sane s (call ::ₘ others)) (begins : Begins s (call ::ₘ others))
    (allowed : RunsBegin s call choice)
    (free : mutexUse.bottom call → mutexUse.releases call = 0 →
      (∀ other ≠ thread, 0 < mutexUse.held s thread ∨ mutexUse.held s other = 0) →
      weight mutexUse.releases others = 0)
    (ran : exec thread choice s call = some (s', calls)) : Begins s' (↑calls + others) := by
  by_cases program : ∃ c, call = .client c
  · obtain ⟨c, rfl⟩ := program
    exact begins_clientExec sane begins allowed free ran
  · have other : ∀ c, call ≠ .client c := fun c same => program ⟨c, same⟩
    rw [exec_library other] at ran
    cases ran
    exact with_userCode (Begins _) (fun _ => Begins.user) (begins.library sane other)

theorem begins_start (threads : ℕ) : Begins (start threads).state (start threads).pending where
  chained := by simp [start]
  kept := by simp [start]
  taken := by simp [start]
  stopping := by simp [start]
  caught k n e member := by simpa using pending_start member
  ran k r outcome := by
    rcases outcome with member | result
    · simpa using pending_start member
    · simp [start, Heap.setState_states_ne] at result
  returning c member returns := by
    rcases pending_start member with same | same <;> cases same <;> exact returns.elim
  futures := by simp [start]

theorem begins_of_reachable {threads : ℕ} {config : Config State JobAction}
    (reached : Reachable exec RunsBegin (start threads) config) :
    Begins config.state config.pending := by
  have both : Sane config.state config.pending ∧ Begins config.state config.pending := by
    refine reached.invariant_locked (fun s pending => Sane s pending ∧ Begins s pending)
      (fun _ => balanced_of_reachable) ⟨sane_start threads, begins_start threads⟩ ?_
    intro thread choice s call others s' calls ⟨sane, begins⟩ allowed free ran
    exact ⟨exec_step sane ran, begins_exec sane begins allowed free ran⟩
  exact both.2

/-! ## What `_scheduled` says -/

theorem Sane.scheduled_of_ahead (sane : Sane s pending) (ahead : Ahead s pending k) :
    s.scheduled = true := by
  obtain ⟨⟨-, bound, later⟩, -⟩ := ahead
  have next := sane.ordered.next
  by_contra idle
  simp only [Bool.not_eq_true] at idle
  rw [idle, Bool.toNat_false] at next
  omega

/-- A run that is chained but not started yet waits, or its closure is being called. -/
theorem Sane.waiting_chained (sane : Sane s pending) (requested : 1 ≤ k ∧ k ≤ s.count)
    (fresh : s.continued k = false) :
    .client (.chainContinuation k) ∈ (s.heap.states (.chain (k - 1))).thens ∨
      .thenRun (.chain (k - 1)) (.client (.chainContinuation k)) ∈ pending ∨
      .client (.chainContinuation k) ∈ pending := by
  have due : 0 < (Duty.registration k).account.balance s.heap pending := by
    rw [sane.accounts]
    simp [Duty.due, requested, fresh]
  have positive := requested.1
  rcases Account.exists_of_balance_pos due with
    ⟨call, member, owed⟩ | ⟨p, home, f, member, owed⟩ | ⟨p, target, -⟩
  · cases call with
    | client c =>
      cases c with
      | chainContinuation j =>
        obtain rfl : j = k := by simpa [Account.owes, Duty.account, Duty.Counts] using owed
        exact Or.inr (Or.inr member)
      | _ => simp [Account.owes, Duty.account, Duty.Counts] at owed
    | thenRun p f =>
      have waits := waits_of_registered (sane.wired.calls _ member)
      rcases owes_of_waits waits owed with same | ⟨j, n, -, same⟩
      · cases p with
        | chain j =>
          cases same
          obtain rfl := waits
          exact Or.inr (Or.inl member)
        | _ => cases same
      · cases same
    | _ => simp [Account.owes, Duty.account, Duty.target] at owed
  · obtain rfl : p = .chain (k - 1) := by simpa [Duty.account, Duty.homes] using home
    have waits : f = .client (.chainContinuation (k - 1 + 1)) :=
      waits_of_registered (sane.wired.heap.registered _ f member)
    rw [show k - 1 + 1 = k by omega] at waits
    exact Or.inl (waits ▸ member)
  · cases target

/-- Under the condition a requested run is ahead until its body begins. -/
theorem Begins.ahead (sane : Sane s pending) (begins : Begins s pending)
    (scheduled : s.scheduled = true) : Ahead s pending s.count := by
  have next := sane.ordered.next
  rw [scheduled, Bool.toNat_true] at next
  have requested : 1 ≤ s.count ∧ s.count ≤ s.count := by omega
  refine ⟨⟨requested.1, le_rfl, by omega⟩, ?_⟩
  cases fresh : s.continued s.count with
  | false =>
    refine Or.inl ⟨?_, sane.waiting_chained requested fresh⟩
    rw [← Bool.not_eq_true]
    intro stopping
    simp [begins.stopping stopping _ requested.1 requested.2] at fresh
  | true =>
    have posted := begins.chained _ fresh
    cases free : s.taskDone s.count with
    | false => exact Or.inr (Or.inl ⟨rfl, sane.queued.somewhere _ posted free (begins.kept _)⟩)
    | true => exact Or.inr (Or.inr (begins.taken _ free (by omega)))

/-- Under the condition a future of a requested run becomes ready only after the
callback was invoked for that run, or because the job is stopping. -/
theorem Begins.ready (sane : Sane s pending) (begins : Begins s pending) (positive : 1 ≤ k)
    (ready : s.heap.Ready (.chain k)) : s.invoked k = true ∨ s.stopping = true := by
  have posted := begins.chained k (sane.chained positive ready).1
  obtain ⟨r, result⟩ := Option.ne_none_iff_exists'.mp (sane.chain_ready posted ready).1
  exact begins.ran k r (Or.inr result)

/-- A run whose future is ready has ended. -/
theorem Sane.ended (sane : Sane s pending) (ready : s.heap.Ready (.chain k)) :
    ¬ InProgress s k := by
  have taken_done (taken : s.taskDone k = true) :
      s.heap.Ready (.task k) ∧ (s.created k = true → s.heap.Ready (.continuation k)) :=
    sane.chain_ready (sane.taken_requested (Or.inl taken)).1 ready
  rintro (⟨invoked, unreturned⟩ | ⟨created, unresolved⟩)
  · obtain ⟨n, calling⟩ := sane.calling_pending invoked unreturned
    have taken := (sane.expected _ calling).1
    have none := sane.nothing_owed (taken_done taken).1 calling
    simp [dutyOf, Account.owes, Duty.account, Duty.Counts] at none
  · have resolved := (taken_done (sane.ordered.created_taken k created)).2 created
    exact unresolved (sane.ordered.resolved k resolved)

/-- No run is pending or in progress. -/
def Idle (s : State) (pending : Multiset JobAction) : Prop :=
  (∀ k, ¬ Ahead s pending k) ∧ s.captured = none

/-- What a call of `trigger` does when it schedules a new run. -/
def Schedules (s : State) (setPromise : Bool) : Prop :=
  ∀ thread choice s' (calls : List JobAction) others,
    exec thread choice s (.client (.trigger setPromise)) = some (s', calls) →
      s'.future = .chain (s.count + 1) ∧ s'.invoked (s.count + 1) = false ∧
        Ahead s' (↑calls + others) (s.count + 1)

/-- No trigger is lost: `_scheduled` is set exactly while a run is ahead, a
trigger of an idle job schedules a new run, and every future that a trigger has
returned is that of a run that had not begun by then.  It is ready only when that
run has ended, or when the job stops without having called `_cb` for it. -/
def KeepsTriggers (s : State) (pending : Multiset JobAction) : Prop :=
  (s.scheduled = true ↔ ∃ k, Ahead s pending k) ∧
    (Idle s pending → s.destroying = false → ∀ setPromise, Schedules s setPromise) ∧
    ∀ f b, (f, b) ∈ s.futures → ∃ k, f = .chain k ∧ b < k ∧
      (s.heap.Ready f → (s.invoked k = true ∨ s.stopping = true) ∧ ¬ InProgress s k)

theorem Sane.schedules (sane : Sane s pending) (idle : s.scheduled = false)
    (alive : s.destroying = false) (setPromise : Bool) : Schedules s setPromise := by
  intro thread choice s' calls others ran
  have next := sane.ordered.next
  rw [idle, Bool.toNat_false, add_zero] at next
  have uninvoked : s.invoked (s.count + 1) = false := by
    rw [← Bool.not_eq_true]
    intro invoked
    have := sane.ordered.invoked_begun _ invoked
    omega
  have working : s.stopping = false := by
    rw [← Bool.not_eq_true]
    intro stopping
    simp [sane.ordered.dying stopping] at alive
  obtain ⟨s₁, acquired, stepped⟩ := Option.map_eq_some_iff.mp ran
  obtain ⟨mutex, rfl⟩ := acquire_eq acquired
  simp only [trigger, idle, Bool.false_eq_true, if_false] at stepped
  cases stepped
  refine ⟨rfl, uninvoked, ⟨by omega, le_rfl, ?_⟩, Or.inl ⟨working, Or.inr (Or.inl ?_)⟩⟩
  · simp only
    omega
  · simp [sane.ordered.future]

/-- **Under the condition no trigger is lost.** -/
theorem keepsTriggers_of_runsBegin {threads : ℕ} {config : Config State JobAction}
    (reached : Reachable exec RunsBegin (start threads) config) :
    KeepsTriggers config.state config.pending := by
  have sane := sane_of_reachable reached
  have begins := begins_of_reachable reached
  refine ⟨⟨fun scheduled => ⟨_, begins.ahead sane scheduled⟩, fun ⟨k, ahead⟩ =>
    sane.scheduled_of_ahead ahead⟩, fun idle alive => ?_, fun f b member => ?_⟩
  · refine sane.schedules ?_ alive
    rw [← Bool.not_eq_true]
    exact fun scheduled => idle.1 _ (begins.ahead sane scheduled)
  · obtain ⟨k, rfl, later⟩ := begins.futures f b member
    exact ⟨k, rfl, later, fun ready => ⟨begins.ready sane (by omega) ready, sane.ended ready⟩⟩

/-- A check of the condition on runs without `~job`. -/
def runsBegin (s : State) (call : JobAction) (choice : Choice) : Bool :=
  match call, choice with
  | .client (.cancelTask k), _ => s.taskDone k
  | .client .executor, .drop k => s.taskDone k
  | .client .destroy, _ => false
  | _, _ => true

theorem runsBegin_sound (s : State) (call : JobAction) (choice : Choice)
    (checked : runsBegin s call choice = true) : RunsBegin s call choice := by
  unfold RunsBegin
  split
  · exact checked
  · exact checked
  · cases checked
  · trivial

/-- A job is triggered, and triggered again while its callback runs. -/
def retrigger : List (ℕ × Choice) :=
  (1, .trigger false) :: List.replicate 11 ((1, .return) : ℕ × Choice) ++
    (0, .run 1) :: List.replicate 4 ((0, .return) : ℕ × Choice) ++
    (1, .trigger false) :: List.replicate 5 ((1, .return) : ℕ × Choice)

theorem keepsTriggers_retriggered : ∃ config : Config State JobAction,
    config.state.begun = 1 ∧ config.state.count = 2 ∧
      KeepsTriggers config.state config.pending := by
  have ran : ((start 1).runWithin exec runsBegin retrigger).map
      (fun config => config.state.begun == 1 && config.state.count == 2) = some true := by decide
  obtain ⟨config, reached, held⟩ := reachable_of_replay_within runsBegin_sound _ _ ran
  obtain ⟨begun, count⟩ : config.state.begun = 1 ∧ config.state.count = 2 := by simpa using held
  exact ⟨config, begun, count, keepsTriggers_of_runsBegin reached⟩

/-- A job is triggered, the future is cancelled before the executor takes the
task, and the job is triggered again. -/
def cancelBeforeBegin : List (ℕ × Choice) :=
  (1, .trigger false) :: List.replicate 11 ((1, .return) : ℕ × Choice) ++
    (1, .requestCancel 1) :: List.replicate 12 ((1, .return) : ℕ × Choice) ++
    (1, .trigger false) :: List.replicate 2 ((1, .return) : ℕ × Choice)

/-- The task was cancelled before it began, so `_scheduled` stays set although no
run is ahead, and the second trigger returns a future that is ready already. -/
theorem cancel_loses_trigger : ∃ config, Reachable exec Anything (start 1) config ∧
    config.state.scheduled = true ∧ Idle config.state config.pending ∧
      config.state.futures = [(.chain 1, 0), (.chain 1, 0)] ∧
      config.state.heap.Ready (.chain 1) ∧ config.state.invoked 1 = false ∧
      ¬ KeepsTriggers config.state config.pending := by
  have ran : ((start 1).run exec cancelBeforeBegin).map (fun config =>
      config.threads == [[.client .executor], [.client .user]] && config.state.scheduled &&
      config.state.count == 1 && config.state.captured == none &&
      config.state.futures == [(.chain 1, 0), (.chain 1, 0)] &&
      decide (config.state.heap.Ready (.chain 1)) && !config.state.invoked 1 &&
      (config.state.heap.states (.chain 0)).thens.isEmpty && config.state.taskDone 1) =
        some true := by decide
  obtain ⟨config, reached, held⟩ := reachable_of_replay _ _ ran
  simp only [Bool.and_eq_true, beq_iff_eq, decide_eq_true_eq, Bool.not_eq_true',
    List.isEmpty_iff] at held
  obtain ⟨⟨⟨⟨⟨⟨⟨⟨threads, scheduled⟩, count⟩, captured⟩, futures⟩, ready⟩, uninvoked⟩, waiting⟩,
    taken⟩ := held
  have behind : ∀ k, ¬ Ahead config.state config.pending k := by
    rintro k ⟨⟨positive, bound, -⟩, ahead⟩
    obtain rfl : k = 1 := by omega
    simp [Config.pending, threads, waiting, taken] at ahead
  refine ⟨config, reached, scheduled, ⟨behind, captured⟩, futures, ready, uninvoked, fun keeps => ?_⟩
  obtain ⟨k, ahead⟩ := keeps.1.mp scheduled
  exact behind k ahead

end Tconcurrent.Job
