import Tconcurrent.JobSteps

/-! Runs of a job exclude each other, and `~job` leaves nothing behind. -/
namespace Tconcurrent.Job
open Interleaving

variable {s : State} {pending : Multiset JobAction} {call : JobAction} {j k n : ℕ}

/-- The callback was invoked for run `k`, and has not returned or has returned a
future that is not resolved. -/
def InProgress (s : State) (k : ℕ) : Prop :=
  (s.invoked k = true ∧ s.returned k = false) ∨
    (s.created k = true ∧ ¬ s.heap.Ready (.callback k))

/-- The calls of posted tasks and continuations that use the job. -/
def Accesses : JobAction → Prop
  | .client .user => False
  | .client .executor => False
  | .client (.packagedTask _) => False
  | .client (.cancelTask _) => False
  | .client .destroy => False
  | .client (.waitDestroyed _) => False
  | .client _ => True
  | _ => False

/-! ## Exclusion -/

theorem Sane.calling_pending (sane : Sane s pending) (invoked : s.invoked j = true)
    (unreturned : s.returned j = false) : ∃ m, .client (.returnCallback j m) ∈ pending := by
  have due : 0 < (Duty.calling j).account.balance s.heap pending := by
    rw [sane.accounts]
    simp [Duty.due, invoked, unreturned]
  rcases Account.exists_of_balance_pos due with
    ⟨call, member, owed⟩ | ⟨p, home, -⟩ | ⟨p, target, -⟩
  · cases call with
    | client c =>
      cases c with
      | returnCallback i m =>
        obtain rfl : i = j := by
          simpa [Account.owes, Duty.account, Duty.Counts] using owed
        exact ⟨m, member⟩
      | _ => simp [Account.owes, Duty.account, Duty.Counts] at owed
    | thenRun p f =>
      have waits := waits_of_registered (sane.wired.calls _ member)
      rcases owes_of_waits waits owed with same | ⟨k, n, -, same⟩
      · cases p <;> cases same
      · cases same
    | _ => simp [Account.owes, Duty.account, Duty.target] at owed
  · simp [Duty.account, Duty.homes] at home
  · cases target

/-- A future that the callback returned keeps the window of its run open. -/
theorem Sane.unresolved_current (sane : Sane s pending) (created : s.created j = true)
    (unresolved : ¬ s.heap.Ready (.callback j)) : j = s.begun ∧ s.captured ≠ none := by
  have open_ : ∀ m, 0 < (Duty.window j m).due s → j = s.begun ∧ s.captured ≠ none := by
    intro m due
    obtain ⟨current, captured⟩ : j = s.begun ∧ s.captured = some m := by
      simpa [Duty.due] using due
    exact ⟨current, by simp [captured]⟩
  have due : 0 < (Duty.continuing j).account.balance s.heap pending := by
    rw [sane.accounts]
    simp [Duty.due, created]
  rcases Account.exists_of_balance_pos due with
    ⟨call, member, owed⟩ | ⟨p, home, f, member, owed⟩ | ⟨p, target, ready⟩
  · cases call with
    | client c =>
      cases c with
      | runContinuation i m =>
        obtain rfl : i = j := by simpa [Account.owes, Duty.account, Duty.Counts] using owed
        exact open_ m (sane.due_of_pending _ member (by simp [Account.owes, Duty.account, Duty.Counts]))
      | setPromises i m x =>
        obtain rfl : i = j := by simpa [Account.owes, Duty.account, Duty.Counts] using owed
        exact open_ m (sane.due_of_pending _ member (by simp [Account.owes, Duty.account, Duty.Counts]))
      | _ => simp [Account.owes, Duty.account, Duty.Counts] at owed
    | thenRun p f =>
      have waits := waits_of_registered (sane.wired.calls _ member)
      rcases owes_of_waits waits owed with same | ⟨k, n, -, same⟩
      · cases p with
        | callback i =>
          cases same
          obtain ⟨m, rfl⟩ := waits
          exact open_ m (sane.due_of_pending _ member
            (by simp [Account.owes, Duty.account, Duty.Counts]))
        | _ => cases same
      · cases same
    | finish p r =>
      obtain rfl : p = .continuation j := by
        simpa [Account.owes, Duty.account, Duty.target, eq_comm] using owed
      exact absurd (sane.expected _ member) unresolved
    | unwrapOuter fut1 sb =>
      obtain ⟨-, inner, linked⟩ := sane.wired.calls _ member
      obtain rfl : .continuation j = sb := by
        simpa [Account.owes, Duty.account, Duty.target] using owed
      cases linked
    | unwrapInner fut2 sb token =>
      obtain ⟨-, outer, linked, -⟩ := sane.wired.calls _ member
      obtain rfl : .continuation j = sb := by
        simpa [Account.owes, Duty.account, Duty.target] using owed
      cases linked
    | _ => simp [Account.owes] at owed
  · obtain rfl : p = .callback j := by simpa [Duty.account, Duty.homes] using home
    obtain ⟨m, rfl⟩ := waits_of_registered (sane.wired.heap.registered _ f member)
    refine open_ m ?_
    rw [← sane.accounts (.window j m)]
    have counted := Account.owes_le_waiting (Duty.window j m).account member
    have listed := Account.waiting_le_balance (Duty.window j m).account s.heap pending
      (p := .callback j) (by simp [Duty.account, Duty.homes])
    have one : (Duty.window j m).account.owes (.client (.runContinuation j m) : JobAction) = 1 := by
      simp [Account.owes, Duty.account, Duty.Counts]
    omega
  · obtain rfl : p = .continuation j := by
      simpa [Duty.account, Duty.target, eq_comm] using target
    exact absurd (sane.ordered.resolved j ready) unresolved

/-- The callback is invoked only when no invocation is in progress. -/
theorem Sane.exclusive (sane : Sane s pending) (member : .client (.callCallback k n) ∈ pending) :
    ¬ InProgress s j := by
  obtain ⟨current, -⟩ := sane.window_current member
    (show (Duty.window k n).Counts _ = true by simp [Duty.Counts])
  obtain ⟨⟨-, uncreated⟩, uninvoked⟩ := sane.expected _ member
  rintro (⟨invoked, unreturned⟩ | ⟨created, unresolved⟩)
  · obtain ⟨m, calling⟩ := sane.calling_pending invoked unreturned
    obtain ⟨same, -⟩ := sane.window_current calling
      (show (Duty.window j m).Counts _ = true by simp [Duty.Counts])
    rw [← current] at same
    simp [same, uninvoked] at invoked
  · have same := (sane.unresolved_current created unresolved).1
    rw [← current] at same
    simp [same, uncreated] at created

/-! ## Quiescence -/

/-- The future of a run is ready only after the closure that starts it was called. -/
theorem Sane.chained (sane : Sane s pending) (positive : 1 ≤ k) (ready : s.heap.Ready (.chain k)) :
    s.continued k = true ∧ s.heap.Ready (.chainThen k) := by
  obtain ⟨j, rfl⟩ : ∃ j, k = j + 1 := ⟨k - 1, by omega⟩
  obtain ⟨r, result⟩ := Option.ne_none_iff_exists'.mp ready
  obtain ⟨outer, -⟩ := (sane.wired.heap.resolved _ r result).1 _ _ rfl
  have due := sane.due_of_ready outer
  exact ⟨by simpa [dutyOf, Duty.due] using due, outer⟩

/-- When the last future is ready, so are all that it is chained on. -/
theorem Sane.chain_ready_below (sane : Sane s pending) (ready : s.heap.Ready (.chain k)) :
    ∀ distance, s.heap.Ready (.chain (k - distance)) := by
  intro distance
  induction distance with
  | zero => exact ready
  | succ distance ih =>
    by_cases positive : 1 ≤ k - distance
    · have before := sane.ordered.chained _ (sane.chained positive ih).1
      rwa [Nat.sub_sub] at before
    · rwa [show k - (distance + 1) = k - distance by omega]

/-- After the wait of `~job` no pending call uses the job. -/
theorem Sane.quiescent (sane : Sane s pending) (destroyed : s.destroyed = true)
    (member : call ∈ pending) : ¬ Accesses call := by
  obtain ⟨dying, last⟩ := sane.ordered.destroyed destroyed
  have ready : ∀ k, k ≤ s.count → s.heap.Ready (.chain k) := by
    intro k bound
    have below := sane.chain_ready_below last (s.count - k)
    rwa [Nat.sub_sub_self bound] at below
  have idle : ∀ {c}, .client c ∈ pending → Duty.triggering.Counts c = false := by
    intro c member
    rw [← Bool.not_eq_true]
    intro counted
    have due : 0 < Duty.triggering.due s :=
      sane.due_of_pending _ member (by simp [Account.owes, Duty.account, counted])
    exact due.ne' (sane.ordered.quiescent dying)
  have body : ∀ {c k}, .client c ∈ pending → (Duty.body k).Counts c = false := by
    intro c k member
    rw [← Bool.not_eq_true]
    intro counted
    have owed : 0 < (Duty.body k).account.owes (.client c : JobAction) := by
      simp [Account.owes, Duty.account, counted]
    have taken : s.taskDone k = true ∨ s.dropped k = true := by
      simpa [Duty.due] using sane.due_of_pending _ member owed
    obtain ⟨posted, -, -, bound⟩ := sane.taken_requested taken
    exact owed.ne' (sane.nothing_owed (sane.chain_ready posted (ready k bound)).1 member)
  have continuing : ∀ {c k}, .client c ∈ pending → (Duty.continuing k).Counts c = false := by
    intro c k member
    rw [← Bool.not_eq_true]
    intro counted
    have owed : 0 < (Duty.continuing k).account.owes (.client c : JobAction) := by
      simp [Account.owes, Duty.account, counted]
    have created : s.created k = true := by
      simpa [Duty.due] using sane.due_of_pending _ member owed
    obtain ⟨posted, -, -, bound⟩ :=
      sane.taken_requested (Or.inl (sane.ordered.created_taken k created))
    exact owed.ne' (sane.nothing_owed ((sane.chain_ready posted (ready k bound)).2 created) member)
  intro accesses
  cases call with
  | client c =>
    cases c with
    | trigger setPromise => simpa [Duty.Counts] using idle member
    | assignFuture k setPromise => simpa [Duty.Counts] using idle member
    | returnFuture setPromise => simpa [Duty.Counts] using idle member
    | chainContinuation k =>
      obtain ⟨others, rfl⟩ := Multiset.exists_cons_of_mem member
      obtain ⟨⟨positive, bound⟩, fresh, -⟩ := sane.next_chained
      simp [(sane.chained positive (ready k bound)).1] at fresh
    | endReschedule k =>
      have owed : 0 < (Duty.chaining k).account.owes (.client (.endReschedule k) : JobAction) := by
        simp [Account.owes, Duty.account, Duty.Counts]
      have continued : s.continued k = true := by
        simpa [Duty.due] using sane.due_of_pending _ member owed
      obtain ⟨positive, bound⟩ := sane.ordered.continued_requested k continued
      exact owed.ne' (sane.nothing_owed (sane.chained positive (ready k bound)).2 member)
    | runBody k => simpa [Duty.Counts] using body (k := k) member
    | callCallback k n => simpa [Duty.Counts] using body (k := k) member
    | returnCallback k n => simpa [Duty.Counts] using body (k := k) member
    | catchCallback k n e => simpa [Duty.Counts] using body (k := k) member
    | runContinuation k n => simpa [Duty.Counts] using continuing (k := k) member
    | setPromises k n i => simpa [Duty.Counts] using continuing (k := k) member
    | _ => exact accesses
  | _ => exact accesses

/-- **Runs of one job never overlap, and destruction is quiescent.**  In every
interleaving the callback is invoked only when no invocation is in progress, the
assertions hold, at most one run is requested beyond the last one begun, and
after the wait of `~job` nothing that a thread still does uses the job. -/
theorem runs_never_overlap {threads : ℕ} {config : Config State JobAction}
    (reached : Reachable exec Anything (start threads) config) :
    (∀ k n, .client (.callCallback k n) ∈ config.pending → ∀ j, ¬ InProgress config.state j) ∧
      config.state.assertFailed = false ∧
      (config.state.begun ≤ config.state.count ∧ config.state.count ≤ config.state.begun + 1) ∧
      (config.state.destroyed = true → ∀ call ∈ config.pending, ¬ Accesses call) := by
  have sane := sane_of_reachable reached
  have next := sane.ordered.next
  have flag := Bool.toNat_le config.state.scheduled
  exact ⟨fun k n member j => sane.exclusive member, sane.ordered.assertions, by omega,
    fun destroyed call member => sane.quiescent destroyed member⟩

/-- A thread triggers the job, the executor runs it to the end, and the thread
destroys the job. -/
def runAndDestroy : List (ℕ × Choice) :=
  (1, .trigger false) :: List.replicate 11 ((1, .return) : ℕ × Choice) ++
    (0, .run 1) :: List.replicate 5 ((0, .return) : ℕ × Choice) ++
    (0, .returns (some (.value (.plain 0)))) :: List.replicate 15 ((0, .return) : ℕ × Choice) ++
    (1, .destroy) :: List.replicate 3 ((1, .return) : ℕ × Choice)

theorem runs_never_overlap_destroyed : ∃ config : Config State JobAction,
    config.state.begun = 1 ∧ config.state.destroyed = true ∧
      ∀ call ∈ config.pending, ¬ Accesses call := by
  have ran : ((start 1).run exec runAndDestroy).map
      (fun config => config.state.begun == 1 && config.state.destroyed) = some true := by decide
  obtain ⟨config, reached, held⟩ := reachable_of_replay _ _ ran
  obtain ⟨begun, destroyed⟩ : config.state.begun = 1 ∧ config.state.destroyed = true := by
    simpa using held
  exact ⟨config, begun, destroyed, (runs_never_overlap reached).2.2.2 destroyed⟩

end Tconcurrent.Job
