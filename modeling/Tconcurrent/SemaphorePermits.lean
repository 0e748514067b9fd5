import Tconcurrent.SemaphoreSteps

/-! Where the permits of a semaphore are. -/
namespace Tconcurrent.Semaphore
open Interleaving

variable {n threads : ℕ} {s s' : State} {pending others : Multiset SemaphoreAction}
  {call : SemaphoreAction} {calls : List SemaphoreAction} {c : SemaphoreCall} {i : ℕ}
  {config : Config State SemaphoreAction}

theorem sane_start (n threads : ℕ) : Sane n (start n threads).state (start n threads).pending := by
  have alone : Sane n (start n 0).state 0 :=
    { heap := ⟨by simp [start], by simp [start], by simp [start]⟩
      calls := by simp
      accounts := fun duty => by
        cases duty <;>
          simp [start, Account.balance, Account.waiting, Account.settled, Duty.account, Duty.due]
      drained := fun p ready => absurd rfl ready
      permits := by simp [start]
      distinct := List.nodup_nil
      waiting := by simp [start]
      exclusive := Or.inl rfl
      granted := by simp [Outcome, start]
      ended := by simp [Outcome, start]
      held := by simp [start]
      apart := Finset.disjoint_empty_left _ }
  have every : ∀ users, Sane n (start n 0).state (Multiset.replicate users (.client .user)) := by
    intro users
    induction users with
    | zero => exact alone
    | succ users ih =>
      rw [Multiset.replicate_succ]
      exact ih.user
  have pending := Config.pending_replicate (start n threads).state threads
    (Call.client SemaphoreCall.user : SemaphoreAction)
  rw [show (start n threads).pending = _ from pending]
  exact every threads

theorem sane_of_reachable {allowed : State → SemaphoreAction → Choice → Prop}
    (reached : Reachable exec allowed (start n threads) config) :
    Sane n config.state config.pending :=
  reached.invariant (Sane n) (sane_start n threads) fun _ _ _ _ _ _ _ sane _ ran => exec_step sane ran

/-! ## Conservation -/

/-- No thread is inside a function of the semaphore. -/
def Quiet (pending : Multiset SemaphoreAction) : Prop := ∀ call ∈ pending, call = .client .user

/-- The `acquire` futures that completed with a value. -/
def acquired (s : State) : Finset ℕ :=
  (Finset.range s.next).filter fun i => s.kind i = .acquire ∧ s.heap.hasValue (.result i) = true

/-- The futures that ended with `operation_canceled`. -/
def canceled (s : State) : Finset ℕ :=
  (Finset.range s.next).filter fun i =>
    (s.heap.states (.result i)).r = some (.exception .operationCanceled)

private theorem hasValue_of_result {heap : SemaphoreHeap} {p : SemaphoreState}
    {v : Value SemaphoreState ℕ} (result : (heap.states p).r = some (.value v)) :
    heap.hasValue p = true := by simp [Heap.hasValue, result]

private theorem ready_of_hasValue {heap : SemaphoreHeap} {p : SemaphoreState}
    (value : heap.hasValue p = true) : heap.Ready p := by
  intro unresolved
  simp [Heap.hasValue, unresolved] at value

/-- When nobody is inside, a request that waits has no result, and any other has one. -/
theorem Sane.waits_or_ends (sane : Sane n s pending) (quiet : Quiet pending) (bound : i < s.next) :
    (i ∈ s.waiters ∧ ¬ s.heap.Ready (.result i)) ∨ (i ∉ s.waiters ∧ s.heap.Ready (.result i)) := by
  have idle : ∀ duty : Duty, weight duty.account.owes pending = 0 := by
    intro duty
    apply Multiset.sum_eq_zero
    intro value member
    obtain ⟨call, held, rfl⟩ := Multiset.mem_map.mp member
    rw [quiet call held]
    exact owes_user duty
  have popped := sane.accounts (.popped i)
  have result := sane.accounts (.result i)
  simp only [Account.balance, idle, zero_add] at popped result
  by_cases waits : i ∈ s.waiters
  · refine Or.inl ⟨waits, fun ready => ?_⟩
    obtain ⟨r, ends⟩ := Option.ne_none_iff_exists'.mp ready
    have settled : (Duty.popped i).account.settled s.heap = 1 :=
      Account.settled_of_ready rfl (ready_of_hasValue (sane.ended i r (Or.inr ends)).1)
    simp [Duty.due, Duty.account, waits] at popped settled
    omega
  · have ready : s.heap.Ready (.popped i) := by
      intro unresolved
      simp [Duty.account, Account.settled, Duty.target, unresolved, Duty.due, waits, bound] at popped
    have empty := sane.drained _ ready
    refine Or.inr ⟨waits, fun unresolved => ?_⟩
    simp [Duty.account, Account.settled, Account.waiting, Duty.target, unresolved, Duty.due, empty,
      bound] at result

/-- **Every permit is accounted for.**  A request that ended with
`operation_canceled` has used one up. -/
theorem permits_accounted (sane : Sane n s pending) (quiet : Quiet pending) :
    n + s.releases = count s + (acquired s).card + s.locks.card + (canceled s).card := by
  have ends : ∀ i < s.next, i ∉ s.waiters → i ∈ acquired s ∨ i ∈ s.locks ∪ s.destroyed ∨
      i ∈ canceled s := by
    intro i bound waits
    have ready := ((sane.waits_or_ends quiet bound).resolve_left fun both => waits both.1).2
    obtain ⟨r, result⟩ := Option.ne_none_iff_exists'.mp ready
    obtain ⟨-, rfl | ⟨⟨v, rfl⟩, lock⟩⟩ := sane.ended i r (Or.inr result)
    · exact Or.inr (Or.inr (by simp [canceled, bound, result]))
    · cases kind : s.kind i with
      | acquire => exact Or.inl (by simp [acquired, bound, kind, hasValue_of_result result])
      | getScopeLock => exact Or.inr (Or.inl (lock kind))
  have live : ∀ i ∈ s.locks ∪ s.destroyed, i < s.next ∧ s.kind i = .getScopeLock ∧
      s.heap.hasValue (.result i) = true := by
    intro i lock
    obtain ⟨bound, kind, v, outcome⟩ := sane.held i lock
    refine ⟨bound, kind, hasValue_of_result (outcome.resolve_left fun member => ?_)⟩
    cases quiet _ member
  have ready : ∀ i, s.heap.hasValue (.result i) = true ∨
      (s.heap.states (.result i)).r = some (.exception .operationCanceled) → i < s.next →
        i ∉ s.waiters := by
    intro i result bound waits
    have unready := ((sane.waits_or_ends quiet bound).resolve_right fun both => both.1 waits).2
    rcases result with value | failed
    · exact unready (ready_of_hasValue value)
    · exact unready (Heap.ready_of_result failed)
  have parts : Finset.range s.next =
      s.waiters.toFinset ∪ (acquired s ∪ ((s.locks ∪ s.destroyed) ∪ canceled s)) := by
    ext i
    simp only [Finset.mem_range, Finset.mem_union, List.mem_toFinset]
    constructor
    · intro bound
      by_cases waits : i ∈ s.waiters
      · exact Or.inl waits
      · simpa only [Finset.mem_union] using Or.inr (ends i bound waits)
    · rintro (waits | taken | lock | gone)
      · exact sane.waiting i waits
      · exact Finset.mem_range.mp (Finset.mem_filter.mp taken).1
      · exact (live i (Finset.mem_union.mpr lock)).1
      · exact Finset.mem_range.mp (Finset.mem_filter.mp gone).1
  have disjoint : Disjoint s.waiters.toFinset (acquired s ∪ ((s.locks ∪ s.destroyed) ∪ canceled s)) ∧
      Disjoint (acquired s) ((s.locks ∪ s.destroyed) ∪ canceled s) ∧
      Disjoint (s.locks ∪ s.destroyed) (canceled s) := by
    refine ⟨Finset.disjoint_left.mpr fun i waits ended => ?_,
      Finset.disjoint_left.mpr fun i taken ended => ?_, Finset.disjoint_left.mpr fun i lock gone => ?_⟩
    · rw [List.mem_toFinset] at waits
      have bound := sane.waiting i waits
      rcases Finset.mem_union.mp ended with taken | ended
      · exact ready i (Or.inl (Finset.mem_filter.mp taken).2.2) bound waits
      rcases Finset.mem_union.mp ended with lock | gone
      · exact ready i (Or.inl (live i lock).2.2) bound waits
      · exact ready i (Or.inr (Finset.mem_filter.mp gone).2) bound waits
    · obtain ⟨-, kind, value⟩ := Finset.mem_filter.mp taken
      rcases Finset.mem_union.mp ended with lock | gone
      · have other := (live i lock).2.1
        rw [kind] at other
        cases other
      · simp [Heap.hasValue, (Finset.mem_filter.mp gone).2] at value
    · have value := (live i lock).2.2
      simp [Heap.hasValue, (Finset.mem_filter.mp gone).2] at value
  have total := congrArg Finset.card parts
  rw [Finset.card_range, Finset.card_union_of_disjoint disjoint.1,
    Finset.card_union_of_disjoint disjoint.2.1, Finset.card_union_of_disjoint disjoint.2.2,
    Finset.card_union_of_disjoint sane.apart, List.toFinset_card_of_nodup sane.distinct] at total
  have permits := sane.permits
  unfold count
  omega

/-! ## Requests that are cancelled -/

/-- No permit is handed to a request that was cancelled: the token is not
cancelled when the packaged task looks at it. -/
def HandsToLive (s : State) (call : SemaphoreAction) (_ : Choice) : Prop :=
  ∀ i, call = .client (.packagedTask i) → (s.heap.tokens i).isCancelRequested = false

/-- Whether no request has failed, or is about to. -/
def Unfailed (s : State) (pending : Multiset SemaphoreAction) : Prop :=
  ∀ i e, ¬ Outcome s.heap pending (.result i) (.exception e)

theorem result_of_setState {heap : SemaphoreHeap} {p q : SemaphoreState}
    {state : SharedBase SemaphoreState ℕ SemaphoreCall} {e : Exc}
    (harmless : state.r ≠ some (.exception e))
    (result : ((heap.setState p state).states q).r = some (.exception e)) :
    (heap.states q).r = some (.exception e) := by
  by_cases same : q = p
  · subst same
    rw [Heap.setState_states_self] at result
    exact absurd result harmless
  · rwa [Heap.setState_states_ne state same] at result

/-- The steps of the program let no request fail as long as no permit goes to a
cancelled one. -/
theorem unfailed_client {choice : Choice} (sane : Sane n s (.client c ::ₘ others))
    (unfailed : Unfailed s (.client c ::ₘ others)) (allowed : HandsToLive s (.client c) choice)
    (ran : clientExec choice s c = some (s', calls)) : Unfailed s' (↑calls + others) := by
  -- A step fails a request by what it makes, or by what it sets up.
  have frame : (∀ i e, .finish (.result i) (.exception e) ∉ calls) →
      (∀ i e, (s'.heap.states (.result i)).r = some (.exception e) →
        (s.heap.states (.result i)).r = some (.exception e)) → Unfailed s' (↑calls + others) := by
    rintro quiet results i e (member | result)
    · rcases Multiset.mem_add.mp member with made | other
      · exact quiet i e (Multiset.mem_coe.mp made)
      · exact unfailed i e (Or.inl (Multiset.mem_cons_of_mem other))
    · exact unfailed i e (Or.inr (results i e result))
  have push_quiet : ∀ s₁ calls₁, push s = some (s₁, calls₁) → s₁.heap = s.heap ∧
      ∀ i e, Call.finish (.result i) (.exception e) ∉ calls₁ := by
    intro s₁ calls₁ pushed
    unfold push at pushed
    split at pushed
    · cases pushed
    · split at pushed <;> cases pushed <;> exact ⟨rfl, by simp⟩
  cases c with
  | user =>
    cases choice with
    | release =>
      obtain ⟨⟨s₁, calls₁⟩, pushed, same⟩ := Option.map_eq_some_iff.mp ran
      cases same
      obtain ⟨heap, quiet⟩ := push_quiet s₁ calls₁ pushed
      apply frame
      · simpa using quiet
      · simp [heap]
    | destroyLock i =>
      simp only [clientExec, user] at ran
      split at ran
      · obtain ⟨⟨s₁, calls₁⟩, pushed, same⟩ := Option.map_eq_some_iff.mp ran
        cases same
        obtain ⟨heap, quiet⟩ := push_quiet s₁ calls₁ pushed
        apply frame
        · simpa using quiet
        · simp [heap]
      · cases ran
    | requestCancel i =>
      simp only [clientExec, user] at ran
      split at ran
      · cases ran
        exact frame (by simp) fun _ _ => id
      · cases ran
    | _ =>
      cases ran
      exact frame (by simp) fun _ _ => id
  | pop kind =>
    simp only [clientExec, pop] at ran
    split at ran
    · cases ran
    · split at ran <;> cases ran <;>
        exact frame (by simp) fun _ _ => result_of_setState (by simp)
  | andThen i =>
    cases ran
    exact frame (by simp) fun _ _ => result_of_setState (by simp)
  | returnFuture i =>
    cases ran
    exact frame (by simp) fun _ _ => id
  | packagedTask i =>
    have live := allowed i rfl
    have ran := Option.some.inj ran
    simp only [packagedTask, live] at ran
    split at ran
    · split at ran
      · rename_i requested
        cases requested
      · split at ran <;> cases ran <;> exact frame (by simp) fun _ _ => id
    · rename_i e result
      obtain ⟨v, same⟩ := sane.granted i _ (Or.inr result)
      cases same
    · cases ran
      exact frame (by simp) fun _ _ => id
  | endPush =>
    cases ran
    exact frame (by simp) fun _ _ => id

/-- **Under the condition no request fails.** -/
theorem unfailed_of_handsToLive (reached : Reachable exec HandsToLive (start n threads) config) :
    Unfailed config.state config.pending := by
  have both : Sane n config.state config.pending ∧ Unfailed config.state config.pending := by
    refine reached.invariant (fun s pending => Sane n s pending ∧ Unfailed s pending)
      ⟨sane_start n threads, ?_⟩ ?_
    · rintro i e (member | result)
      · obtain ⟨agenda, listed, held⟩ := List.mem_flatten.mp (Multiset.mem_coe.mp member)
        rw [(List.mem_replicate.mp listed).2] at held
        simp at held
      · cases result
    · rintro thread choice s call others s' calls ⟨sane, unfailed⟩ allowed ran
      refine ⟨exec_step sane ran, ?_⟩
      by_cases program : ∃ c, call = .client c
      · obtain ⟨c, rfl⟩ := program
        exact unfailed_client sane unfailed allowed ran
      · have library : ∀ c, call ≠ .client c := fun c same => program ⟨c, same⟩
        rw [exec_library library] at ran
        cases ran
        intro i e outcome
        apply unfailed i e
        apply exec_outcome sane.heap (sane.calls call (Multiset.mem_cons_self _ _)) rfl
        rcases userCode_cases call with none | one
        · simpa [Outcome, none] using outcome
        · simpa [Outcome, one] using outcome
  exact both.2

/-- The permits are conserved, a request that was cancelled has used none, and
no live waiter stays pending while the semaphore has a permit or has given one
to a request that was cancelled. -/
structure ConservesPermits (n : ℕ) (s : State) (pending : Multiset SemaphoreAction) : Prop where
  conserved : Quiet pending → n + s.releases = count s + (acquired s).card + s.locks.card
  unspent : ∀ i ∈ canceled s, s.heap.hasValue (.popped i) = false
  served : ∀ i ∈ s.waiters, (s.heap.tokens i).isCancelRequested = false →
    count s = 0 ∧ ∀ j ∈ canceled s, s.heap.hasValue (.popped j) = false

/-- **Under the condition every permit is conserved.** -/
theorem conservesPermits_of_handsToLive
    (reached : Reachable exec HandsToLive (start n threads) config) :
    ConservesPermits n config.state config.pending := by
  have sane := sane_of_reachable reached
  have unfailed := unfailed_of_handsToLive reached
  have none : canceled config.state = ∅ := by
    apply Finset.eq_empty_of_forall_notMem
    intro i failed
    exact unfailed i _ (Or.inr (Finset.mem_filter.mp failed).2)
  constructor
  · intro quiet
    have accounted := permits_accounted sane quiet
    rwa [none, Finset.card_empty, add_zero] at accounted
  · simp [none]
  · intro i waits live
    refine ⟨sane.exclusive.resolve_left (List.ne_nil_of_mem waits), by simp [none]⟩

/-- A check of the condition. -/
def handsToLive (s : State) (call : SemaphoreAction) (_ : Choice) : Bool :=
  match call with
  | .client (.packagedTask i) => !(s.heap.tokens i).isCancelRequested
  | _ => true

theorem handsToLive_sound (s : State) (call : SemaphoreAction) (choice : Choice)
    (checked : handsToLive s call choice = true) : HandsToLive s call choice := by
  rintro i rfl
  simpa [handsToLive] using checked

/-- A lock is taken, two requests wait, the second of them is cancelled, and the
lock is destroyed. -/
def handOver : List (ℕ × Choice) :=
  (0, .getScopeLock) :: List.replicate 7 ((0, .return) : ℕ × Choice) ++
    (0, .acquire) :: List.replicate 4 ((0, .return) : ℕ × Choice) ++
    (0, .acquire) :: List.replicate 4 ((0, .return) : ℕ × Choice) ++
    (0, .requestCancel 2) :: (0, .return) :: (0, .destroyLock 0) ::
    List.replicate 5 ((0, .return) : ℕ × Choice)

theorem conservesPermits_handOver : ∃ config : Config State SemaphoreAction,
    config.state.waiters = [2] ∧ (config.state.heap.tokens 2).isCancelRequested = true ∧
      acquired config.state = {1} ∧ ConservesPermits 1 config.state config.pending := by
  have ran : ((start 1 1).runWithin exec handsToLive handOver).map (fun config =>
      config.state.waiters == [2] && (config.state.heap.tokens 2).isCancelRequested &&
      decide (acquired config.state = {1})) = some true := by decide
  obtain ⟨config, reached, held⟩ := reachable_of_replay_within handsToLive_sound _ _ ran
  simp only [Bool.and_eq_true, beq_iff_eq, decide_eq_true_eq] at held
  obtain ⟨⟨waiters, cancelled⟩, taken⟩ := held
  exact ⟨config, waiters, cancelled, taken, conservesPermits_of_handsToLive reached⟩

/-- Two requests wait, the first of them is cancelled, and a permit is released. -/
def releaseToCancelled : List (ℕ × Choice) :=
  (0, .acquire) :: List.replicate 4 ((0, .return) : ℕ × Choice) ++
    (0, .requestCancel 0) :: (0, .return) :: (0, .acquire) ::
    List.replicate 4 ((0, .return) : ℕ × Choice) ++
    (0, .release) :: List.replicate 5 ((0, .return) : ℕ × Choice)

/-- The cancelled request swallows the permit, and the other one stays pending. -/
theorem release_to_cancelled_loses_permit : ∃ config : Config State SemaphoreAction,
    Reachable exec Anything (start 0 1) config ∧ config.state.releases = 1 ∧
      count config.state = 0 ∧ acquired config.state = ∅ ∧ config.state.locks = ∅ ∧
      config.state.waiters = [1] ∧ canceled config.state = {0} ∧
      ¬ ConservesPermits 0 config.state config.pending := by
  have ran : ((start 0 1).run exec releaseToCancelled).map (fun config =>
      config.threads == [[.client .user]] && config.state.releases == 1 &&
      count config.state == 0 && decide (acquired config.state = ∅) &&
      decide (config.state.locks = ∅) && config.state.waiters == [1] &&
      decide (canceled config.state = {0})) = some true := by decide
  obtain ⟨config, reached, held⟩ := reachable_of_replay _ _ ran
  simp only [Bool.and_eq_true, beq_iff_eq, decide_eq_true_eq] at held
  obtain ⟨⟨⟨⟨⟨⟨threads, releases⟩, none⟩, taken⟩, locks⟩, waiters⟩, cancelled⟩ := held
  refine ⟨config, reached, releases, none, taken, locks, waiters, cancelled, fun conserves => ?_⟩
  have conserved := conserves.conserved (by simp [Quiet, Config.pending, threads])
  simp [releases, none, taken, locks] at conserved

end Tconcurrent.Semaphore
