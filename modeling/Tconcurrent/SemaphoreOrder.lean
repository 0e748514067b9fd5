import Tconcurrent.SemaphorePermits

/-! The requests of a semaphore are served in the order in which they were made. -/
namespace Tconcurrent.Semaphore
open Interleaving

variable {n threads : ℕ} {s s' : State} {pending : Multiset SemaphoreAction}
  {call : SemaphoreAction} {calls : List SemaphoreAction} {i : ℕ}
  {config : Config State SemaphoreAction}

/-- What a step does to the waiters. -/
inductive Moves (s s' : State) : Prop
  | stays (waiters : s'.waiters = s.waiters) (next : s'.next = s.next)
  | hands (i : ℕ) (waiters : s.waiters = i :: s'.waiters) (next : s'.next = s.next)
  | takes (full : s.queue ≠ 0) (waiters : s'.waiters = s.waiters) (next : s'.next = s.next + 1)
  | waits (waiters : s'.waiters = s.waiters ++ [s.next]) (next : s'.next = s.next + 1)

theorem Moves.congr {s₁ : State} (moves : Moves s s₁) (waiters : s'.waiters = s₁.waiters)
    (next : s'.next = s₁.next) : Moves s s' := by
  cases moves with
  | stays same still => exact .stays (waiters.trans same) (next.trans still)
  | hands i same still => exact .hands i (waiters ▸ same) (next.trans still)
  | takes full same more => exact .takes full (waiters.trans same) (next.trans more)
  | waits same more => exact .waits (waiters.trans same) (next.trans more)

theorem push_moves (pushed : push s = some (s', calls)) : Moves s s' := by
  unfold push at pushed
  split at pushed
  · cases pushed
  · split at pushed <;> cases pushed
    · exact .hands _ ‹_› rfl
    · exact .stays rfl rfl

theorem pop_moves {kind : Kind} (popped : pop kind s = some (s', calls)) : Moves s s' := by
  unfold pop at popped
  split at popped
  · cases popped
  · dsimp only at popped
    split at popped <;> cases popped
    · exact .takes ‹_› rfl rfl
    · exact .waits rfl rfl

theorem user_moves {choice : Choice} (ran : user s choice = some (s', calls)) : Moves s s' := by
  cases choice with
  | «return» | acquire | getScopeLock =>
    cases ran
    exact .stays rfl rfl
  | release =>
    obtain ⟨⟨s₁, calls₁⟩, pushed, same⟩ := Option.map_eq_some_iff.mp ran
    cases same
    exact (push_moves pushed).congr rfl rfl
  | destroyLock i =>
    simp only [user] at ran
    split at ran
    · obtain ⟨⟨s₁, calls₁⟩, pushed, same⟩ := Option.map_eq_some_iff.mp ran
      cases same
      exact (push_moves pushed).congr rfl rfl
    · cases ran
  | requestCancel i =>
    simp only [user] at ran
    split at ran <;> cases ran
    exact .stays rfl rfl

theorem exec_moves {thread : ℕ} {choice : Choice}
    (ran : exec thread choice s call = some (s', calls)) : Moves s s' := by
  by_cases program : ∃ c, call = .client c
  · obtain ⟨c, rfl⟩ := program
    have ran : clientExec choice s c = some (s', calls) := ran
    cases c with
    | user => exact user_moves ran
    | pop kind => exact pop_moves ran
    | andThen i | returnFuture i | endPush =>
      cases ran
      exact .stays rfl rfl
    | packagedTask i =>
      have ran : packagedTask i s = (s', calls) := Option.some.inj ran
      unfold packagedTask at ran
      split at ran
      · split at ran
        · cases ran
          exact .stays rfl rfl
        · split at ran <;> cases ran <;> exact .stays rfl rfl
      all_goals
        cases ran
        exact .stays rfl rfl
  · rw [exec_library fun c same => program ⟨c, same⟩] at ran
    cases ran
    exact .stays rfl rfl

/-- Those who wait are the last who have asked. -/
def Ordered (s : State) : Prop :=
  ∃ first ≤ s.next, s.waiters = List.range' first (s.next - first)

theorem Ordered.next (sane : Sane n s pending) (ordered : Ordered s) (moves : Moves s s') :
    Ordered s' := by
  obtain ⟨first, bound, listed⟩ := ordered
  cases moves with
  | stays waiters next => exact ⟨first, by omega, by rw [waiters, next, listed]⟩
  | hands i waiters next =>
    have some : 0 < s.next - first := by
      have length := congrArg List.length listed
      rw [waiters, List.length_cons, List.length_range'] at length
      omega
    refine ⟨first + 1, by omega, ?_⟩
    obtain ⟨rest, same⟩ := Nat.exists_eq_succ_of_ne_zero some.ne'
    rw [waiters, same, List.range'_succ] at listed
    rw [(List.cons.inj listed).2, next]
    congr 1
    omega
  | takes full waiters next =>
    have none := sane.exclusive.resolve_right full
    exact ⟨s'.next, le_rfl, by rw [waiters, none, Nat.sub_self]; rfl⟩
  | waits waiters next =>
    refine ⟨first, by omega, ?_⟩
    have longer : s'.next - first = (s.next - first) + 1 := by omega
    rw [waiters, listed, longer, List.range'_concat]
    congr 2
    omega

theorem ordered_of_reachable (reached : Reachable exec Anything (start n threads) config) :
    Ordered config.state := by
  have both : Sane n config.state config.pending ∧ Ordered config.state := by
    refine reached.invariant (fun s pending => Sane n s pending ∧ Ordered s)
      ⟨sane_start n threads, 0, le_rfl, rfl⟩ ?_
    rintro thread choice s call others s' calls ⟨sane, ordered⟩ - ran
    exact ⟨exec_step sane ran, ordered.next sane (exec_moves ran)⟩
  exact both.2

/-- The permits that there were so far go to the first requests, and to no others. -/
structure ServesInOrder (n : ℕ) (s : State) (pending : Multiset SemaphoreAction) : Prop where
  waiting : ∀ i < s.next, i ∈ s.waiters ↔ n + s.releases + s.destroyed.card ≤ i
  left : count s = n + s.releases + s.destroyed.card - s.next
  answered : Quiet pending → ∀ i < s.next,
    s.heap.Ready (.result i) ↔ i < n + s.releases + s.destroyed.card

/-- **A semaphore is first come, first served.**  A request waits exactly as long as there were
not more permits than requests before it, whatever they asked for and whether or not they were
cancelled; and it has an answer otherwise, when no thread is inside the semaphore. -/
theorem serves_in_order (reached : Reachable exec Anything (start n threads) config) :
    ServesInOrder n config.state config.pending := by
  have sane := sane_of_reachable reached
  obtain ⟨first, bound, listed⟩ := ordered_of_reachable reached
  have permits := sane.permits
  have exclusive := sane.exclusive
  rw [listed, List.length_range'] at permits
  have waiting : ∀ i < config.state.next, i ∈ config.state.waiters ↔
      n + config.state.releases + config.state.destroyed.card ≤ i := by
    intro i asked
    rw [listed, List.mem_range'_1]
    rw [listed, List.range'_eq_nil_iff] at exclusive
    omega
  have left : count config.state =
      n + config.state.releases + config.state.destroyed.card - config.state.next := by
    rw [listed, List.range'_eq_nil_iff] at exclusive
    unfold count
    omega
  refine ⟨waiting, left, fun quiet i asked => ?_⟩
  rcases sane.waits_or_ends quiet asked with ⟨waits, unready⟩ | ⟨waits, ready⟩
  · rw [waiting i asked] at waits
    exact iff_of_false unready (by omega)
  · rw [waiting i asked] at waits
    exact iff_of_true ready (by omega)

/-- Of three requests the last was cancelled and waits; the lock of the first was destroyed. -/
theorem handOver_in_order : ∃ config : Config State SemaphoreAction,
    config.state.waiters = [2] ∧ config.state.next = 3 ∧
      ServesInOrder 1 config.state config.pending := by
  have ran : ((start 1 1).run exec handOver).map (fun config =>
      config.state.waiters == [2] && config.state.next == 3) = some true := by decide
  obtain ⟨config, reached, held⟩ := reachable_of_replay _ _ ran
  simp only [Bool.and_eq_true, beq_iff_eq] at held
  exact ⟨config, held.1, held.2, serves_in_order reached⟩

end Tconcurrent.Semaphore
