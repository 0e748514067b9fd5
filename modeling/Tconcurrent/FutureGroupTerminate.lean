import Tconcurrent.FutureGroupTasks

/-! What a `future_group` and a `task_canceler` promise about every run. -/
namespace Tconcurrent.FutureGroup
open Interleaving

variable {s s' : State} {pending others : Multiset GroupCall} {call : GroupCall}
  {calls : List GroupCall} {kind : Kind} {token : ℕ → ℕ} {threads : ℕ}
  {config : Config State GroupCall}

/-- User code comes and goes. -/
theorem Sane.user (sane : Sane s pending) : Sane s (.user ::ₘ pending) := by
  apply sane.frame
  · simp [holds]
  · simp [resolves]
  · intro call member held
    rcases Multiset.mem_cons.mp member with rfl | old
    · cases held
    · exact old

theorem Sane.of_user (sane : Sane s (.user ::ₘ others)) : Sane s others := by
  apply sane.frame
  · simp [holds]
  · simp [resolves]
  · exact fun call member _ => Multiset.mem_cons_of_mem member

/-- The function given to `run` is called under the mutex. -/
theorem Sane.run (sane : Sane s others) (unlocked : s.locked = false) :
    Sane (run s).1 (↑(run s).2 + others) := by
  unfold FutureGroup.run
  split
  · exact (sane.setErrors _).user
  · rename_i accepts
    have running : s.terminating = false := by simpa using accepts
    have alone : ∀ call ∈ others, holds call ≠ 1 := fun call member => by
      rw [sane.free unlocked member]
      exact Nat.zero_ne_one
    have lock : weight holds others = 0 := by
      rw [sane.lock, unlocked]
      rfl
    have no_loop : ∀ late rest requested, .cancelTaken late rest requested ∉
        (↑[GroupCall.user, .functionReturn, .user] + others : Multiset GroupCall) := by
      intro late rest requested member
      rcases Multiset.mem_add.mp member with made | old
      · simp at made
      · exact alone _ old rfl
    exact {
      lock := by simp [holds, lock]
      fresh := sane.fresh
      futures := sane.futures
      distinct := sane.distinct
      tracked := sane.tracked
      apart := sane.apart
      source := sane.source
      due := fun k => by simpa [resolves, Ready] using sane.due k
      looping := fun late rest requested member => absurd member (no_loop late rest requested)
      running := fun _ => running
      terminations := fun t member =>
        let kept := sane.terminations t member
        ⟨kept.entries, kept.distinct, kept.cancels, kept.requested, kept.counted, kept.ready,
          kept.value, kept.late⟩
      closed := fun _ free => absurd free (by simp)
      added := sane.added
      group := sane.group
      asserts := sane.asserts }

/-- `terminate` is called, and user code goes on behind it. -/
theorem user_step {choice : Choice} (sane : Sane s (.user ::ₘ others))
    (ran : user s choice = some (s', calls)) : Sane s' (↑calls + others) := by
  have rest := sane.of_user
  cases choice with
  | «return» =>
    cases ran
    simpa using rest
  | add u =>
    simp only [FutureGroup.user] at ran
    split at ran
    · cases ran
    · rename_i free
      cases ran
      exact (rest.add (by simpa using fun locked => free (Or.inl locked))).user
  | run =>
    simp only [FutureGroup.user] at ran
    split at ran
    · cases ran
    · rename_i free
      have made : run s = (s', calls) := Option.some.inj ran
      have stepped := rest.run (by simpa using fun locked => free (Or.inl locked))
      rwa [made] at stepped
  | terminate =>
    simp only [FutureGroup.user] at ran
    split at ran
    · cases ran
    · rename_i free
      have unlocked : s.locked = false := by simpa using free
      split at ran
      · cases ran
        exact rest.terminate unlocked fun _ => rfl
      · rename_i canceler
        cases ran
        exact rest.terminate unlocked fun group => by rw [canceler] at group; cases group
  | destroy =>
    simp only [FutureGroup.user] at ran
    split at ran
    · cases ran
    · rename_i free
      cases ran
      exact rest.terminate (by simpa using fun locked => free (Or.inl locked)) fun _ => rfl
  | complete u r =>
    simp only [FutureGroup.user] at ran
    split at ran
    · cases ran
    · rename_i unready
      have made : complete u r s = (s', calls) := Option.some.inj ran
      have stepped := rest.complete (r := r) (u := u) (by simpa using unready)
      rwa [made] at stepped
  | requestCancel u =>
    simp only [FutureGroup.user] at ran
    split at ran
    · cases ran
      exact sane
    · cases ran
      simpa [← Multiset.cons_coe] using (rest.request (s.token u)).user.user
  | cancelReturned i =>
    have made : cancelReturned i s = (s', calls) := Option.some.inj ran
    unfold cancelReturned at made
    split at made
    · cases made
      exact sane
    · rename_i t inside
      split at made
      · cases made
        refine (rest.cancelReturned inside).user.replace rfl (fun _ => rfl) ?_
        intro call member
        rcases List.mem_append.mp member with listed | last
        · obtain ⟨k, -, rfl⟩ := List.mem_map.mp listed
          exact ⟨rfl, fun _ => rfl⟩
        · rw [List.mem_singleton.mp last]
          exact ⟨rfl, fun _ => rfl⟩
      · cases made
        exact sane
  | future u => cases ran
  | throw => cases ran

theorem cancelEntry_step {k : ℕ} (sane : Sane s (.cancelEntry k ::ₘ others)) :
    Sane (cancelEntry k s).1 (↑(cancelEntry k s).2 + others) := by
  have rest : Sane s others := by
    have dropped : Sane s (↑([] : List GroupCall) + others) :=
      sane.replace rfl (fun _ => rfl) (by simp)
    simpa using dropped
  unfold cancelEntry
  split
  · exact (rest.request _).user
  · simpa using rest

theorem cancelTaken_step {late : Bool} {rest requested : List ℕ}
    (sane : Sane s (.cancelTaken late rest requested ::ₘ others)) :
    Sane (cancelTaken late requested s rest).1
      (↑(cancelTaken late requested s rest).2 + others) := by
  cases rest with
  | nil => simpa [cancelTaken] using sane.whenAll
  | cons k rest =>
    have loop := sane.looping late (k :: rest) requested (Multiset.mem_cons_self _ _)
    unfold cancelTaken
    by_cases waits : (s.void k).isNone = true
    · simp only [cancelEntry, if_pos waits]
      have flagged := sane.request (s.token (s.source k))
      have again := flagged.looping late (k :: rest) requested (Multiset.mem_cons_self _ _)
      have bound : k < s.next := by
        obtain ⟨done, split, -⟩ := loop.passed
        exact sane.futures k (by simp [split])
      rw [List.singleton_append, ← Multiset.cons_coe, Multiset.cons_add]
      apply Sane.user
      apply flagged.passed (fun j listed => List.mem_append_left _ listed)
      · intro j listed
        rcases List.mem_append.mp listed with old | new
        · exact again.requested j old
        · rw [List.mem_singleton.mp new]
          exact ⟨bound, Function.update_self ..⟩
      · exact fun _ => List.mem_append_right _ (List.mem_singleton_self _)
    · simp only [if_neg waits]
      apply sane.passed (fun j listed => listed) loop.requested
      intro unready
      exact absurd (Option.isNone_iff_eq_none.mpr (not_not.mp unready)) waits

/-- **Every step of every thread keeps the invariant.** -/
theorem exec_step {thread : ℕ} {choice : Choice} (sane : Sane s (call ::ₘ others))
    (ran : exec thread choice s call = some (s', calls)) : Sane s' (↑calls + others) := by
  cases call with
  | user => exact user_step sane ran
  | toVoid k =>
    cases ran
    simpa using sane.toVoid
  | functionReturn =>
    cases choice with
    | future u =>
      cases ran
      simpa using sane.functionReturn
    | throw =>
      cases ran
      simpa using sane.unlock.1
    | _ => cases ran
  | cancelEntry k =>
    have made : cancelEntry k s = (s', calls) := Option.some.inj ran
    have stepped := cancelEntry_step sane
    rwa [made] at stepped
  | cancelTaken late rest requested =>
    have made : cancelTaken late requested s rest = (s', calls) := Option.some.inj ran
    have stepped := cancelTaken_step sane
    rwa [made] at stepped

theorem sane_start (kind : Kind) (token : ℕ → ℕ) (threads : ℕ) :
    Sane (start kind token threads).state (start kind token threads).pending := by
  have alone : Sane (start kind token threads).state 0 :=
    { lock := rfl
      fresh := fun _ _ => rfl
      futures := by simp [start]
      distinct := List.nodup_nil
      tracked := fun k bound => absurd bound (Nat.not_lt_zero k)
      apart := by simp [start]
      source := fun k ready => absurd rfl ready
      due := by simp [start]
      looping := by simp
      running := fun _ => rfl
      terminations := by simp [start]
      closed := fun _ _ => rfl
      added := by simp [start]
      group := by simp [start]
      asserts := rfl }
  have every : ∀ users, Sane (start kind token threads).state
      (Multiset.replicate users GroupCall.user) := by
    intro users
    induction users with
    | zero => exact alone
    | succ users ih =>
      rw [Multiset.replicate_succ]
      exact ih.user
  have pending : (start kind token threads).pending = Multiset.replicate threads .user :=
    Config.pending_replicate _ threads GroupCall.user
  rw [pending]
  exact every threads

/-- What a `terminate` that took `t.taken` has done, and what its future tells. -/
structure Terminated (s : State) (pending : Multiset GroupCall) (t : Termination) : Prop where
  /-- It has requested the cancelation of every taken future that is not ready. -/
  cancels : ∀ k ∈ t.taken, ¬ Ready s k →
    k ∈ t.requested ∧ s.requested (s.token (s.source k)) = true
  /-- Its future is ready when every taken future is. -/
  ready : t.future ≠ none ↔ ∀ k ∈ t.taken, Ready s k
  /-- So are the user's futures, unless a continuation of one still has to run. -/
  user : (∀ k, .toVoid k ∉ pending) →
    (t.future ≠ none ↔ ∀ k ∈ t.taken, s.user (s.source k) ≠ none)
  value : ∀ r, t.future = some r → t.canceled = false → r = .value
  /-- Nothing was there to take, or the object was terminating already. -/
  atOnce : t.taken = [] ∨ t.late = true → t.future ≠ none

structure LosesNoTask (s : State) (pending : Multiset GroupCall) : Prop where
  /-- The `k`-th future that was added when it was not ready is in the vector, or
  taken, until it is ready. -/
  tracked : ∀ k u, s.added[k]? = some u → s.user u = none →
    k ∈ s.futures ∨ ∃ t ∈ s.terminations, k ∈ t.taken
  /-- The vector and the taken futures are about the futures that were added. -/
  about : ∀ k, (k ∈ s.futures ∨ ∃ t ∈ s.terminations, k ∈ t.taken) →
    s.added[k]? = some (s.source k)
  terminated : ∀ t ∈ s.terminations, Terminated s pending t
  /-- A `future_group` is terminating from the first `terminate` on. -/
  group : s.kind = .futureGroup → ∀ t ∈ s.terminations.tail, t.late = true
  asserts : s.assertFailed = false

theorem Sane.losesNothing (sane : Sane s pending) : LosesNoTask s pending := by
  obtain ⟨length, named⟩ := sane.added
  have about : ∀ k < s.next, s.added[k]? = some (s.source k) := by
    intro k bound
    obtain ⟨u, inside⟩ : ∃ u, s.added[k]? = some u :=
      ⟨_, List.getElem?_eq_getElem (by omega)⟩
    rw [inside, named k u inside]
  have resolved : ∀ k, Ready s k → s.user (s.source k) ≠ none := sane.source
  have due : (∀ k, .toVoid k ∉ pending) → ∀ k < s.next, s.user (s.source k) ≠ none →
      Ready s k := by
    intro quiet k bound ready
    by_contra waits
    have due := sane.due k
    rw [if_pos ⟨bound, waits, ready⟩] at due
    have positive : 0 < weight (resolves k) pending := by omega
    obtain ⟨call, member, counted⟩ := exists_of_weight_pos positive
    cases call with
    | toVoid j => exact quiet j member
    | _ => exact absurd counted (Nat.lt_irrefl 0)
  constructor
  · intro k u listed unready
    have bound : k < s.next := by
      rw [← length]
      exact (List.getElem?_eq_some_iff.mp listed).1
    apply sane.tracked k bound
    intro ready
    exact sane.source k ready (by rw [named k u listed, unready])
  · rintro k (listed | ⟨t, member, taken⟩)
    · exact about k (sane.futures k listed)
    · exact about k ((sane.terminations t member).entries k taken)
  · intro t member
    have kept := sane.terminations t member
    have all : t.future ≠ none ↔ ∀ k ∈ t.taken, Ready s k := by
      rw [kept.ready, kept.counted, List.countP_eq_length]
      simp
    constructor
    · exact fun k taken waits =>
        ⟨kept.cancels k taken waits, (kept.requested k (kept.cancels k taken waits)).2⟩
    · exact all
    · intro quiet
      rw [all]
      refine ⟨fun ready k taken => resolved k (ready k taken), fun ready k taken => ?_⟩
      exact due quiet k (kept.entries k taken) (ready k taken)
    · exact kept.value
    · intro nothing
      have empty : t.taken = [] := nothing.elim id kept.late
      rw [all, empty]
      simp
  · exact fun group => (sane.group group).2
  · exact sane.asserts

/-- A `future_group` and a `task_canceler` lose no task: in every run of any number
of threads, an added future is in the vector, taken by a `terminate`, or ready.  A
`terminate` cancels what it takes, and its future is ready exactly when all of that
is. -/
theorem losesNoTask (reached : Reachable exec Anything (start kind token threads) config) :
    LosesNoTask config.state config.pending :=
  (reached.invariant Sane (sane_start kind token threads)
    fun _ _ _ _ _ _ _ sane _ ran => exec_step sane ran).losesNothing

/-- Two pending futures are added and taken; cancelling the first resolves it at
once, and the returned future waits for the second. -/
theorem losesNoTask_two : ∃ config : Config State GroupCall,
    LosesNoTask config.state config.pending ∧
    config.state.terminations.map (fun t => (t.taken, t.future)) = [([0, 1], none)] ∧
    config.state.void 0 = some (.exception .operationCanceled) := by
  have ran : ((start .futureGroup id 1).run exec
      [(0, .add 0), (0, .add 1), (0, .terminate), (0, .return),
        (0, .complete 0 (.exception .operationCanceled)), (0, .return), (0, .return), (0, .return),
        (0, .return), (0, .return), (0, .return)]).map (fun config =>
      decide (config.state.terminations.map (fun t => (t.taken, t.future)) = [([0, 1], none)] ∧
        config.state.void 0 = some (.exception .operationCanceled))) = some true := by decide
  obtain ⟨config, reached, holds⟩ := reachable_of_replay _ _ ran
  exact ⟨config, losesNoTask reached, of_decide_eq_true holds⟩

/-- A `task_canceler` runs tasks after `terminate`, and a second one waits for them. -/
theorem second_terminate_waits : ∃ config,
    Reachable exec Anything (start .taskCanceler id 1) config ∧
      config.state.terminations.map (fun t => (t.taken, t.future)) =
        [([], some .value), ([0], none)] := by
  have ran : ((start .taskCanceler id 1).run exec
      [(0, .terminate), (0, .return), (0, .run), (0, .return), (0, .future 0), (0, .terminate),
        (0, .return), (0, .return), (0, .return)]).map (fun config =>
      decide (config.state.terminations.map (fun t => (t.taken, t.future)) =
        [([], some .value), ([0], none)])) = some true := by decide
  obtain ⟨config, reached, holds⟩ := reachable_of_replay _ _ ran
  exact ⟨config, reached, of_decide_eq_true holds⟩

end Tconcurrent.FutureGroup
