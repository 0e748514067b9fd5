import Tconcurrent.JobRuns

/-! `_mutex` of a job, held from one step of a thread to a later one.

`trigger` returns what it finds after `triggerImpl`; no run begins in between,
because the run body takes the mutex and is called by the executor only. -/
namespace Tconcurrent.Job
open Interleaving

variable {s s' : State} {others : Multiset JobAction} {call : JobAction} {calls : List JobAction}
  {thread : ℕ} {choice : Choice}

/-- How often a thread holds `_mutex`. -/
def held (s : State) (thread : ℕ) : ℕ :=
  match s.mutex with
  | some (owner, depth) => if owner = thread then depth + 1 else 0
  | none => 0

/-- The calls that unlock `_mutex` at the end. -/
def releases : JobAction → ℕ
  | .client (.assignFuture _ _) => 1
  | .client (.returnFuture _) => 1
  | .client (.endReschedule _) => 1
  | .client (.setPromises _ _ _) => 1
  | _ => 0

/-- What only the loop of the executor calls. -/
def Bottom : JobAction → Prop
  | .client .executor => True
  | .client (.packagedTask _) => True
  | .client (.runBody _) => True
  | _ => False

def mutexUse : LockUse State JobAction where
  held := held
  releases := releases
  bottom := Bottom

theorem acquire_held {s₁ : State} (acquired : acquire thread s = some s₁) :
    held s₁ thread = held s thread + 1 ∧ ∀ other ≠ thread, held s₁ other = held s other ∧
      (0 < held s thread ∨ held s other = 0) := by
  unfold acquire at acquired
  split at acquired
  · rename_i free
    cases acquired
    simp [held, free, eq_comm]
  · rename_i owner depth taken
    split at acquired
    · rename_i own
      cases acquired
      subst own
      refine ⟨by simp [held, taken], fun other different => ?_⟩
      simp [held, taken, Ne.symm different]
    · cases acquired

theorem release_held (s : State) (thread : ℕ) (holds : 0 < held s thread) :
    held (release s) thread + 1 = held s thread ∧
      ∀ other ≠ thread, held (release s) other = held s other := by
  unfold held at holds
  split at holds
  · rename_i owner depth taken
    split at holds
    · rename_i own
      subst own
      cases depth with
      | zero =>
        refine ⟨by simp [held, release, taken], fun other different => ?_⟩
        simp [held, release, taken, Ne.symm different]
      | succ depth =>
        refine ⟨by simp [held, release, taken], fun other different => ?_⟩
        simp [held, release, taken, Ne.symm different]
    · cases holds
  · cases holds

/-- A step that does not touch the mutex. -/
theorem respected_same (mutex : s'.mutex = s.mutex)
    (weighs : weight releases (calls : Multiset JobAction) = releases call)
    (below : calls.Pairwise fun call later => Bottom call → releases later = 0)
    (kept : ∀ later ∈ calls, Bottom later → Bottom call) :
    mutexUse.Respected thread s s' call calls where
  own := by simp only [mutexUse, held, mutex, weighs]
  others other _ := by simp only [mutexUse, held, mutex]
  below := below
  kept := kept

/-- A step that locks the mutex and keeps it. -/
theorem respected_acquire {s₁ : State} (acquired : acquire thread s = some s₁)
    (mutex : s'.mutex = s₁.mutex)
    (weighs : weight releases (calls : Multiset JobAction) = releases call + 1)
    (below : calls.Pairwise fun call later => Bottom call → releases later = 0)
    (kept : ∀ later ∈ calls, Bottom later → Bottom call) :
    mutexUse.Respected thread s s' call calls where
  own := by
    have locked := (acquire_held acquired).1
    simp only [mutexUse, weighs]
    simp only [held, mutex] at locked ⊢
    omega
  others other different := by
    have free := ((acquire_held acquired).2 other different).1
    simpa only [mutexUse, held, mutex] using free
  below := below
  kept := kept

/-- A step that unlocks the mutex. -/
theorem respected_release {s₁ : State} (holds : releases call ≤ held s thread)
    (after : s' = release s₁) (mutex : s₁.mutex = s.mutex)
    (weighs : weight releases (calls : Multiset JobAction) + 1 = releases call)
    (below : calls.Pairwise fun call later => Bottom call → releases later = 0)
    (kept : ∀ later ∈ calls, Bottom later → Bottom call) :
    mutexUse.Respected thread s s' call calls := by
  have same : ∀ other, held s₁ other = held s other := fun other => by simp only [held, mutex]
  obtain ⟨own, others⟩ := release_held s₁ thread (by rw [same]; omega)
  subst after
  refine ⟨?_, fun other different => ?_, below, kept⟩
  · simp only [mutexUse]
    rw [same] at own
    omega
  · exact (others other different).trans (same other)

/-- A step under `scope_lock` from its beginning to its end. -/
theorem respected_section {s₁ s₂ : State} (acquired : acquire thread s = some s₁)
    (after : s' = release s₂) (mutex : s₂.mutex = s₁.mutex)
    (weighs : weight releases (calls : Multiset JobAction) = releases call)
    (below : calls.Pairwise fun call later => Bottom call → releases later = 0)
    (kept : ∀ later ∈ calls, Bottom later → Bottom call) :
    mutexUse.Respected thread s s' call calls := by
  have same : ∀ other, held s₂ other = held s₁ other := fun other => by simp only [held, mutex]
  obtain ⟨locked, unchanged⟩ := acquire_held acquired
  obtain ⟨own, others⟩ := release_held s₂ thread (by rw [same]; omega)
  subst after
  refine ⟨?_, fun other different => ?_, below, kept⟩
  · simp only [mutexUse, weighs]
    rw [same] at own
    omega
  · exact (others other different).trans ((same other).trans (unchanged other different).1)

theorem respected_user (ran : user s choice = some (s', calls)) :
    mutexUse.Respected thread s s' (.client .user) calls := by
  cases choice <;> simp only [user] at ran
  case trigger =>
    split at ran
    · cases ran
    · cases ran
      exact respected_same rfl (by simp [releases]) (by simp [Bottom]) (by simp [Bottom])
  case resolve =>
    split at ran
    · cases ran
      exact respected_same rfl (by simp [releases]) (by simp [Bottom]) (by simp [Bottom])
    · cases ran
  case destroy =>
    split at ran
    · cases ran
    · cases ran
      exact respected_same rfl (by simp [releases]) (by simp [Bottom]) (by simp [Bottom])
  case requestCancel =>
    cases ran
    exact respected_same rfl (by simp [releases]) (by simp [Bottom]) (by simp [Bottom])
  case «return» =>
    cases ran
    exact respected_same rfl (by simp [releases]) (by simp) (by simp)
  all_goals cases ran

theorem respected_executor (ran : executor s choice = some (s', calls)) :
    mutexUse.Respected thread s s' (.client .executor) calls := by
  cases choice <;> simp only [executor] at ran
  case run =>
    split at ran
    · cases ran
      exact respected_same rfl (by simp [releases]) (by simp [releases]) (by simp [Bottom])
    · cases ran
  case drop =>
    split at ran
    · split at ran
      · cases ran
        exact respected_same rfl (by simp [releases]) (by simp) (by simp [Bottom])
      · cases ran
        exact respected_same rfl (by simp [releases]) (by simp [releases]) (by simp [Bottom])
    · cases ran
  case «return» =>
    cases ran
    exact respected_same rfl (by simp [releases]) (by simp [releases]) (by simp [Bottom])
  all_goals cases ran

/-- `trigger` keeps the mutex until its return. -/
theorem respected_trigger {setPromise : Bool}
    (ran : (acquire thread s).map (trigger setPromise) = some (s', calls)) :
    mutexUse.Respected thread s s' (.client (.trigger setPromise)) calls := by
  obtain ⟨s₁, acquired, stepped⟩ := Option.map_eq_some_iff.mp ran
  unfold trigger at stepped
  split at stepped
  · cases stepped
    exact respected_acquire acquired rfl (by simp [releases]) (by simp) (by simp [Bottom])
  · cases stepped
    exact respected_acquire acquired rfl (by simp [releases]) (by simp [Bottom]) (by simp [Bottom])

/-- The closure of `triggerImpl` keeps the mutex while it calls `reschedule`. -/
theorem respected_chainContinuation {k : ℕ}
    (ran : (acquire thread s).map (chainContinuation k) = some (s', calls)) :
    mutexUse.Respected thread s s' (.client (.chainContinuation k)) calls := by
  obtain ⟨s₁, acquired, stepped⟩ := Option.map_eq_some_iff.mp ran
  unfold chainContinuation at stepped
  dsimp only at stepped
  split at stepped
  · cases stepped
    exact respected_section acquired rfl rfl (by simp [releases]) (by simp) (by simp [Bottom])
  · cases stepped
    exact respected_acquire acquired rfl (by simp [releases]) (by simp [Bottom]) (by simp [Bottom])

/-- The closure on the callback's future keeps it until its promises are set. -/
theorem respected_runContinuation {k n : ℕ}
    (ran : (acquire thread s).bind (runContinuation k n) = some (s', calls)) :
    mutexUse.Respected thread s s' (.client (.runContinuation k n)) calls := by
  obtain ⟨s₁, acquired, continued⟩ := Option.bind_eq_some_iff.mp ran
  unfold runContinuation at continued
  split at continued
  · cases continued
    exact respected_section acquired rfl rfl (by simp [releases]) (by simp) (by simp [Bottom])
  · cases continued
    exact respected_acquire acquired rfl (by simp [releases]) (by simp) (by simp [Bottom])
  · cases continued

theorem respected_setPromises {k n i : ℕ}
    (holds : releases (.client (.setPromises k n i)) ≤ held s thread)
    (stepped : setPromises k n i s = (s', calls)) :
    mutexUse.Respected thread s s' (.client (.setPromises k n i)) calls := by
  unfold setPromises at stepped
  split at stepped
  · cases stepped
    exact respected_same rfl (by simp [releases]) (by simp [Bottom]) (by simp [Bottom])
  · cases stepped
    exact respected_release holds rfl rfl (by simp [releases]) (by simp) (by simp [Bottom])

theorem clientExec_respected {c : JobCall}
    (holds : releases (.client c) ≤ held s thread)
    (ran : clientExec thread choice s c = some (s', calls)) :
    mutexUse.Respected thread s s' (.client c) calls := by
  cases c with
  | user => exact respected_user ran
  | executor => exact respected_executor ran
  | trigger setPromise => exact respected_trigger ran
  | assignFuture k setPromise =>
    cases ran
    exact respected_same rfl (by simp [releases]) (by simp) (by simp [Bottom])
  | returnFuture setPromise =>
    cases ran
    refine respected_release holds rfl ?_ (by simp [releases]) (by simp) (by simp)
    unfold returnFuture
    dsimp only
    split
    · split <;> rfl
    · rfl
  | chainContinuation k => exact respected_chainContinuation ran
  | endReschedule k =>
    cases ran
    exact respected_release holds rfl rfl (by simp [releases]) (by simp) (by simp [Bottom])
  | packagedTask k =>
    simp only [clientExec] at ran
    split at ran
    · cases ran
      exact respected_same rfl (by simp [releases]) (by simp) (by simp)
    · cases ran
      exact respected_same rfl (by simp [releases]) (by simp [releases]) (by simp [Bottom])
  | runBody k =>
    obtain ⟨s₁, acquired, stepped⟩ := Option.map_eq_some_iff.mp ran
    cases stepped
    unfold runBody
    dsimp only
    split
    · exact respected_section acquired rfl rfl (by simp [releases]) (by simp) (by simp [Bottom])
    · exact respected_section acquired rfl rfl (by simp [releases]) (by simp) (by simp [Bottom])
  | callCallback k n =>
    cases ran
    exact respected_same rfl (by simp [releases]) (by simp [Bottom]) (by simp [Bottom])
  | returnCallback k n =>
    cases choice with
    | throws e =>
      cases ran
      exact respected_same rfl (by simp [releases]) (by simp) (by simp [Bottom])
    | returns r =>
      cases ran
      exact respected_same rfl (by simp [releases]) (by simp [Bottom]) (by simp [Bottom])
    | _ => cases ran
  | catchCallback k n e =>
    obtain ⟨s₁, acquired, stepped⟩ := Option.map_eq_some_iff.mp ran
    cases stepped
    exact respected_section acquired rfl rfl (by simp [releases]) (by simp) (by simp [Bottom])
  | runContinuation k n => exact respected_runContinuation ran
  | setPromises k n i => exact respected_setPromises holds (Option.some.inj ran)
  | cancelTask k =>
    simp only [clientExec] at ran
    split at ran
    · cases ran
      exact respected_same rfl (by simp [releases]) (by simp) (by simp)
    · cases ran
      exact respected_same rfl (by simp [releases]) (by simp [releases]) (by simp [Bottom])
  | destroy =>
    obtain ⟨s₁, acquired, stepped⟩ := Option.map_eq_some_iff.mp ran
    cases stepped
    exact respected_section acquired rfl rfl (by simp [releases]) (by simp [Bottom]) (by simp [Bottom])
  | waitDestroyed p =>
    simp only [clientExec] at ran
    split at ran
    · cases ran
      exact respected_same rfl (by simp [releases]) (by simp) (by simp)
    · cases ran

/-- Nothing that is registered or pushed locks the mutex beyond one step. -/
theorem quiet_closures {posted : ℕ → Bool} {heap : JobHeap} (sound : SoundHeap (wiring posted) heap)
    (respects : Sound (wiring posted) heap call) :
    ∀ later ∈ (heap.exec call).2, releases later = 0 ∧ ¬ Bottom later := by
  intro later member
  cases later with
  | client c =>
    rcases exec_clients sound respects member with ⟨k, rfl, -⟩ | ⟨p, registered⟩
    · exact ⟨rfl, id⟩
    · cases c with
      | chainContinuation k => exact ⟨rfl, id⟩
      | runContinuation k n => exact ⟨rfl, id⟩
      | _ => cases p <;> exact registered.elim
  | _ => exact ⟨rfl, id⟩

theorem quiet_userCode (call : JobAction) :
    ∀ later ∈ userCode call, releases later = 0 ∧ ¬ Bottom later := by
  intro later member
  rcases userCode_cases call with none | user
  · simp [none] at member
  · rw [user] at member
    rw [List.mem_singleton.mp member]
    exact ⟨rfl, id⟩

theorem exec_respected (sane : Sane s (call ::ₘ others)) (holds : releases call ≤ held s thread)
    (ran : exec thread choice s call = some (s', calls)) :
    mutexUse.Respected thread s s' call calls := by
  have library : (∀ c, call ≠ .client c) → mutexUse.Respected thread s
      { s with heap := (s.heap.exec call).1 } call
      (userCode call ++ (s.heap.exec call).2 ++ userCode call) := by
    intro other
    have quiet : ∀ later ∈ userCode call ++ (s.heap.exec call).2 ++ userCode call,
        releases later = 0 ∧ ¬ Bottom later := by
      intro later member
      rcases List.mem_append.mp member with member | member
      · rcases List.mem_append.mp member with member | member
        · exact quiet_userCode call later member
        · exact quiet_closures sane.wired.heap
            (sane.wired.calls _ (Multiset.mem_cons_self _ _)) later member
      · exact quiet_userCode call later member
    have free : releases call = 0 := by
      cases call with
      | client c => exact absurd rfl (other c)
      | _ => rfl
    refine respected_same rfl ?_ ?_ fun later member low => absurd low (quiet later member).2
    · rw [free]
      exact Multiset.sum_eq_zero fun value member => by
        obtain ⟨later, listed, rfl⟩ := Multiset.mem_map.mp member
        exact (quiet later (Multiset.mem_coe.mp listed)).1
    · exact List.pairwise_of_forall_mem_list fun first member later _ low =>
        absurd low (quiet first member).2
  cases call with
  | client c => exact clientExec_respected holds ran
  | _ =>
    cases ran
    exact library (by simp)

theorem balanced_start (threads : ℕ) : mutexUse.Balanced (start threads) where
  held thread := by
    have free : held (start threads).state thread = 0 := rfl
    cases thread with
    | zero => simp [mutexUse, start, held, releases]
    | succ thread =>
      by_cases inside : thread < threads
      · simp [mutexUse, start, held, inside, releases]
      · simp [mutexUse, start, held, inside]
  below agenda member := by
    rcases List.mem_cons.mp member with rfl | member
    · simp
    · rw [(List.mem_replicate.mp member).2]
      simp

theorem balanced_of_reachable {threads : ℕ} {allowed : State → JobAction → Choice → Prop}
    {config : Config State JobAction} (reached : Reachable exec allowed (start threads) config) :
    mutexUse.Balanced config :=
  reached.balanced Sane (balanced_start threads) (fun _ => sane_of_reachable)
    fun _ _ _ _ _ _ _ sane holds ran => exec_respected sane holds ran

end Tconcurrent.Job
