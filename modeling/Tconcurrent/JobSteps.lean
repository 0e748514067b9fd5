import Tconcurrent.JobInvariant

/-! Every step of a job keeps its invariant. -/
namespace Tconcurrent.Job
open Interleaving

variable {s s' : State} {pending others : Multiset JobAction} {call : JobAction} {calls : List JobAction}
  {c : JobCall} {k n i : ℕ} {thread : ℕ} {choice : Choice}

/-- The state and the pending calls after a step. -/
abbrev Sane.After (step : JobStep) (others : Multiset JobAction) : Prop :=
  Sane step.1 (↑step.2 + others)

theorem Queued.frame (queued : Queued s (call ::ₘ others)) (queue : s'.queue = s.queue)
    (posted : s'.posted = s.posted) (taken : s'.taskDone = s.taskDone)
    (dropped : s'.dropped = s.dropped) (before : ∀ k, call ≠ .client (.packagedTask k))
    (after : ∀ k, .client (.packagedTask k) ∉ calls) : Queued s' (↑calls + others) := by
  have count : ∀ k, (↑calls + others).count (.client (.packagedTask k)) =
      (call ::ₘ others).count (.client (.packagedTask k)) := by
    intro k
    rw [Multiset.count_add, Multiset.count_eq_zero.mpr (mt Multiset.mem_coe.mp (after k)),
      Multiset.count_cons_of_ne (before k).symm, zero_add]
  refine ⟨fun k => ?_, fun k => ?_⟩
  · rw [count, queue, posted, dropped]
    exact queued.once k
  · rw [queue, posted, taken, dropped, ← Multiset.count_pos, count, Multiset.count_pos]
    exact queued.somewhere k

/-- A step of the program that does not touch the heap. -/
theorem Sane.quiet (sane : Sane s (.client c ::ₘ others))
    (heap : s'.heap = s.heap) (posted : s'.posted = s.posted) (created : s'.created = s.created)
    (stopping : s.stopping = true → s'.stopping = true)
    (sound : ∀ call ∈ calls, Sound (wiring s.posted) s.heap call)
    (due : ∀ duty : Duty, duty.due s' + (duty.Counts c).toNat =
      duty.due s + weight duty.account.owes (calls : Multiset JobAction))
    (ordered : Ordered s') (queued : Queued s' (↑calls + others))
    (gaveUp : ∀ j e, .finish (.chainThen j) (.exception e) ∈ calls →
      s'.stopping = true ∧ s'.posted j = false)
    (neverRan : ∀ j e, .finish (.task j) (.exception e) ∈ calls → s'.created j = false)
    (expected : ∀ call ∈ others, Expected s call → Expected s' call)
    (expects : ∀ call ∈ calls, Expected s' call) : Sane s' (↑calls + others) where
  wired := by
    rw [← posted, ← heap] at sound
    refine ⟨?_, mem_after sound ?_⟩
    · rw [posted, heap]
      exact sane.wired.heap
    · rw [posted, heap]
      exact fun call member => sane.wired.calls call (Multiset.mem_cons_of_mem member)
  accounts duty := by
    have moved := Account.balance_client duty.account c calls others
      (fun p => congrArg (fun heap : JobHeap => (heap.states p).r) heap)
      (fun p => congrArg (fun heap : JobHeap => (heap.states p).thens) heap)
    rw [sane.accounts duty] at moved
    have := due duty
    simp only [Duty.account] at moved this ⊢
    omega
  ordered := ordered
  queued := queued
  failed := by
    refine ⟨fun j e outcome => ?_, fun j e outcome => ?_⟩
    · rcases outcome_after (.client c) (by rw [heap]) outcome with made | before
      · exact gaveUp j e made
      · rw [posted]
        exact (sane.failed.gaveUp j e before).imp stopping id
    · rcases outcome_after (.client c) (by rw [heap]) outcome with made | before
      · exact neverRan j e made
      · rw [created]
        exact sane.failed.neverRan j e before
  expected := mem_after expects fun call member =>
    expected call member (sane.expected call (Multiset.mem_cons_of_mem member))

/-- The mutex is no part of the invariant. -/
theorem Sane.withMutex (sane : Sane s pending)
    (mutex : Option (ℕ × ℕ)) : Sane { s with mutex } pending where
  wired := { sane.wired with }
  accounts duty := by cases duty <;> exact sane.accounts _
  ordered := { sane.ordered with }
  queued := { sane.queued with }
  failed := { sane.failed with }
  expected := by
    intro call member
    have expected := sane.expected call member
    cases call with
    | client c => cases c <;> exact expected
    | _ => trivial

theorem acquire_eq {s₁ : State} (acquired : acquire thread s = some s₁) :
    ∃ mutex, s₁ = { s with mutex } := by
  unfold acquire at acquired
  split at acquired
  · exact ⟨_, (Option.some.inj acquired).symm⟩
  · split at acquired
    · exact ⟨_, (Option.some.inj acquired).symm⟩
    · cases acquired

theorem release_eq (s : State) : ∃ mutex, release s = { s with mutex } := by
  unfold release
  split
  · exact ⟨_, rfl⟩
  · exact ⟨_, rfl⟩

theorem Sane.acquire (sane : Sane s pending) {s₁ : State} (acquired : acquire thread s = some s₁) :
    Sane s₁ pending := by
  obtain ⟨mutex, rfl⟩ := acquire_eq acquired
  exact sane.withMutex mutex

theorem Sane.release (sane : Sane s pending) : Sane (release s) pending := by
  obtain ⟨mutex, same⟩ := release_eq s
  rw [same]
  exact sane.withMutex mutex

/-- A state that no `unwrap` made may fail. -/
theorem sound_failed {posted : ℕ → Bool} {heap : JobHeap} {p : JobState} {e : Exc}
    (plain : link p = none) : Sound (wiring posted) heap (.finish p (.exception e)) := by
  refine ⟨fun outer inner linked => ?_, fun sb inner linked => Or.inl ⟨e, rfl⟩⟩
  simp [wiring, plain] at linked

/-- A state that is no outer future may have any result. -/
theorem sound_inner (posted : ℕ → Bool) (heap : JobHeap) {p : JobState} {r : JobResult}
    (plain : link p = none) (inside : ∀ sb inner, link sb ≠ some (p, inner)) :
    Sound (wiring posted) heap (.finish p r) := by
  refine ⟨fun outer inner linked => ?_, fun sb inner linked => absurd linked (inside sb inner)⟩
  simp [wiring, plain] at linked

theorem callback_inside (k : ℕ) (sb inner : JobState) : link sb ≠ some (.callback k, inner) := by
  intro linked
  cases sb with
  | chain j => cases j <;> cases linked
  | _ => cases linked

theorem continuation_inside (k : ℕ) (sb inner : JobState) :
    link sb ≠ some (.continuation k, inner) := by
  intro linked
  cases sb with
  | chain j => cases j <;> cases linked
  | _ => cases linked

/-! ## User code and the executor -/

theorem user_step (sane : Sane s (.client .user ::ₘ others)) {step : JobStep}
    (ran : user s choice = some step) : Sane.After step others := by
  cases choice with
  | «return» =>
    cases ran
    refine sane.quiet rfl rfl rfl id (by simp) ?_ sane.ordered
      (sane.queued.frame rfl rfl rfl rfl (by simp) (by simp)) (by simp) (by simp)
      (fun _ _ => id) (by simp)
    intro duty
    cases duty <;> simp [Duty.Counts]
  | trigger setPromise =>
    simp only [user] at ran
    split at ran
    · cases ran
    · rename_i alive
      cases ran
      refine sane.quiet rfl rfl rfl id ?_ ?_ ?_
        (sane.queued.frame rfl rfl rfl rfl (by simp) (by simp)) (by simp) (by simp)
        ?_ ?_
      · simp [Sound, Called, wiring, internal]
      · intro duty
        cases duty <;> simp [Duty.Counts, Duty.due, Account.owes, Duty.account]
      · exact { sane.ordered with quiescent := fun dying => absurd dying alive }
      · exact Expected.frame rfl rfl rfl rfl rfl rfl rfl rfl
      · simp [Expected]
  | requestCancel k =>
    cases ran
    refine sane.quiet rfl rfl rfl id ?_ ?_ sane.ordered
      (sane.queued.frame rfl rfl rfl rfl (by simp) (by simp)) (by simp) (by simp)
      (fun _ _ => id) ?_
    · simp [Sound, Called, wiring, internal]
    · intro duty
      cases duty <;> simp [Duty.Counts, Duty.due, Account.owes, Duty.account]
    · simp [Expected]
  | resolve k r =>
    simp only [user] at ran
    split at ran
    · rename_i fresh
      cases ran
      obtain ⟨created, unset⟩ : s.created k = true ∧ s.produced k = false := by
        simpa using fresh
      refine sane.quiet rfl rfl rfl id ?_ ?_ ?_
        (sane.queued.frame rfl rfl rfl rfl (by simp) (by simp)) (by simp) (by simp)
        (Expected.frame rfl rfl rfl rfl rfl rfl rfl rfl) ?_
      · simp only [List.forall_mem_cons, List.not_mem_nil, false_implies, implies_true, and_true]
        exact ⟨sound_inner _ _ rfl (callback_inside k), Or.inl trivial⟩
      · intro duty
        cases duty <;>
          simp [Duty.Counts, Duty.due, Account.owes, Duty.account, Duty.target, Function.update_apply]
        rename_i j
        by_cases same : j = k
        · subst same
          simp [unset]
        · simp [same]
      · refine { sane.ordered with produced_created := fun j produced => ?_ }
        by_cases same : j = k
        · exact same ▸ created
        · exact sane.ordered.produced_created j (by simpa [Function.update_apply, same] using produced)
      · simp [Expected]
    · cases ran
  | destroy =>
    simp only [user] at ran
    split at ran
    · cases ran
    · rename_i alive
      cases ran
      obtain ⟨-, idle⟩ : s.destroying = false ∧ s.triggering = 0 := by simpa using alive
      refine sane.quiet rfl rfl rfl id ?_ ?_ ?_
        (sane.queued.frame rfl rfl rfl rfl (by simp) (by simp)) (by simp) (by simp)
        (fun call _ => Expected.mono (fun _ => id) (fun _ => id) rfl rfl (fun _ => id) id (fun _ => rfl) rfl) ?_
      · simp [Sound, Called, wiring, internal]
      · intro duty
        cases duty <;> simp [Duty.Counts, Duty.due, Account.owes, Duty.account]
      · exact { sane.ordered with
          dying := fun _ => rfl
          quiescent := fun _ => idle
          destroyed := fun done => ⟨rfl, (sane.ordered.destroyed done).2⟩ }
      · simp [Expected]
  | _ => cases ran

/-- The executor takes a posted task. -/
theorem runPosted_step (sane : Sane s (.client .executor ::ₘ others)) (queued : k ∈ s.queue) :
    Sane.After ({ s with queue := s.queue.erase k },
      [.client (.packagedTask k), .client .executor]) others := by
  refine sane.quiet rfl rfl rfl id ?_ ?_ { sane.ordered with } ?_ (by simp) (by simp)
    (Expected.frame rfl rfl rfl rfl rfl rfl rfl rfl) (by simp [Expected])
  · simp [Sound, Called, wiring, internal]
  · intro duty
    cases duty <;> simp [Duty.Counts, Duty.due, Account.owes, Duty.account]
  · refine ⟨fun j => ?_, fun j posted taken dropped => ?_⟩
    · have once := sane.queued.once j
      have some := List.count_pos_iff.mpr queued
      simp only [← Multiset.cons_coe, Multiset.coe_nil, Multiset.cons_add, zero_add,
        Multiset.count_cons, List.count_erase] at once ⊢
      by_cases same : j = k
      · subst same
        simp at once ⊢
        omega
      · simp [same, Ne.symm same] at once ⊢
        omega
    · by_cases same : j = k
      · exact Or.inr (by simp [same])
      · refine (sane.queued.somewhere j posted taken dropped).imp ?_ ?_
        · exact (List.mem_erase_of_ne same).mpr
        · intro member
          exact Multiset.mem_add.mpr (Or.inr (by simpa using member))

/-- The executor drops a task that was cancelled. -/
theorem dropTaken_step (sane : Sane s (.client .executor ::ₘ others))
    (taken : s.taskDone k = true) :
    Sane.After ({ s with queue := s.queue.erase k }, [.client .executor]) others := by
  refine sane.quiet rfl rfl rfl id ?_ ?_ { sane.ordered with } ?_ (by simp) (by simp)
    (Expected.frame rfl rfl rfl rfl rfl rfl rfl rfl) (by simp [Expected])
  · simp [Sound, Called, wiring, internal]
  · intro duty
    cases duty <;> simp [Duty.Counts, Duty.due, Account.owes, Duty.account]
  · refine ⟨fun j => ?_, fun j posted untaken dropped => ?_⟩
    · have once := sane.queued.once j
      have fewer := (List.erase_sublist (a := k) (l := s.queue)).count_le j
      simp at once ⊢
      omega
    · refine (sane.queued.somewhere j posted untaken dropped).imp ?_ ?_
      · refine (List.mem_erase_of_ne ?_).mpr
        rintro rfl
        simp [taken] at untaken
      · intro member
        simpa using member

/-- The executor drops a task that nobody took: its promise breaks. -/
theorem dropPosted_step (sane : Sane s (.client .executor ::ₘ others)) (queued : k ∈ s.queue)
    (free : s.taskDone k = false) :
    Sane.After ({ s with
        queue := s.queue.erase k
        dropped := Function.update s.dropped k true },
      [.finish (.task k) (.exception .brokenPromise), .client .executor]) others := by
  have once := sane.queued.once k
  have queue := List.count_pos_iff.mpr queued
  have posted : s.posted k = true := by
    rw [← toNat_pos]
    omega
  have kept : s.dropped k = false := by
    have bound := Bool.toNat_le (s.posted k)
    rw [← Bool.not_eq_true, ← toNat_pos]
    omega
  refine sane.quiet rfl rfl rfl id ?_ ?_ ?_ ?_ (by simp) ?_
    (Expected.frame rfl rfl rfl rfl rfl rfl rfl rfl) (by simp [Expected])
  · simp only [List.forall_mem_cons, List.not_mem_nil, false_implies, implies_true, and_true]
    exact ⟨sound_failed rfl, Or.inl trivial⟩
  · intro duty
    cases duty <;>
      simp [Duty.Counts, Duty.due, Account.owes, Duty.account, Duty.target,
        Function.update_apply]
    rename_i j
    by_cases same : j = k
    · subst same
      simp [free, kept]
    · simp [same]
  · refine { sane.ordered with taken_posted := fun j gone => ?_ }
    by_cases same : j = k
    · exact same ▸ posted
    · exact sane.ordered.taken_posted j (by simpa [Function.update_apply, same] using gone)
  · refine ⟨fun j => ?_, fun j posted untaken dropped => ?_⟩
    · have once := sane.queued.once j
      simp only [← Multiset.cons_coe, Multiset.coe_nil, Multiset.cons_add, zero_add,
        Multiset.count_cons, List.count_erase, Function.update_apply] at once ⊢
      by_cases same : j = k
      · subst same
        simp [kept] at once ⊢
        omega
      · simp [same, Ne.symm same] at once ⊢
        omega
    · have other : j ≠ k := by
        rintro rfl
        simp at dropped
      refine (sane.queued.somewhere j posted untaken ?_).imp ?_ ?_
      · simpa [Function.update_apply, other] using dropped
      · exact (List.mem_erase_of_ne other).mpr
      · intro member
        simpa using member
  · rintro j e member
    obtain ⟨rfl, -⟩ : j = k ∧ e = .brokenPromise := by simpa using member
    rw [← Bool.not_eq_true]
    intro created
    simp [sane.ordered.created_taken j created] at free

theorem executor_step (sane : Sane s (.client .executor ::ₘ others)) {step : JobStep}
    (ran : executor s choice = some step) : Sane.After step others := by
  cases choice with
  | «return» =>
    cases ran
    refine sane.quiet rfl rfl rfl id ?_ ?_ sane.ordered
      (sane.queued.frame rfl rfl rfl rfl (by simp) (by simp)) (by simp) (by simp)
      (fun _ _ => id) (by simp [Expected])
    · simp [Sound, Called, wiring, internal]
    · intro duty
      cases duty <;> simp [Duty.Counts, Duty.due, Account.owes, Duty.account]
  | run k =>
    simp only [executor] at ran
    split at ran
    · rename_i queued
      cases ran
      exact runPosted_step sane queued
    · cases ran
  | drop k =>
    simp only [executor] at ran
    split at ran
    · rename_i queued
      split at ran
      · rename_i taken
        cases ran
        exact dropTaken_step sane taken
      · rename_i free
        cases ran
        exact dropPosted_step sane queued (by simpa using free)
    · cases ran
  | _ => cases ran

/-! ## `trigger` -/

theorem Sane.blank (sane : Sane s pending) {p : JobState} (own : (dutyOf p).due s = 0)
    (alone : ∀ f ∈ (s.heap.states p).thens, (waiterDuty p).due s = 0) : Blank s.heap p := by
  refine ⟨Heap.not_ready.mp fun ready => ?_, List.eq_nil_iff_forall_not_mem.mpr fun f member => ?_⟩
  · exact (sane.due_of_ready ready).ne' own
  · exact (sane.due_of_waiting member).ne' (alone f member)

/-- A step of the program that sets up shared states. -/
theorem Sane.build (sane : Sane s (.client c ::ₘ others))
    (same : ∀ p, (s'.heap.states p).r = (s.heap.states p).r ∧
      (s'.heap.states p).thens = (s.heap.states p).thens)
    (heap : SoundHeap (wiring s'.posted) s'.heap)
    (frame : ∀ call ∈ others, Sound (wiring s.posted) s.heap call →
      Sound (wiring s'.posted) s'.heap call)
    (sound : ∀ call ∈ calls, Sound (wiring s'.posted) s'.heap call)
    (due : ∀ duty : Duty, duty.due s' + (duty.Counts c).toNat =
      duty.due s + weight duty.account.owes (calls : Multiset JobAction))
    (ordered : Ordered s') (queued : Queued s' (↑calls + others))
    (gaveUp : ∀ j e, .finish (.chainThen j) (.exception e) ∉ calls ∧
      (s.stopping = true ∧ s.posted j = false →
        Outcome s.heap (.client c ::ₘ others) (.chainThen j) (.exception e) →
        s'.stopping = true ∧ s'.posted j = false))
    (neverRan : ∀ j e, .finish (.task j) (.exception e) ∉ calls ∧
      (s.created j = false → s'.created j = false))
    (expected : ∀ call ∈ others, Expected s call → Expected s' call)
    (expects : ∀ call ∈ calls, Expected s' call) : Sane s' (↑calls + others) where
  wired := ⟨heap, mem_after sound fun call member =>
    frame call member (sane.wired.calls call (Multiset.mem_cons_of_mem member))⟩
  accounts duty := by
    have moved := Account.balance_client duty.account c calls others
      (fun p => (same p).1) (fun p => (same p).2)
    rw [sane.accounts duty] at moved
    have := due duty
    simp only [Duty.account] at moved this ⊢
    omega
  ordered := ordered
  queued := queued
  failed := by
    refine ⟨fun j e outcome => ?_, fun j e outcome => ?_⟩
    · rcases outcome_after (.client c) (same _).1 outcome with made | before
      · exact absurd made (gaveUp j e).1
      · exact (gaveUp j e).2 (sane.failed.gaveUp j e before) before
    · rcases outcome_after (.client c) (same _).1 outcome with made | before
      · exact absurd made (neverRan j e).1
      · exact (neverRan j e).2 (sane.failed.neverRan j e before)
  expected := mem_after expects fun call member =>
    expected call member (sane.expected call (Multiset.mem_cons_of_mem member))

theorem Sane.alive (sane : Sane s pending) (triggering : 0 < s.triggering) :
    s.destroying = false ∧ s.destroyed = false ∧ s.stopping = false := by
  have alive : s.destroying = false := by
    rw [← Bool.not_eq_true]
    exact fun dying => triggering.ne' (sane.ordered.quiescent dying)
  refine ⟨alive, ?_, ?_⟩
  · rw [← Bool.not_eq_true]
    intro done
    simp [(sane.ordered.destroyed done).1] at alive
  · rw [← Bool.not_eq_true]
    intro stopping
    simp [sane.ordered.dying stopping] at alive

theorem resolved_of_same {heap heap' : JobHeap}
    (same : ∀ p, (heap'.states p).r = (heap.states p).r ∧
      (heap'.states p).thens = (heap.states p).thens) (keeps : heap.Keeps heap')
    (resolved : ∀ k, heap.Ready (.continuation k) → heap.Ready (.callback k)) (k : ℕ)
    (ready : heap'.Ready (.continuation k)) : heap'.Ready (.callback k) := by
  rw [Heap.Ready, (same _).1] at ready
  exact keeps.ready (resolved k ready)

theorem trigger_step {setPromise : Bool} (sane : Sane s (.client (.trigger setPromise) ::ₘ others)) :
    Sane.After (trigger setPromise s) others := by
  unfold trigger
  split
  · refine sane.quiet rfl rfl rfl id ?_ ?_ sane.ordered
      (sane.queued.frame rfl rfl rfl rfl (by simp) (by simp)) (by simp) (by simp)
      (fun _ _ => id) (by simp [Expected])
    · simp [Sound, Called, wiring, internal]
    · intro duty
      cases duty <;> simp [Duty.Counts, Duty.due, Account.owes, Duty.account]
  · rename_i idle
    have idle : s.scheduled = false := by simpa using idle
    have triggering : 0 < s.triggering :=
      sane.due_of_pending .triggering (Multiset.mem_cons_self _ _) Nat.one_pos
    obtain ⟨alive, living, -⟩ := sane.alive triggering
    have fresh : s.continued (s.count + 1) = false := by
      rw [← Bool.not_eq_true]
      intro continued
      have := (sane.ordered.continued_requested _ continued).2
      omega
    have thenBlank : Blank s.heap (.chainThen (s.count + 1)) :=
      sane.blank (by simp [dutyOf, Duty.due, fresh]) (by simp [waiterDuty, Duty.due])
    have beyond : ¬ s.count + 1 + 1 ≤ s.count := by omega
    have chainBlank : Blank s.heap (.chain (s.count + 1)) :=
      sane.blank (by simp [dutyOf, Duty.due]) (by simp [waiterDuty, Duty.due, beyond])
    obtain ⟨same, keeps, heap⟩ := setUp sane.wired.heap thenBlank chainBlank (by simp)
      (some (s.futureToken.getD (.chain (s.count + 1))))
      (some (s.futureToken.getD (.chain (s.count + 1))))
    refine sane.build same heap (fun call _ sound => sound.keeps keeps) ?_ ?_ ?_
      (sane.queued.frame rfl rfl rfl rfl (by simp) (by simp))
      (fun j e => ⟨by simp, fun before _ => before⟩) (by simp) ?_ (by simp [Expected])
    · simp only [List.forall_mem_cons, List.not_mem_nil, false_implies, implies_true, and_true]
      refine ⟨?_, ⟨rfl, _, rfl⟩, Or.inl trivial⟩
      rw [sane.ordered.future]
      exact (rfl : s.count + 1 = s.count + 1)
    · intro duty
      cases duty <;>
        simp [Duty.Counts, Duty.due, Account.owes, Duty.account, Duty.target]
      · rename_i j
        by_cases last : j = s.count + 1
        · subst last
          simp [fresh]
        · have : s.count + 1 ≠ j := Ne.symm last
          have bound : j ≤ s.count + 1 ↔ j ≤ s.count := by omega
          simp [this, bound]
      · rename_i j
        by_cases last : j = s.count + 1
        · subst last
          simp
        · have bound : j ≤ s.count + 1 ↔ j ≤ s.count := by omega
          simp [last, bound]
    · exact { sane.ordered with
        continued_requested := fun j continued => by
          have := sane.ordered.continued_requested j continued
          exact ⟨this.1, by simp only; omega⟩
        next := by
          have next := sane.ordered.next
          simp only [idle, Bool.toNat_false] at next
          simp only [Bool.toNat_true]
          omega
        future := rfl
        chained := fun j continued => keeps.ready (sane.ordered.chained j continued)
        resolved := resolved_of_same same keeps sane.ordered.resolved
        destroyed := fun done => by simp [living] at done }
    · intro call member expected
      cases call with
      | client c =>
        cases c with
        | destroy => simp [Expected, alive] at expected
        | waitDestroyed p => simp [Expected, alive] at expected
        | setPromises j n i => exact expected.imp id keeps.ready
        | _ => exact expected
      | finish p r =>
        cases p with
        | continuation j => exact keeps.ready expected
        | _ => trivial
      | _ => trivial

/-- The steps of `trigger` after `triggerImpl`. -/
theorem assignFuture_step {setPromise : Bool} {token : Option JobToken}
    (sane : Sane s (.client (.assignFuture k setPromise) ::ₘ others)) :
    Sane.After ({ s with futureToken := token }, [.client (.returnFuture setPromise)]) others := by
  refine sane.quiet rfl rfl rfl id ?_ ?_ { sane.ordered with }
    (sane.queued.frame rfl rfl rfl rfl (by simp) (by simp)) (by simp) (by simp)
    (Expected.frame rfl rfl rfl rfl rfl rfl rfl rfl) (by simp [Expected])
  · simp [Sound, Called, wiring, internal]
  · intro duty
    cases duty <;> simp [Duty.Counts, Duty.due, Account.owes, Duty.account]

theorem returnFuture_step {setPromise : Bool}
    (sane : Sane s (.client (.returnFuture setPromise) ::ₘ others)) :
    Sane.After (returnFuture setPromise s, []) others := by
  have triggering : 0 < s.triggering :=
    sane.due_of_pending .triggering (Multiset.mem_cons_self _ _) Nat.one_pos
  have quiescent := sane.ordered.quiescent
  unfold returnFuture
  dsimp only
  split
  · split
    all_goals
      refine sane.quiet rfl rfl rfl id (by simp) ?_
        { sane.ordered with quiescent := fun dying => by simp [quiescent dying] }
        (sane.queued.frame rfl rfl rfl rfl (by simp) (by simp)) (by simp) (by simp)
        (Expected.frame rfl rfl rfl rfl rfl rfl rfl rfl) (by simp [Expected])
      intro duty
      cases duty <;> simp [Duty.Counts, Duty.due]
      omega
  · refine sane.quiet rfl rfl rfl id (by simp) ?_
      { sane.ordered with quiescent := fun dying => by simp [quiescent dying] }
      (sane.queued.frame rfl rfl rfl rfl (by simp) (by simp)) (by simp) (by simp)
      (Expected.frame rfl rfl rfl rfl rfl rfl rfl rfl) (by simp [Expected])
    intro duty
    cases duty <;> simp [Duty.Counts, Duty.due]
    omega

/-! ## The closure of `triggerImpl` and `reschedule` -/

/-- When the closure of `triggerImpl` is called its run has been requested, and
nothing else has happened to it. -/
theorem Sane.next_chained (sane : Sane s (.client (.chainContinuation k) ::ₘ others)) :
    (1 ≤ k ∧ k ≤ s.count) ∧ s.continued k = false ∧ s.posted k = false ∧ s.taskDone k = false ∧
      s.dropped k = false ∧ s.created k = false ∧ s.scheduled = true ∧
      s.heap.Ready (.chain (k - 1)) := by
  have due : 0 < (Duty.registration k).due s :=
    sane.due_of_pending _ (Multiset.mem_cons_self _ _) (by simp [Account.owes, Duty.account, Duty.Counts])
  obtain ⟨requested, fresh⟩ : (1 ≤ k ∧ k ≤ s.count) ∧ s.continued k = false := by
    simpa [Duty.due] using due
  have unposted : s.posted k = false := by
    rw [← Bool.not_eq_true]
    intro posted
    simp [sane.ordered.posted_continued k posted] at fresh
  have untaken : s.taskDone k = false ∧ s.dropped k = false := by
    simp only [← Bool.not_eq_true, ← not_or]
    intro taken
    simp [sane.ordered.taken_posted k taken] at unposted
  have uncreated : s.created k = false := by
    rw [← Bool.not_eq_true]
    intro created
    simp [sane.ordered.created_taken k created] at untaken
  have scheduled : s.scheduled = true := by
    by_contra idle
    have next := sane.ordered.next
    have taken := sane.ordered.begun_taken k requested.1
    simp only [Bool.not_eq_true] at idle
    simp only [idle, Bool.toNat_false] at next
    simp [taken (by omega)] at untaken
  refine ⟨requested, fresh, unposted, untaken.1, untaken.2, uncreated, scheduled, ?_⟩
  rcases sane.wired.calls _ (Multiset.mem_cons_self _ _) with inside | ⟨j, same, -⟩ | ⟨p, registered, ready⟩
  · exact inside.elim
  · cases same
  · cases p with
    | chain j =>
      obtain rfl : k = j + 1 := registered
      exact ready
    | _ => exact registered.elim

theorem Sane.due_of_outcome (sane : Sane s pending) {p : JobState} {r : JobResult}
    (outcome : Outcome s.heap pending p r) : 0 < (dutyOf p).due s := by
  rcases outcome with member | result
  · exact sane.due_of_pending _ member (by simp [Account.owes, target_dutyOf])
  · exact sane.due_of_ready (Heap.ready_of_result result)

theorem extends_posted (posted : ℕ → Bool) (k : ℕ) :
    (wiring (Function.update posted k true)).Extends (wiring posted) where
  link := rfl
  continuation _ _ := id
  canceler := by
    rintro c ⟨j, rfl, already⟩
    refine ⟨j, rfl, ?_⟩
    by_cases same : j = k
    · simp [same]
    · simpa [same] using already
  internal _ := id

theorem chainContinuation_step (sane : Sane s (.client (.chainContinuation k) ::ₘ others)) :
    Sane.After (chainContinuation k s) others := by
  obtain ⟨requested, fresh, unposted, untaken, kept, uncreated, scheduled, ready⟩ :=
    sane.next_chained
  have ordered : Ordered { s with
      assertFailed := s.assertFailed || !s.scheduled
      continued := Function.update s.continued k true } :=
    { sane.ordered with
      continued_requested := fun j continued => by
        by_cases same : j = k
        · exact same ▸ requested
        · exact sane.ordered.continued_requested j (by simpa [same] using continued)
      posted_continued := fun j posted => by
        by_cases same : j = k
        · simp [same]
        · simpa [same] using sane.ordered.posted_continued j posted
      chained := fun j continued => by
        by_cases same : j = k
        · exact same ▸ ready
        · exact sane.ordered.chained j (by simpa [same] using continued)
      assertions := by simp [sane.ordered.assertions, scheduled] }
  unfold chainContinuation
  dsimp only
  split
  · rename_i stopping
    refine Sane.release ?_
    refine sane.quiet rfl rfl rfl id ?_ ?_ ordered
      (sane.queued.frame rfl rfl rfl rfl (by simp) (by simp)) ?_ (by simp)
      (Expected.frame rfl rfl rfl rfl rfl rfl rfl rfl) (by simp [Expected])
    · simp only [List.forall_mem_cons, List.not_mem_nil, false_implies, implies_true, and_true]
      exact sound_failed rfl
    · intro duty
      cases duty <;>
        simp [Duty.Counts, Duty.due, Account.owes, Duty.account, Duty.target, Function.update_apply]
      all_goals
        rename_i j
        by_cases same : j = k
        · subst same
          simp [requested, fresh]
        · simp [same, Ne.symm same]
    · intro j e member
      obtain ⟨rfl, -⟩ : j = k ∧ e = .operationCanceled := by simpa using member
      exact ⟨stopping, unposted⟩
  · have taskBlank : Blank s.heap (.task k) :=
      sane.blank (by simp [dutyOf, Duty.due, untaken, kept]) (by simp [waiterDuty, Duty.due, unposted])
    have unchained : ¬ s.heap.Ready (.chainThen k) := by
      intro ready
      have due := sane.due_of_ready ready
      simp [dutyOf, Duty.due, fresh] at due
    have runBlank : Blank s.heap (.run k) := by
      refine sane.blank (by simp [dutyOf, Duty.due, unposted]) fun f member => ?_
      obtain ⟨-, -, ready⟩ := waits_of_registered (sane.wired.heap.registered _ f member)
      exact absurd ready unchained
    obtain ⟨same, keeps, heap⟩ := setUp sane.wired.heap taskBlank runBlank (by simp)
      (some (.task k)) (some (.task k))
    have wider := extends_posted s.posted k
    refine sane.build same ?_ (fun call _ sound => wider.sound (sound.keeps keeps)) ?_ ?_ ?_ ?_ ?_ ?_
      (fun call _ => Expected.mono (fun _ => id) (fun _ => keeps.ready) rfl rfl (fun _ => id) id id
        rfl) (by simp [Expected])
    · refine (wider.soundHeap heap).setToken ?_
      simp only [List.forall_mem_cons, List.not_mem_nil, false_implies, implies_true, and_true]
      exact ⟨k, rfl, by simp⟩
    · simp only [List.forall_mem_cons, List.not_mem_nil, false_implies, implies_true, and_true]
      exact ⟨⟨rfl, _, rfl⟩, Or.inl trivial⟩
    · intro duty
      cases duty <;>
        simp [Duty.Counts, Duty.due, Account.owes, Duty.account, Duty.target, Function.update_apply]
      all_goals
        rename_i j
        by_cases same : j = k
        · subst same
          simp [requested, fresh, unposted]
        · simp [same, Ne.symm same]
    · exact { ordered with
        posted_continued := fun j posted => by
          by_cases same : j = k
          · simp [same]
          · exact ordered.posted_continued j (by simpa [same] using posted)
        taken_posted := fun j taken => by
          by_cases same : j = k
          · simp [same]
          · simpa [same] using ordered.taken_posted j taken
        chained := fun j continued => keeps.ready (ordered.chained j continued)
        resolved := resolved_of_same same keeps ordered.resolved
        destroyed := fun done => (ordered.destroyed done).imp id keeps.ready }
    · refine ⟨fun j => ?_, fun j posted untaken dropped => ?_⟩
      · have once := sane.queued.once j
        by_cases same : j = k
        · subst same
          rw [Multiset.count_cons_of_ne (by simp), unposted, Bool.toNat_false] at once
          simp
          omega
        · simp [same, Ne.symm same] at once ⊢
          omega
      · by_cases same : j = k
        · exact Or.inl (by simp [same])
        · refine (sane.queued.somewhere j (by simpa [same] using posted) untaken dropped).imp ?_ ?_
          · exact fun member => List.mem_append_left _ member
          · intro member
            exact Multiset.mem_add.mpr (Or.inr (by simpa using member))
    · intro j e
      refine ⟨by simp, fun before outcome => ⟨before.1, ?_⟩⟩
      have different : j ≠ k := by
        rintro rfl
        have due := sane.due_of_outcome outcome
        simp [dutyOf, Duty.due, fresh] at due
      simpa [different] using before.2
    · exact fun j e => ⟨by simp, id⟩

theorem endReschedule_step (sane : Sane s (.client (.endReschedule k) ::ₘ others)) :
    Sane.After (s, [.finish (.chainThen k) (.value (.future (s.heap.future (.run k))))]) others := by
  refine sane.quiet rfl rfl rfl id ?_ ?_ { sane.ordered with }
    (sane.queued.frame rfl rfl rfl rfl (by simp) (by simp)) (by simp) (by simp)
    (Expected.frame rfl rfl rfl rfl rfl rfl rfl rfl) (by simp [Expected])
  · simp only [List.forall_mem_cons, List.not_mem_nil, false_implies, implies_true, and_true]
    refine ⟨fun outer inner linked => (by cases linked), fun sb inner linked => ?_⟩
    refine Or.inr ⟨_, rfl, ?_⟩
    cases sb with
    | chain j => cases j <;> cases linked; rfl
    | _ => cases linked
  · intro duty
    cases duty <;> simp [Duty.Counts, Duty.due, Account.owes, Duty.account, Duty.target]
    rename_i j
    by_cases same : k = j
    · simp [same]
    · simp [same, Ne.symm same]

/-! ## The packaged task -/

/-- The task of run `k` is about to be taken for the first time. -/
theorem Sane.take (sane : Sane s (.client c ::ₘ others)) (posted : s.posted k = true)
    (free : s.taskDone k = false) (kept : s.dropped k = false)
    (mine : ∀ duty : Duty, duty.Counts c = false)
    (queued : Queued { s with taskDone := Function.update s.taskDone k true } (↑calls + others))
    (sound : ∀ call ∈ calls, Sound (wiring s.posted) s.heap call)
    (pays : ∀ duty : Duty, weight duty.account.owes (calls : Multiset JobAction) =
      (duty.Counts (.runBody k)).toNat)
    (expects : ∀ call ∈ calls, Expected
      { s with taskDone := Function.update s.taskDone k true } call)
    (fails : ∀ p r, .finish p r ∈ calls → p = .task k) :
    Sane { s with taskDone := Function.update s.taskDone k true } (↑calls + others) := by
  have uncreated : s.created k = false := by
    rw [← Bool.not_eq_true]
    intro created
    simp [sane.ordered.created_taken k created] at free
  have taken : ∀ j, s.taskDone j = true → Function.update s.taskDone k true j = true := by
    intro j already
    by_cases same : j = k
    · simp [same]
    · simpa [same] using already
  refine sane.quiet rfl rfl rfl id sound ?_ ?_ queued ?_ ?_
    (fun call _ => Expected.mono taken (fun _ => id) rfl rfl (fun _ => id) id id rfl) expects
  · intro duty
    rw [pays, mine]
    cases duty <;> simp [Duty.Counts, Duty.due, Function.update_apply]
    rename_i j
    by_cases same : j = k
    · subst same
      simp [free, kept]
    · simp [same, Ne.symm same]
  · exact { sane.ordered with
      taken_posted := fun j gone => by
        by_cases same : j = k
        · exact same ▸ posted
        · exact sane.ordered.taken_posted j (by simpa [same] using gone)
      created_taken := fun j created => taken j (sane.ordered.created_taken j created)
      begun_taken := fun j positive before => taken j (sane.ordered.begun_taken j positive before) }
  · intro j e member
    cases fails _ _ member
  · intro j e member
    obtain rfl : j = k := by simpa using fails _ _ member
    exact uncreated

theorem packagedTask_step (sane : Sane s (.client (.packagedTask k) ::ₘ others)) :
    Sane.After (if s.taskDone k then (s, []) else
      ({ s with taskDone := Function.update s.taskDone k true },
        [.popCancelationCallback (.task k), .client (.runBody k)])) others := by
  have once := sane.queued.once k
  rw [Multiset.count_cons_self] at once
  have posted : s.posted k = true := by
    rw [← toNat_pos]
    omega
  have kept : s.dropped k = false := by
    have bound := Bool.toNat_le (s.posted k)
    rw [← Bool.not_eq_true, ← toNat_pos]
    omega
  have fewer : ∀ j, others.count (.client (.packagedTask j)) ≤
      (.client (.packagedTask k) ::ₘ others).count (.client (.packagedTask j)) :=
    fun j => Multiset.count_le_count_cons _ _ _
  split
  · rename_i taken
    refine sane.quiet rfl rfl rfl id (by simp) ?_ sane.ordered ?_ (by simp) (by simp)
      (fun _ _ => id) (by simp)
    · intro duty
      cases duty <;> simp [Duty.Counts]
    · refine ⟨fun j => ?_, fun j posted untaken dropped => ?_⟩
      · have before := sane.queued.once j
        have := fewer j
        simp
        omega
      · have other : j ≠ k := by
          rintro rfl
          simp [taken] at untaken
        refine (sane.queued.somewhere j posted untaken dropped).imp id fun member => ?_
        simpa [other] using member
  · rename_i free
    have free : s.taskDone k = false := by simpa using free
    refine sane.take posted free kept (by intro duty; cases duty <;> rfl) ?_ ?_ ?_ ?_ ?_
    · refine ⟨fun j => ?_, fun j posted untaken dropped => ?_⟩
      · have before := sane.queued.once j
        have := fewer j
        simp
        omega
      · have other : j ≠ k := by
          rintro rfl
          simp at untaken
        refine (sane.queued.somewhere j posted (by simpa [other] using untaken) dropped).imp id ?_
        intro member
        simpa [other] using member
    · simp [Sound, Called, wiring, internal]
    · intro duty
      cases duty <;> simp [Duty.Counts, Account.owes, Duty.account]
    · simp only [List.forall_mem_cons, List.not_mem_nil, false_implies, implies_true, and_true]
      refine ⟨trivial, ⟨by simp, ?_⟩, ?_⟩
      · rw [← Bool.not_eq_true]
        intro created
        simp [sane.ordered.created_taken k created] at free
      · by_contra late
        have requested := sane.ordered.continued_requested k (sane.ordered.posted_continued k posted)
        have taken := sane.ordered.begun_taken k requested.1 (by simpa using late)
        simp [taken] at free
    · simp

theorem cancelTask_step (sane : Sane s (.client (.cancelTask k) ::ₘ others)) :
    Sane.After (if s.taskDone k || s.dropped k then (s, []) else
      ({ s with taskDone := Function.update s.taskDone k true },
        [.popCancelationCallback (.task k),
          .finish (.task k) (.exception .operationCanceled)])) others := by
  have posted : s.posted k = true := by
    rcases sane.wired.calls _ (Multiset.mem_cons_self _ _) with inside | ⟨j, same, posted⟩ | ⟨p, registered, -⟩
    · exact inside.elim
    · cases same
      exact posted
    · cases p <;> exact registered.elim
  split
  · refine sane.quiet rfl rfl rfl id (by simp) ?_ sane.ordered
      (sane.queued.frame rfl rfl rfl rfl (by simp) (by simp)) (by simp) (by simp)
      (fun _ _ => id) (by simp)
    intro duty
    cases duty <;> simp [Duty.Counts]
  · rename_i free
    obtain ⟨free, kept⟩ : s.taskDone k = false ∧ s.dropped k = false := by simpa using free
    refine sane.take posted free kept (by intro duty; cases duty <;> rfl) ?_ ?_ ?_ ?_ ?_
    · refine ⟨fun j => ?_, fun j posted untaken dropped => ?_⟩
      · have before := sane.queued.once j
        simp at before ⊢
        omega
      · have other : j ≠ k := by
          rintro rfl
          simp at untaken
        refine (sane.queued.somewhere j posted (by simpa [other] using untaken) dropped).imp id ?_
        intro member
        simpa using member
    · simp only [List.forall_mem_cons, List.not_mem_nil, false_implies, implies_true, and_true]
      exact ⟨trivial, sound_failed rfl⟩
    · intro duty
      cases duty <;> simp [Duty.Counts, Account.owes, Duty.account, Duty.target]
      rename_i j
      by_cases same : k = j
      · simp [same]
      · simp [same, Ne.symm same]
    · simp [Expected]
    · simp

/-! ## The run body -/

theorem Sane.window_current (sane : Sane s pending) (member : .client c ∈ pending)
    (counts : (Duty.window k n).Counts c = true) : k = s.begun ∧ s.captured = some n := by
  have due : 0 < (Duty.window k n).due s :=
    sane.due_of_pending _ member (by simp [Account.owes, Duty.account, counts])
  simpa [Duty.due] using due

/-- The run whose body begins was requested last, and no other run is in its window. -/
theorem Sane.next_begins (sane : Sane s (.client (.runBody k) ::ₘ others)) :
    k = s.count ∧ s.begun + 1 = k ∧ s.scheduled = true ∧ s.captured = none ∧
      s.created k = false ∧ s.taskDone k = true := by
  obtain ⟨⟨taken, uncreated⟩, later⟩ := sane.expected _ (Multiset.mem_cons_self _ _)
  obtain ⟨posted, continued, positive, bound⟩ := sane.taken_requested (Or.inl taken)
  have next := sane.ordered.next
  have scheduled : s.scheduled = true := by
    by_contra idle
    simp only [Bool.not_eq_true] at idle
    simp only [idle, Bool.toNat_false] at next
    omega
  simp only [scheduled, Bool.toNat_true] at next
  refine ⟨by omega, by omega, scheduled, ?_, uncreated, taken⟩
  by_contra busy
  obtain ⟨n, captured⟩ := Option.ne_none_iff_exists'.mp busy
  have open_ := sane.window_open (k := s.begun) (n := n) (by simp [Duty.due, captured])
  have ready := sane.ordered.chained k continued
  rw [show k - 1 = s.begun by omega] at ready
  exact open_.2 ready

/-- What one call owes no other call does. -/
theorem Sane.rest_owes (sane : Sane s (call ::ₘ others)) (duty : Duty) (single : duty.due s ≤ 1)
    (own : 0 < duty.account.owes call) : ∀ other ∈ others, duty.account.owes other = 0 := by
  intro other member
  have total := sane.accounts duty
  have small := measure_le_weight duty.account.owes member
  rw [Account.balance, weight_cons] at total
  omega

theorem Sane.body_once (sane : Sane s (.client c ::ₘ others))
    (own : (Duty.body k).Counts c = true) : ∀ other, .client other ∈ others →
      (Duty.body k).Counts other = false := by
  intro other member
  have none := sane.rest_owes (.body k) (Bool.toNat_le _)
    (by simp [Account.owes, Duty.account, own]) _ member
  simpa [Account.owes, Duty.account] using none

/-- The beginning of a run makes no other call unexpected. -/
theorem Sane.begin_expected (sane : Sane s (.client (.runBody k) ::ₘ others))
    (heap : s'.heap = s.heap) (taken : s'.taskDone = s.taskDone) (begun : s'.begun = k)
    (created : s'.created = s.created) (invoked : s'.invoked = s.invoked)
    (destroying : s'.destroying = s.destroying) (count : s'.count = s.count) :
    ∀ call ∈ others, Expected s call → Expected s' call := by
  intro call member expected
  obtain ⟨last, next, -, idle, -⟩ := sane.next_begins
  cases call with
  | client c =>
    cases c with
    | runBody j =>
      have bound := (sane.taken_requested (Or.inl expected.1.1)).2.2.2
      have different : j ≠ k := by
        rintro rfl
        have once := sane.body_once (k := j) (by simp [Duty.Counts]) _ member
        simp [Duty.Counts] at once
      have := expected.2
      omega
    | callCallback j n => rwa [Expected, taken, created, invoked]
    | returnCallback j n => rwa [Expected, taken, created]
    | catchCallback j n e => rwa [Expected, taken, created]
    | setPromises j n i =>
      have open_ := sane.window_current (Multiset.mem_cons_of_mem member)
        (show (Duty.window j n).Counts _ = true by simp [Duty.Counts])
      simp [idle] at open_
    | destroy => rwa [Expected, destroying]
    | waitDestroyed p => rwa [Expected, destroying, count]
    | _ => trivial
  | finish p r =>
    cases p with
    | continuation j => rwa [Expected, heap]
    | _ => trivial
  | _ => trivial

theorem runBody_step (sane : Sane s (.client (.runBody k) ::ₘ others)) :
    Sane.After (runBody k s) others := by
  obtain ⟨last, next, scheduled, idle, uncreated, taken⟩ := sane.next_begins
  have stopped : s.running = false := by
    rw [← Bool.not_eq_true]
    exact fun running => sane.ordered.running running idle
  have uninvoked : s.invoked k = false := by
    rw [← Bool.not_eq_true]
    intro invoked
    have := sane.ordered.invoked_begun k invoked
    omega
  have invoked_begun : ∀ j, s.invoked j = true → j ≤ k := by
    intro j invoked
    have := sane.ordered.invoked_begun j invoked
    omega
  have begun_taken : ∀ j, 1 ≤ j → j ≤ k → s.taskDone j = true := by
    intro j positive bound
    by_cases same : j = k
    · exact same ▸ taken
    · exact sane.ordered.begun_taken j positive (by omega)
  unfold runBody
  dsimp only
  split
  · rename_i stopping
    refine sane.quiet rfl rfl rfl id ?_ ?_ ?_
      (sane.queued.frame rfl rfl rfl rfl (by simp) (by simp)) (by simp) ?_
      (sane.begin_expected rfl rfl rfl rfl rfl rfl rfl) (by simp [Expected])
    · simp only [List.forall_mem_cons, List.not_mem_nil, false_implies, implies_true, and_true]
      exact sound_failed rfl
    · intro duty
      cases duty <;>
        simp [Duty.Counts, Duty.due, Account.owes, Duty.account, Duty.target, idle]
      rename_i j
      by_cases same : k = j
      · simp [same]
      · simp [same, Ne.symm same]
    · exact { sane.ordered with
        next := by simp [last]
        begun_taken := begun_taken
        invoked_begun := invoked_begun
        assertions := by simp [sane.ordered.assertions, scheduled, stopping] }
    · intro j e member
      obtain ⟨rfl, -⟩ : j = k ∧ e = .operationCanceled := by simpa using member
      exact uncreated
  · refine sane.quiet rfl rfl rfl id ?_ ?_ ?_
      (sane.queued.frame rfl rfl rfl rfl (by simp) (by simp)) (by simp) (by simp)
      (sane.begin_expected rfl rfl rfl rfl rfl rfl rfl) (by simp [Expected, taken, uncreated, uninvoked])
    · simp [Sound, Called, wiring, internal]
    · intro duty
      cases duty <;>
        simp [Duty.Counts, Duty.due, Account.owes, Duty.account, idle]
      rename_i j n
      by_cases same : k = j
      · simp [same]
      · simp [same, Ne.symm same]
    · exact { sane.ordered with
        next := by simp [last]
        begun_taken := begun_taken
        invoked_begun := invoked_begun
        running := by simp
        assertions := by simp [sane.ordered.assertions, scheduled, stopped] }

theorem callCallback_step (sane : Sane s (.client (.callCallback k n) ::ₘ others)) :
    Sane.After ({ s with invoked := Function.update s.invoked k true },
      [.client .user, .client (.returnCallback k n)]) others := by
  obtain ⟨expected, uninvoked⟩ := sane.expected _ (Multiset.mem_cons_self _ _)
  have current := (sane.window_current (Multiset.mem_cons_self _ _)
    (show (Duty.window k n).Counts _ = true by simp [Duty.Counts])).1
  have unreturned : s.returned k = false := by
    rw [← Bool.not_eq_true]
    intro returned
    simp [sane.ordered.returned_invoked k returned] at uninvoked
  refine sane.quiet rfl rfl rfl id ?_ ?_ ?_
    (sane.queued.frame rfl rfl rfl rfl (by simp) (by simp)) (by simp) (by simp) ?_ ?_
  · simp [Sound, Called, wiring, internal]
  · intro duty
    cases duty <;>
      simp [Duty.Counts, Duty.due, Account.owes, Duty.account, Function.update_apply]
    rename_i j
    by_cases same : j = k
    · subst same
      simp [uninvoked, unreturned]
    · simp [same, Ne.symm same]
  · exact { sane.ordered with
      returned_invoked := fun j returned => by
        by_cases same : j = k
        · simp [same]
        · simpa [same] using sane.ordered.returned_invoked j returned
      invoked_begun := fun j invoked => by
        by_cases same : j = k
        · exact same ▸ current.le
        · exact sane.ordered.invoked_begun j (by simpa [same] using invoked) }
  · intro call member before
    cases call with
    | client c =>
      cases c with
      | callCallback j m =>
        have different : j ≠ k := by
          rintro rfl
          have once := sane.body_once (k := j) (by simp [Duty.Counts]) _ member
          simp [Duty.Counts] at once
        exact before.imp id fun uncalled => by simpa [different] using uncalled
      | _ => exact before
    | finish p r =>
      cases p with
      | continuation j => exact before
      | _ => trivial
    | _ => trivial
  · simpa [Expected] using expected

theorem Sane.calling (sane : Sane s (.client (.returnCallback k n) ::ₘ others)) :
    s.invoked k = true ∧ s.returned k = false := by
  have calling : 0 < (Duty.calling k).due s := sane.due_of_pending _ (Multiset.mem_cons_self _ _)
    (by simp [Account.owes, Duty.account, Duty.Counts])
  simpa [Duty.due] using calling

theorem returnCallback_throws {e : Exc}
    (sane : Sane s (.client (.returnCallback k n) ::ₘ others)) :
    Sane.After ({ s with returned := Function.update s.returned k true },
      [.client (.catchCallback k n e)]) others := by
  have expected := sane.expected _ (Multiset.mem_cons_self _ _)
  obtain ⟨invoked, unreturned⟩ := sane.calling
  refine sane.quiet rfl rfl rfl id ?_ ?_ { sane.ordered with
      returned_invoked := fun j returned => by
        by_cases same : j = k
        · exact same ▸ invoked
        · exact sane.ordered.returned_invoked j (by simpa [same] using returned) }
    (sane.queued.frame rfl rfl rfl rfl (by simp) (by simp)) (by simp) (by simp)
    (Expected.frame rfl rfl rfl rfl rfl rfl rfl rfl) ?_
  · simp [Sound, Called, wiring, internal]
  · intro duty
    cases duty <;>
      simp [Duty.Counts, Duty.due, Account.owes, Duty.account, Function.update_apply]
    rename_i j
    by_cases same : j = k
    · subst same
      simp [invoked, unreturned]
    · simp [same, Ne.symm same]
  · simpa [Expected] using expected

/-- One state is set up ready. -/
theorem Sane.accounts_ready (sane : Sane s (.client c ::ₘ others)) {heap' : JobHeap} {p : JobState}
    {r : Option JobResult}
    (balance : ∀ account : Account JobState JobCall, account.balance heap' (↑calls + others) =
      account.balance s.heap (↑calls + others) +
        if account.target = some p then r.isSome.toNat else 0)
    (due : ∀ duty : Duty, duty.due s' + (duty.Counts c).toNat =
      duty.due s + weight duty.account.owes (calls : Multiset JobAction) +
        if duty.target = some p then r.isSome.toNat else 0) (duty : Duty) :
    duty.account.balance heap' (↑calls + others) = duty.due s' := by
  have moved : duty.account.balance s.heap (↑calls + others) + _ = _ :=
    Account.balance_client duty.account c calls others (fun _ => rfl) (fun _ => rfl)
  rw [sane.accounts duty] at moved
  have pays := due duty
  change _ + (duty.Counts c).toNat = _ at moved
  rw [balance]
  change _ + (if duty.target = some p then r.isSome.toNat else 0) = _
  omega

/-- The future of the callback is made: no other call belongs to this run. -/
theorem Sane.expected_created (sane : Sane s (.client (.returnCallback k n) ::ₘ others))
    (taskDone : s'.taskDone = s.taskDone) (begun : s'.begun = s.begun)
    (invoked : s'.invoked = s.invoked) (running : s'.running = s.running)
    (destroying : s'.destroying = s.destroying) (count : s'.count = s.count)
    (created : s'.created = Function.update s.created k true)
    (ready : ∀ {p}, s.heap.Ready p → s'.heap.Ready p) (member : call ∈ others) :
    Expected s' call := by
  have expected := sane.expected call (Multiset.mem_cons_of_mem member)
  have frame : ∀ c j, call = .client c → (Duty.body j).Counts c = true →
      s.created j = false → Function.update s.created k true j = false := by
    rintro c j rfl mine before
    have different : j ≠ k := by
      rintro rfl
      have once := sane.body_once (k := j) (by simp [Duty.Counts]) c member
      simp [mine] at once
    simpa [different] using before
  cases call with
  | client c =>
    cases c <;> simp only [Expected, taskDone, begun, invoked, running, destroying, count, created]
      at expected ⊢
    case runBody j => exact expected.imp (And.imp id (frame _ j rfl (by simp [Duty.Counts]))) id
    case callCallback j n =>
      exact expected.imp (And.imp id (frame _ j rfl (by simp [Duty.Counts]))) id
    case returnCallback j n => exact expected.imp id (frame _ j rfl (by simp [Duty.Counts]))
    case catchCallback j n e => exact expected.imp id (frame _ j rfl (by simp [Duty.Counts]))
    case setPromises j n i => exact expected.imp id ready
    all_goals exact expected
  | finish p r =>
    cases p with
    | continuation j => exact ready expected
    | _ => trivial
  | _ => trivial

theorem returnCallback_step (sane : Sane s (.client (.returnCallback k n) ::ₘ others))
    (r : Option JobResult) : Sane.After (returnCallback k n r s) others := by
  obtain ⟨taken, uncreated⟩ := sane.expected _ (Multiset.mem_cons_self _ _)
  obtain ⟨invoked, unreturned⟩ := sane.calling
  have unproduced : s.produced k = false := by
    rw [← Bool.not_eq_true]
    intro produced
    simp [sane.ordered.produced_created k produced] at uncreated
  have counts : 0 < (Duty.body k).account.owes (.client (.returnCallback k n) : JobAction) := by
    simp [Account.owes, Duty.account, Duty.Counts]
  have unready : ¬ s.heap.Ready (.task k) := fun ready =>
    counts.ne' (sane.nothing_owed ready (Multiset.mem_cons_self _ _))
  have callbackBlank : Blank s.heap (.callback k) :=
    sane.blank (by simp [dutyOf, Duty.due, unproduced]) (by simp [waiterDuty, Duty.due, uncreated])
  have continuationBlank : Blank s.heap (.continuation k) := by
    refine sane.blank (by simp [dutyOf, Duty.due, uncreated]) fun f member => ?_
    obtain ⟨-, -, ready⟩ := waits_of_registered (sane.wired.heap.registered _ f member)
    exact absurd ready unready
  have readyState : ∀ state : SharedBase JobState JobToken JobCall, ∀ r', state.r = some r' →
      Justified (wiring s.posted) s.heap (.callback k) ∧
        Carries (wiring s.posted) (.callback k) r' := fun _ r' _ =>
    sound_inner s.posted s.heap rfl (callback_inside k)
  unfold returnCallback
  generalize callback : SharedBase.mk r [] (if r.isSome then none else some (JobToken.callback k)) =
    state
  have thens : state.thens = [] := by rw [← callback]
  have result : state.r = r := by rw [← callback]
  have blank := continuationBlank.other (p := .callback k) (by simp) state
  have keeps : s.heap.Keeps ((s.heap.setState (.callback k) state).setState (.continuation k)
      { cancelationToken := some (.callback k) }) := fun x r' held =>
    Heap.keeps_setState blank.unready x r' (Heap.keeps_setState callbackBlank.unready x r' held)
  have same : ∀ p, p ≠ .callback k → (((s.heap.setState (.callback k) state).setState
      (.continuation k) { cancelationToken := some (.callback k) }).states p).r =
        (s.heap.states p).r := by
    intro p other
    rw [(blank.setState _ p).1, Heap.setState_states_ne state other]
  refine ⟨⟨?_, mem_after ?_ ?_⟩, ?_, ?_, ?_, ⟨?_, ?_⟩, mem_after ?_ ?_⟩
  · exact (sane.wired.heap.setState callbackBlank.unready (readyState state)
      (by simp [thens])).setState blank.unready (by simp) (by simp)
  · simp only [List.forall_mem_cons, List.not_mem_nil, false_implies, implies_true, and_true]
    refine ⟨rfl, fun outer inner linked => (by cases linked), fun sb inner linked => ?_⟩
    refine Or.inr ⟨_, rfl, ?_⟩
    cases sb with
    | chain j => cases j <;> cases linked
    | run j => cases linked; rfl
    | _ => cases linked
  · exact fun call member => (sane.wired.calls call (Multiset.mem_cons_of_mem member)).keeps keeps
  · refine sane.accounts_ready (p := .callback k) (r := r) (fun account => ?_) fun duty => ?_
    · rw [Account.balance_setState blank.unset blank.alone rfl,
        Account.balance_setState callbackBlank.unset callbackBlank.alone thens, result]
      simp
    · cases duty <;>
        simp [Duty.Counts, Duty.due, Account.owes, Duty.account, Duty.target, Function.update_apply]
      all_goals
        rename_i j
        by_cases same : j = k
        · subst same
          simp [uncreated, unproduced, invoked, unreturned]
        · simp [same, Ne.symm same]
  · exact { sane.ordered with
      created_taken := fun j created => by
        by_cases same : j = k
        · exact same ▸ taken
        · exact sane.ordered.created_taken j (by simpa [same] using created)
      produced_created := fun j produced => by
        by_cases same : j = k
        · simp [same]
        · simpa [same] using sane.ordered.produced_created j (by simpa [same] using produced)
      chained := fun j continued => keeps.ready (sane.ordered.chained j continued)
      returned_invoked := fun j returned => by
        by_cases same : j = k
        · exact same ▸ invoked
        · exact sane.ordered.returned_invoked j (by simpa [same] using returned)
      resolved := fun j ready => by
        rw [Heap.Ready, same _ (by simp)] at ready
        exact keeps.ready (sane.ordered.resolved j ready)
      destroyed := fun done => (sane.ordered.destroyed done).imp id keeps.ready }
  · exact sane.queued.frame rfl rfl rfl rfl (by simp) (by simp)
  · intro j e outcome
    rcases outcome_after (.client (.returnCallback k n)) (same _ (by simp)) outcome with
      made | before
    · simp at made
    · exact sane.failed.gaveUp j e before
  · intro j e outcome
    rcases outcome_after (.client (.returnCallback k n)) (same _ (by simp)) outcome with
      made | before
    · simp at made
    · have different : j ≠ k := by
        rintro rfl
        rcases before with member | failed
        · have others := (Multiset.mem_cons.mp member).resolve_left (by simp)
          have once := sane.rest_owes (.body j) (Bool.toNat_le _) counts _ others
          simp [Account.owes, Duty.account, Duty.target] at once
        · exact unready (Heap.ready_of_result failed)
      simpa [different] using sane.failed.neverRan j e before
  · simp [Expected]
  · exact fun call member => sane.expected_created rfl rfl rfl rfl rfl rfl rfl keeps.ready member

theorem catchCallback_step {e : Exc} (sane : Sane s (.client (.catchCallback k n e) ::ₘ others)) :
    Sane.After ({ s with running := false, captured := none },
      [.finish (.task k) (.exception e)]) others := by
  obtain ⟨-, uncreated⟩ := sane.expected _ (Multiset.mem_cons_self _ _)
  have due : 0 < (Duty.window k n).due s :=
    sane.due_of_pending _ (Multiset.mem_cons_self _ _) (by simp [Account.owes, Duty.account, Duty.Counts])
  obtain ⟨rfl, captured⟩ : k = s.begun ∧ s.captured = some n := by simpa [Duty.due] using due
  refine sane.quiet rfl rfl rfl id ?_ ?_ { sane.ordered with running := by simp }
    (sane.queued.frame rfl rfl rfl rfl (by simp) (by simp)) (by simp) ?_
    (fun call _ => Expected.mono (fun _ => id) (fun _ => id) rfl rfl (fun _ => id) (fun _ => rfl) id rfl)
    (by simp [Expected])
  · simp only [List.forall_mem_cons, List.not_mem_nil, false_implies, implies_true, and_true]
    exact sound_failed rfl
  · intro duty
    cases duty <;>
      simp [Duty.Counts, Duty.due, Account.owes, Duty.account, Duty.target, captured]
    · rename_i j
      by_cases same : s.begun = j
      · simp [same]
      · simp [same, Ne.symm same]
    · rename_i j m
      by_cases same : s.begun = j
      · simp [same]
      · simp [same, Ne.symm same]
  · intro j e' member
    obtain ⟨rfl, -⟩ : j = s.begun ∧ e' = e := by simpa using member
    exact uncreated

/-! ## The closure on the future of the callback -/

theorem runContinuation_step {step : JobStep}
    (sane : Sane s (.client (.runContinuation k n) ::ₘ others))
    (ran : runContinuation k n s = some step) : Sane.After step others := by
  obtain ⟨rfl, captured⟩ := sane.window_current (Multiset.mem_cons_self _ _)
    (show (Duty.window k n).Counts _ = true by simp [Duty.Counts])
  unfold runContinuation at ran
  split at ran
  · rename_i e failed
    have ready := Heap.ready_of_result failed
    cases ran
    refine Sane.release ?_
    refine sane.quiet rfl rfl rfl id ?_ ?_ { sane.ordered with running := by simp }
      (sane.queued.frame rfl rfl rfl rfl (by simp) (by simp)) (by simp) (by simp)
      (fun call _ => Expected.mono (fun _ => id) (fun _ => id) rfl rfl (fun _ => id) (fun _ => rfl) id rfl)
      (by simp [Expected, ready])
    · simp only [List.forall_mem_cons, List.not_mem_nil, false_implies, implies_true, and_true]
      exact sound_failed rfl
    · intro duty
      cases duty <;>
        simp [Duty.Counts, Duty.due, Account.owes, Duty.account, Duty.target, captured]
      · rename_i j
        by_cases same : s.begun = j
        · simp [same]
        · simp [same, Ne.symm same]
      · rename_i j m
        by_cases same : s.begun = j
        · simp [same]
        · simp [same, Ne.symm same]
  · rename_i v result
    have ready := Heap.ready_of_result result
    cases ran
    refine sane.quiet rfl rfl rfl id ?_ ?_ { sane.ordered with running := by simp }
      (sane.queued.frame rfl rfl rfl rfl (by simp) (by simp)) (by simp) (by simp)
      (fun call _ => Expected.mono (fun _ => id) (fun _ => id) rfl rfl (fun _ => id) (fun _ => rfl) id rfl)
      (by simp [Expected, ready])
    · simp [Sound, Called, wiring, internal]
    · intro duty
      cases duty <;> simp [Duty.Counts, Duty.due, Account.owes, Duty.account]
  · cases ran

theorem setPromises_step (sane : Sane s (.client (.setPromises k n i) ::ₘ others)) :
    Sane.After (setPromises k n i s) others := by
  obtain ⟨rfl, captured⟩ := sane.window_current (Multiset.mem_cons_self _ _)
    (show (Duty.window k n).Counts _ = true by simp [Duty.Counts])
  unfold setPromises
  split
  · refine sane.quiet rfl rfl rfl id ?_ ?_ { sane.ordered with }
      (sane.queued.frame rfl rfl rfl rfl (by simp) (by simp)) (by simp) (by simp)
      (Expected.frame rfl rfl rfl rfl rfl rfl rfl rfl)
      (by simpa [Expected] using sane.expected _ (Multiset.mem_cons_self _ _))
    · simp [Sound, Called, wiring, internal]
    · intro duty
      cases duty <;> simp [Duty.Counts, Duty.due, Account.owes, Duty.account]
  · refine Sane.release ?_
    obtain ⟨stopped, ready⟩ := sane.expected _ (Multiset.mem_cons_self _ _)
    refine sane.quiet rfl rfl rfl id ?_ ?_ { sane.ordered with running := by simp [stopped] }
      (sane.queued.frame rfl rfl rfl rfl (by simp) (by simp)) (by simp) (by simp)
      (Expected.frame rfl rfl rfl rfl rfl rfl rfl rfl) (by simp [Expected, ready])
    · simp only [List.forall_mem_cons, List.not_mem_nil, false_implies, implies_true, and_true]
      exact sound_inner _ _ rfl (continuation_inside _)
    · intro duty
      cases duty <;>
        simp [Duty.Counts, Duty.due, Account.owes, Duty.account, Duty.target, captured]
      · rename_i j
        by_cases same : s.begun = j
        · simp [same]
        · simp [same, Ne.symm same]
      · rename_i j m
        by_cases same : s.begun = j
        · simp [same]
        · simp [same, Ne.symm same]

/-! ## `~job` -/

theorem destroy_step (sane : Sane s (.client .destroy ::ₘ others)) :
    Sane.After ({ s with stopping := true },
      [.requestCancel s.future, .client (.waitDestroyed s.future)]) others := by
  have dying : s.destroying = true := sane.expected _ (Multiset.mem_cons_self _ _)
  refine sane.quiet rfl rfl rfl (fun _ => rfl) ?_ ?_ { sane.ordered with dying := fun _ => dying }
    (sane.queued.frame rfl rfl rfl rfl (by simp) (by simp)) (by simp) (by simp)
    (Expected.frame rfl rfl rfl rfl rfl rfl rfl rfl) ?_
  · simp [Sound, Called, wiring, internal]
  · intro duty
    cases duty <;> simp [Duty.Counts, Duty.due, Account.owes, Duty.account]
  · simp [Expected, dying, sane.ordered.future]

theorem waitDestroyed_step {p : JobState} (sane : Sane s (.client (.waitDestroyed p) ::ₘ others))
    (ready : s.heap.Ready p) : Sane.After ({ s with destroyed := true }, []) others := by
  obtain ⟨dying, rfl⟩ := sane.expected _ (Multiset.mem_cons_self _ _)
  refine sane.quiet rfl rfl rfl id (by simp) ?_
    { sane.ordered with destroyed := fun _ => ⟨dying, ready⟩ }
    (sane.queued.frame rfl rfl rfl rfl (by simp) (by simp)) (by simp) (by simp)
    (Expected.frame rfl rfl rfl rfl rfl rfl rfl rfl) (by simp)
  intro duty
  cases duty <;> simp [Duty.Counts, Duty.due]

/-! ## Every step -/

theorem clientExec_step {step : JobStep} (sane : Sane s (.client c ::ₘ others))
    (ran : clientExec thread choice s c = some step) : Sane.After step others := by
  cases c with
  | user => exact user_step sane ran
  | executor => exact executor_step sane ran
  | trigger setPromise =>
    obtain ⟨s₁, acquired, rfl⟩ := Option.map_eq_some_iff.mp ran
    exact trigger_step (sane.acquire acquired)
  | assignFuture k setPromise =>
    cases ran
    exact assignFuture_step sane
  | returnFuture setPromise =>
    cases ran
    exact Sane.release (returnFuture_step sane)
  | chainContinuation k =>
    obtain ⟨s₁, acquired, rfl⟩ := Option.map_eq_some_iff.mp ran
    exact chainContinuation_step (sane.acquire acquired)
  | endReschedule k =>
    cases ran
    exact Sane.release (endReschedule_step sane)
  | packagedTask k =>
    have kept := packagedTask_step sane
    simp only [clientExec] at ran
    split at ran
    · rename_i taken
      cases ran
      simpa [taken] using kept
    · rename_i free
      cases ran
      simpa [free] using kept
  | runBody k =>
    obtain ⟨s₁, acquired, rfl⟩ := Option.map_eq_some_iff.mp ran
    exact Sane.release (runBody_step (sane.acquire acquired))
  | callCallback k n =>
    cases ran
    exact callCallback_step sane
  | returnCallback k n =>
    cases choice with
    | throws e =>
      cases ran
      exact returnCallback_throws sane
    | returns r =>
      cases ran
      exact returnCallback_step sane r
    | _ => cases ran
  | catchCallback k n e =>
    obtain ⟨s₁, acquired, rfl⟩ := Option.map_eq_some_iff.mp ran
    exact Sane.release (catchCallback_step (sane.acquire acquired))
  | runContinuation k n =>
    obtain ⟨s₁, acquired, continued⟩ := Option.bind_eq_some_iff.mp ran
    exact runContinuation_step (sane.acquire acquired) continued
  | setPromises k n i =>
    cases ran
    exact setPromises_step sane
  | cancelTask k =>
    have kept := cancelTask_step sane
    simp only [clientExec] at ran
    split at ran
    · rename_i gone
      cases ran
      simpa [gone] using kept
    · rename_i free
      cases ran
      simpa [free] using kept
  | destroy =>
    obtain ⟨s₁, acquired, rfl⟩ := Option.map_eq_some_iff.mp ran
    exact Sane.release (destroy_step (sane.acquire acquired))
  | waitDestroyed p =>
    simp only [clientExec] at ran
    split at ran
    · rename_i ready
      cases ran
      exact waitDestroyed_step sane ready
    · cases ran

theorem userCode_cases (call : JobAction) : userCode call = [] ∨ userCode call = [.client .user] := by
  unfold userCode
  split <;> simp

theorem exec_library (library : ∀ c, call ≠ .client c) :
    exec thread choice s call = some ({ s with heap := (s.heap.exec call).1 },
      userCode call ++ (s.heap.exec call).2 ++ userCode call) := by
  cases call with
  | client c => exact absurd rfl (library c)
  | _ => rfl

/-- User code around the library's calls does no harm to what it keeps. -/
theorem with_userCode (Inv : Multiset JobAction → Prop)
    (user : ∀ pending, Inv pending → Inv (.client .user ::ₘ pending))
    (inside : Inv (↑calls + others)) : Inv (↑(userCode call ++ calls ++ userCode call) + others) := by
  apply around Inv _ inside
  rcases userCode_cases call with none | one
  · simp [none]
  · simpa [one] using user

/-- **Every step of every thread keeps the invariant.** -/
theorem exec_step (sane : Sane s (call ::ₘ others))
    (ran : exec thread choice s call = some (s', calls)) : Sane s' (↑calls + others) := by
  by_cases program : ∃ c, call = .client c
  · obtain ⟨c, rfl⟩ := program
    exact clientExec_step sane ran
  · have other : ∀ c, call ≠ .client c := fun c same => program ⟨c, same⟩
    rw [exec_library other] at ran
    cases ran
    exact with_userCode (Sane _) (fun _ => Sane.user) (sane.library other)

/-! ## The start -/

theorem sane_alone : Sane (start 0).state {.client .executor} where
  wired := by
    refine ⟨⟨fun p r result => ?_, fun p f member => ?_, fun t f member => ?_⟩, ?_⟩
    · by_cases initial : p = .chain 0
      · subst initial
        exact sound_inner (fun _ => false) (start 0).state.heap rfl
          fun sb inner linked => by
            cases sb with
            | chain j => cases j <;> cases linked
            | _ => cases linked
      · simp [start, Heap.setState_states_ne _ initial] at result
    · by_cases initial : p = .chain 0
      · subst initial
        simp [start] at member
      · simp [start, Heap.setState_states_ne _ initial] at member
    · simp [start] at member
    · simp [Sound, Called, wiring, internal]
  accounts duty := by
    have alone : ∀ p, ((start 0).state.heap.states p).thens = [] := by
      intro p
      by_cases initial : p = .chain 0
      · simp [start, initial]
      · simp [start, Heap.setState_states_ne _ initial]
    have unset : ∀ p : JobState, p ≠ .chain 0 → ((({} : JobHeap).setState (.chain 0)
        { r := some (.value (.plain 0)) }).states p).r = none := by
      intro p other
      simp [Heap.setState_states_ne _ other]
    have lists : ∀ p, duty.account.waiting (start 0).state.heap p = 0 := by
      simp [Account.waiting, alone]
    simp only [Account.balance, lists, Finset.sum_const_zero, weight_singleton]
    cases duty with
    | chained k =>
      by_cases initial : k = 0
      · subst initial
        rfl
      · have other : JobState.chain k ≠ .chain 0 := by simpa using initial
        simp [Account.settled, Duty.account, Duty.target, unset _ other, Account.owes, Duty.Counts,
          Duty.due, start, initial]
    | registration k =>
      cases k <;>
        simp [Account.settled, Duty.account, Duty.target, Account.owes, Duty.Counts, Duty.due, start]
    | _ =>
      simp [Account.settled, Duty.account, Duty.target, unset, Account.owes, Duty.Counts, Duty.due,
        start]
  ordered := by
    refine ⟨?_, ?_, ?_, ?_, ?_, rfl, ?_, rfl, ?_, ?_, ?_, ?_, ?_, rfl, ?_, ?_, ?_⟩ <;>
      simp [start, Heap.Ready, Heap.setState_states_ne]
    omega
  queued := ⟨by simp [start], by simp [start]⟩
  failed := by
    refine ⟨fun k e outcome => ?_, fun k e outcome => ?_⟩
    · simp [Outcome, start, Heap.setState_states_ne] at outcome
    · simp [Outcome, start, Heap.setState_states_ne] at outcome
  expected := by simp [Expected]

theorem pending_start {threads : ℕ} (member : call ∈ (start threads).pending) :
    call = .client .executor ∨ call = .client .user := by
  obtain ⟨agenda, listed, held⟩ := List.mem_flatten.mp (Multiset.mem_coe.mp member)
  rcases List.mem_cons.mp listed with rfl | user
  · exact Or.inl (List.mem_singleton.mp held)
  · rw [(List.mem_replicate.mp user).2] at held
    exact Or.inr (List.mem_singleton.mp held)

theorem sane_start (threads : ℕ) :
    Sane (start threads).state (start threads).pending := by
  have pending : (start threads).pending =
      Multiset.replicate threads (.client .user) + {.client .executor} := by
    have users := Config.pending_replicate (start threads).state threads (.client .user : JobAction)
    simp only [Config.pending] at users
    simp only [start, Config.pending, List.flatten_cons]
    rw [← Multiset.coe_add, users, Multiset.coe_singleton, add_comm]
  have every : ∀ n, Sane (start 0).state
      (Multiset.replicate n (.client .user) + {.client .executor}) := by
    intro n
    induction n with
    | zero => simpa using sane_alone
    | succ n ih =>
      rw [Multiset.replicate_succ, Multiset.cons_add]
      exact ih.user
  rw [pending]
  exact every threads

theorem sane_of_reachable {threads : ℕ} {allowed : State → JobAction → Choice → Prop}
    {config : Config State JobAction} (reached : Reachable exec allowed (start threads) config) :
    Sane config.state config.pending :=
  reached.invariant Sane (sane_start threads) fun _ _ _ _ _ _ _ sane _ ran => exec_step sane ran

end Tconcurrent.Job
