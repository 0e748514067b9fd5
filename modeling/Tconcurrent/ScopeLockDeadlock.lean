import Tconcurrent.ScopeLock

/-! When a `push` never comes back to its own mutex.

A thread that holds the mutex runs the continuations of one waiter and then
destroys its packaged task.  Neither gets to the queue as long as somebody else
still refers to what the waiter was given. -/
namespace Tconcurrent.ScopeLock
open Interleaving

variable {s s' : State} {call : LockCall} {calls : List LockCall} {others pending : Multiset LockCall}
  {choice : Choice} {thread n threads i : ℕ} {config : Config State LockCall}

/-- What user code does with the queue of the semaphore. -/
def reaches (s : State) : Choice → Bool
  | .acquire | .getScopeLock | .release | .count | .destroyLock _ => true
  | .dropFuture i => destroys s i
  | _ => false

def pushes (s : State) : Choice → Bool
  | .release | .destroyLock _ => true
  | .dropFuture i => destroys s i
  | _ => false

/-- The references to a request's state that are left. -/
def refsLeft (s : State) (choice : Choice) (i : ℕ) : ℕ :=
  if choice = .dropFuture i then s.refs i - 1 else s.refs i

/-- A waiter that is given a lock has somebody to keep it. -/
def wanted (s : State) (choice : Choice) : List ℕ → Bool
  | [] => true
  | i :: _ => !s.registered i || refsLeft s choice i ≠ 0 || s.canceled i || s.kind i = .acquire

/-- The code that `push` runs leaves the semaphore alone and destroys no lock, and
the future of a waiter is not dropped before it is resolved, unless the waiter is
cancelled. -/
def Careful (s : State) : LockCall → Choice → Prop
  | .user inside, choice =>
    (inside = true → reaches s choice = false) ∧
      (pushes s choice = true → wanted s choice s.waiters = true) ∧
      ∀ i, choice = .dropFuture i → s.resolving = some i → s.refs i = 1 →
        s.result i ≠ some .lock
  | _, _ => True

/-- How often a call unlocks the mutex. -/
def releases : LockCall → ℕ
  | .endPush _ => 1
  | _ => 0

/-- What is not called under the mutex. -/
def Bottom (call : LockCall) : Prop := call = .user false

def mutexUse : LockUse State LockCall where
  held s thread := if s.locked = some thread then 1 else 0
  releases := releases
  bottom := Bottom

/-- The waiter that was resolved still has somebody to keep its lock. -/
structure Sane (s : State) (pending : Multiset LockCall) : Prop where
  lock : weight releases pending = s.locked.isSome.toNat
  kept : ∀ i, .endPush i ∈ pending → s.resolving = some i ∧ (s.refs i = 0 → s.result i ≠ some .lock)
  alive : s.deadlocked = false

/-! ## What a `push` does -/

/-- A call that leaves the mutex, the waiter and all results as they are. -/
structure Frame (s s' : State) : Prop where
  locked : s'.locked = s.locked
  resolving : s'.resolving = s.resolving
  refs : s'.refs = s.refs
  result : s'.result = s.result
  deadlocked : s'.deadlocked = s.deadlocked

/-- The ways a call on the queue goes. -/
inductive QueueStep (thread : ℕ) (s s' : State) : List LockCall → Prop where
  | stuck : s.locked = some thread → s' = { s with deadlocked := true } →
      QueueStep thread s s' [.stuck]
  | quiet (calls : List LockCall) : s.locked = none → Frame s s' →
      (∀ call ∈ calls, releases call = 0 ∧ ¬ Bottom call) → QueueStep thread s s' calls
  | resolves (i : ℕ) (waiters : List ℕ) : s.locked = none → s.waiters = i :: waiters →
      s.registered i = true → s'.locked = some thread → s'.resolving = some i →
      s'.refs = s.refs → s'.result = (packagedTask i s).result →
      s'.deadlocked = s.deadlocked → QueueStep thread s s' [.user true, .endPush i]

theorem lockMutex_cases {f : State → LockStep} (ran : lockMutex thread s f = some (s', calls)) :
    (s.locked = some thread ∧ s' = { s with deadlocked := true } ∧ calls = [.stuck]) ∨
      (s.locked = none ∧ f s = (s', calls)) := by
  unfold lockMutex at ran
  split at ran
  · rename_i free
    exact Or.inr ⟨free, Option.some.inj ran⟩
  · rename_i owner held
    split at ran
    · rename_i own
      subst own
      cases ran
      exact Or.inl ⟨held, rfl, rfl⟩
    · cases ran

theorem push_cases (ran : push thread s = some (s', calls)) : QueueStep thread s s' calls := by
  rcases lockMutex_cases ran with ⟨held, rfl, rfl⟩ | ⟨free, made⟩
  · exact .stuck held rfl
  · split at made
    · cases made
      exact .quiet _ free ⟨rfl, rfl, rfl, rfl, rfl⟩ (by simp)
    · rename_i i waiters listed
      dsimp only at made
      split at made
      · rename_i registered
        cases made
        exact .resolves i waiters free listed registered rfl rfl rfl rfl rfl
      · cases made
        exact .quiet _ free ⟨rfl, rfl, rfl, rfl, rfl⟩ (by simp)

theorem pop_cases {kind : Kind} (ran : pop thread kind s = some (s', calls)) :
    QueueStep thread s s' calls := by
  rcases lockMutex_cases ran with ⟨held, rfl, rfl⟩ | ⟨free, made⟩
  · exact .stuck held rfl
  · dsimp only at made
    split at made <;> cases made <;>
      exact .quiet _ free ⟨rfl, rfl, rfl, rfl, rfl⟩ (by simp [releases, Bottom])

theorem size_cases (ran : size thread s = some (s', calls)) : QueueStep thread s s' calls := by
  rcases lockMutex_cases ran with ⟨held, rfl, rfl⟩ | ⟨free, made⟩
  · exact .stuck held rfl
  · cases made
    exact .quiet _ free ⟨rfl, rfl, rfl, rfl, rfl⟩ (by simp)

/-- What user code does: a call on the queue in a state that has lost a lock or a
reference, or something that does not touch the queue. -/
inductive UserStep (thread : ℕ) (inside : Bool) (s : State) (choice : Choice) (s' : State) :
    List LockCall → Prop where
  | return : s' = s → UserStep thread inside s choice s' []
  | queue (before : State) (made : List LockCall) : reaches s choice = true →
      before.locked = s.locked → before.resolving = s.resolving →
      before.waiters = s.waiters → before.registered = s.registered →
      before.canceled = s.canceled → before.kind = s.kind → before.deadlocked = s.deadlocked →
      (∀ j, before.refs j = refsLeft s choice j) →
      QueueStep thread before s' made →
      ((∃ j, .endPush j ∈ made) → pushes s choice = true) →
      UserStep thread inside s choice s' (made ++ [.user inside])
  | quiet : s'.locked = s.locked → s'.resolving = s.resolving → s'.deadlocked = s.deadlocked →
      (∀ j, s'.refs j = 0 → s'.result j = some .lock →
        s.result j = some .lock ∧ (s.refs j = 0 ∨ choice = .dropFuture j ∧ s.refs j = 1)) →
      UserStep thread inside s choice s' [.user inside]

theorem no_endPush {made : List LockCall} (quiet : ∀ call ∈ made, releases call = 0) :
    ¬ ∃ j, .endPush j ∈ made := by
  rintro ⟨j, member⟩
  have one := quiet _ member
  cases one

theorem pop_quiet {kind : Kind} (ran : pop thread kind s = some (s', calls)) :
    ∀ call ∈ calls, releases call = 0 := by
  rcases lockMutex_cases ran with ⟨-, -, rfl⟩ | ⟨-, made⟩
  · simp [releases]
  · dsimp only at made
    split at made <;> cases made <;> simp [releases]

theorem size_quiet (ran : size thread s = some (s', calls)) :
    ∀ call ∈ calls, releases call = 0 := by
  rcases lockMutex_cases ran with ⟨-, -, rfl⟩ | ⟨-, made⟩
  · simp [releases]
  · cases made
    simp

/-- User code goes on behind what it has called. -/
theorem goesOn_cases {inside : Bool} {step : Option LockStep}
    (ran : user.goesOn inside step = some (s', calls)) :
    ∃ made, step = some (s', made) ∧ calls = made ++ [.user inside] := by
  obtain ⟨⟨after, made⟩, stepped, same⟩ := Option.map_eq_some_iff.mp ran
  cases same
  exact ⟨made, stepped, rfl⟩

theorem user_cases {inside : Bool} (ran : user thread inside s choice = some (s', calls)) :
    UserStep thread inside s choice s' calls := by
  cases choice with
  | «return» =>
    cases ran
    exact .return rfl
  | acquire =>
    obtain ⟨made, popped, rfl⟩ := goesOn_cases ran
    exact .queue s made rfl rfl rfl rfl rfl rfl rfl rfl (fun _ => rfl)
      (pop_cases popped) fun ends => absurd ends (no_endPush (pop_quiet popped))
  | getScopeLock =>
    obtain ⟨made, popped, rfl⟩ := goesOn_cases ran
    exact .queue s made rfl rfl rfl rfl rfl rfl rfl rfl (fun _ => rfl)
      (pop_cases popped) fun ends => absurd ends (no_endPush (pop_quiet popped))
  | release =>
    obtain ⟨made, pushed, rfl⟩ := goesOn_cases ran
    exact .queue s made rfl rfl rfl rfl rfl rfl rfl rfl (fun _ => rfl)
      (push_cases pushed) fun _ => rfl
  | count =>
    obtain ⟨made, sized, rfl⟩ := goesOn_cases ran
    exact .queue s made rfl rfl rfl rfl rfl rfl rfl rfl (fun _ => rfl)
      (size_cases sized) fun ends => absurd ends (no_endPush (size_quiet sized))
  | requestCancel i =>
    simp only [user] at ran
    split at ran
    · obtain ⟨made, stepped, rfl⟩ := goesOn_cases ran
      cases stepped
      exact .quiet rfl rfl rfl fun j gone lock => ⟨lock, Or.inl gone⟩
    · cases ran
  | copyFuture i =>
    simp only [user] at ran
    split at ran
    · obtain ⟨made, stepped, rfl⟩ := goesOn_cases ran
      cases stepped
      refine .quiet rfl rfl rfl fun j gone lock => ⟨lock, Or.inl ?_⟩
      dsimp only at gone
      by_cases same : j = i
      · subst same
        rw [Function.update_self] at gone
        omega
      · rwa [Function.update_of_ne same] at gone
    · cases ran
  | dropFuture i =>
    simp only [user] at ran
    split at ran
    · rename_i owned
      obtain ⟨made, dropped, rfl⟩ := goesOn_cases ran
      unfold dropFuture at dropped
      dsimp only at dropped
      split at dropped
      · rename_i dies
        refine .queue _ made dies ?_ ?_ ?_ ?_ ?_ ?_ ?_ ?_ (push_cases dropped) fun _ => dies
        iterate 7 rfl
        intro j
        by_cases same : j = i
        · subst same
          simp [refsLeft]
        · have other : Choice.dropFuture i ≠ .dropFuture j := by simpa using Ne.symm same
          simp [refsLeft, other, Function.update_of_ne same]
      · cases dropped
        refine .quiet rfl rfl rfl fun j gone lock => ⟨lock, ?_⟩
        dsimp only at gone
        by_cases same : j = i
        · subst same
          rw [Function.update_self] at gone
          have positive := (of_decide_eq_true owned).2
          exact Or.inr ⟨rfl, by omega⟩
        · rw [Function.update_of_ne same] at gone
          exact Or.inl gone
    · cases ran
  | takeLock i =>
    simp only [user] at ran
    split at ran
    · obtain ⟨made, stepped, rfl⟩ := goesOn_cases ran
      cases stepped
      refine .quiet rfl rfl rfl fun j gone lock => ?_
      dsimp only at lock
      by_cases same : j = i
      · subst same
        rw [Function.update_self] at lock
        cases lock
      · rw [Function.update_of_ne same] at lock
        exact ⟨lock, Or.inl gone⟩
    · cases ran
  | destroyLock i =>
    simp only [user] at ran
    split at ran
    · obtain ⟨made, pushed, rfl⟩ := goesOn_cases ran
      exact .queue { s with locks := s.locks.erase i } made rfl rfl rfl rfl rfl rfl rfl rfl
        (fun _ => rfl) (push_cases pushed) fun _ => rfl
    · cases ran

/-! ## The mutex -/

/-- A step that leaves the mutex to whoever holds it. -/
theorem respected_same (locked : s'.locked = s.locked)
    (weighs : weight releases (calls : Multiset LockCall) = releases call)
    (below : calls.Pairwise fun call later => Bottom call → releases later = 0)
    (kept : ∀ later ∈ calls, Bottom later → Bottom call) :
    mutexUse.Respected thread s s' call calls where
  own := by simp only [mutexUse, locked, weighs]
  others other _ := by simp only [mutexUse, locked]
  below := below
  kept := kept

theorem weight_quiet {made : List LockCall} (quiet : ∀ call ∈ made, releases call = 0) :
    weight releases (made : Multiset LockCall) = 0 := by
  apply Multiset.sum_eq_zero
  intro value member
  obtain ⟨later, held, rfl⟩ := Multiset.mem_map.mp member
  exact quiet later (Multiset.mem_coe.mp held)

theorem pairwise_quiet {made : List LockCall} (quiet : ∀ call ∈ made, releases call = 0) :
    made.Pairwise fun call later => Bottom call → releases later = 0 := by
  apply List.pairwise_of_forall_mem_list
  intro call _ later member _
  exact quiet later member

/-- What a call on the queue makes is not the bottom of an agenda. -/
theorem QueueStep.above {made : List LockCall} (step : QueueStep thread s s' made) :
    ∀ later ∈ made, ¬ Bottom later := by
  cases step with
  | stuck => simp [Bottom]
  | quiet _ _ _ silent => exact fun later member => (silent later member).2
  | resolves => simp [Bottom]

theorem respected_queue {before : State} {made : List LockCall} {inside : Bool}
    (locked : before.locked = s.locked) (step : QueueStep thread before s' made) :
    mutexUse.Respected thread s s' (.user inside) (made ++ [.user inside]) := by
  have kept : ∀ later ∈ made ++ [.user inside], Bottom later → Bottom (.user inside) := by
    intro later member low
    rcases List.mem_append.mp member with old | last
    · exact absurd low (step.above later old)
    · rwa [List.mem_singleton.mp last] at low
  cases step with
  | stuck held after =>
    subst after
    exact respected_same locked (by simp [releases]) (by simp [releases]) kept
  | quiet _ free frame silent =>
    have silent' : ∀ later ∈ made ++ [.user inside], releases later = 0 := by
      intro later member
      rcases List.mem_append.mp member with old | last
      · exact (silent later old).1
      · rw [List.mem_singleton.mp last]
        rfl
    exact respected_same (frame.locked.trans locked) (weight_quiet silent') (pairwise_quiet silent')
      kept
  | resolves i waiters free listed registered after =>
    rw [locked] at free
    refine ⟨by simp [mutexUse, releases, after, free], fun other different => ?_, ?_, kept⟩
    · simp [mutexUse, after, free, Ne.symm different]
    · simp [mutexUse, Bottom, releases]

/-- **Every call does with the mutex what its agenda says.** -/
theorem exec_respected (holds : releases call ≤ mutexUse.held s thread)
    (ran : exec thread choice s call = some (s', calls)) :
    mutexUse.Respected thread s s' call calls := by
  cases call with
  | user inside =>
    cases user_cases ran with
    | «return» same =>
      subst same
      exact respected_same rfl rfl List.Pairwise.nil (by simp)
    | queue before made _ locked _ _ _ _ _ _ _ step => exact respected_queue locked step
    | quiet locked =>
      exact respected_same locked (by simp [releases]) (by simp) (by simp)
  | andThen i =>
    cases ran
    refine respected_same ?_ rfl List.Pairwise.nil (by simp)
    unfold andThen packagedTask
    dsimp only
    split <;> rfl
  | returnFuture i =>
    cases ran
    exact respected_same rfl rfl List.Pairwise.nil (by simp)
  | endPush i =>
    have owner : s.locked = some thread := by
      by_contra other
      simp [mutexUse, releases, other] at holds
    unfold exec endPush at ran
    dsimp only at ran
    split at ran
    · obtain ⟨⟨after, made⟩, pushed, same⟩ := Option.map_eq_some_iff.mp ran
      cases same
      cases push_cases pushed with
      | stuck held same =>
        subst same
        exact respected_same rfl (by simp [releases]) (by simp [Bottom]) (by simp [Bottom])
      | quiet _ free =>
        change s.locked = none at free
        rw [owner] at free
        cases free
      | resolves _ _ free =>
        change s.locked = none at free
        rw [owner] at free
        cases free
    · cases ran
      refine ⟨by simp [mutexUse, releases, owner], fun other different => ?_, List.Pairwise.nil,
        by simp⟩
      simp [mutexUse, owner, Ne.symm different]
  | stuck => cases ran

theorem balanced_start (n threads : ℕ) : mutexUse.Balanced (start n threads) where
  held thread := by
    by_cases inside : thread < threads
    · simp [mutexUse, start, inside, releases]
    · simp [mutexUse, start, inside]
  below agenda member := by
    rw [(List.mem_replicate.mp member).2]
    simp

theorem balanced_of_reachable {allowed : State → LockCall → Choice → Prop}
    (reached : Reachable exec allowed (start n threads) config) : mutexUse.Balanced config :=
  reached.balanced (fun _ _ => True) (balanced_start n threads) (fun _ _ => trivial)
    fun _ _ _ _ _ _ _ _ holds ran => exec_respected holds ran

/-! ## Steps -/

/-- No waiter is being resolved while the mutex is free. -/
theorem Sane.idle (sane : Sane s (call ::ₘ others)) (free : s.locked = none) (i : ℕ) :
    .endPush i ∉ others := by
  intro member
  have small := measure_le_weight releases member
  have lock := sane.lock
  rw [weight_cons, free] at lock
  change 1 ≤ _ at small
  change _ = 0 at lock
  omega

/-- Somebody keeps the lock of a waiter that is resolved with care. -/
theorem kept_of_wanted {before : State} {waiters : List ℕ} (listed : before.waiters = i :: waiters)
    (registered : before.registered i = true) (refs : before.refs i = refsLeft s choice i)
    (canceled : before.canceled = s.canceled) (kind : before.kind = s.kind)
    (same : before.registered = s.registered)
    (careful : wanted s choice before.waiters = true) (gone : before.refs i = 0) :
    (packagedTask i before).result i ≠ some .lock := by
  rw [listed, wanted, ← same, registered, ← refs, gone, ← canceled, ← kind] at careful
  have either : before.canceled i = true ∨ before.kind i = .acquire := by simpa using careful
  simp only [packagedTask, Function.update_self]
  rcases either with cancelled | plain
  · simp [cancelled]
  · rw [plain]
    split <;> simp

theorem user_step {inside : Bool} (sane : Sane s (.user inside ::ₘ others))
    (careful : Careful s (.user inside) choice)
    (free : Bottom (.user inside) → releases (.user inside) = 0 →
      (∀ other ≠ thread, 0 < mutexUse.held s thread ∨ mutexUse.held s other = 0) →
      weight mutexUse.releases others = 0)
    (ran : user thread inside s choice = some (s', calls)) : Sane s' (↑calls + others) := by
  obtain ⟨outside, pushing, last⟩ := careful
  have lock := sane.lock
  rw [weight_cons] at lock
  change 0 + _ = _ at lock
  rw [zero_add] at lock
  have kept : ∀ j, .endPush j ∈ others → s.resolving = some j ∧
      (s.refs j = 0 → s.result j ≠ some .lock) := fun j member =>
    sane.kept j (Multiset.mem_cons_of_mem member)
  cases user_cases ran with
  | «return» same =>
    subst same
    exact ⟨by simpa using lock, by simpa using kept, sane.alive⟩
  | queue before made reaching locked resolving waiters registered canceled kind deadlocked refs
      step ends =>
    have outer : inside = false := by
      by_contra within
      rw [outside (by simpa using within)] at reaching
      cases reaching
    subst outer
    cases step with
    | stuck held after =>
      have own : s.locked = some thread := locked ▸ held
      have nothing := free rfl rfl fun other _ => Or.inl (by simp [mutexUse, own])
      rw [own] at lock
      change weight releases others = 0 at nothing
      rw [nothing] at lock
      cases lock
    | quiet _ unlocked frame silent =>
      have unheld : s.locked = none := locked ▸ unlocked
      rw [unheld] at lock
      change _ = 0 at lock
      have silent' : weight releases (made : Multiset LockCall) = 0 :=
        weight_quiet fun later member => (silent later member).1
      refine ⟨?_, ?_, by rw [frame.deadlocked, deadlocked, sane.alive]⟩
      · rw [frame.locked, unlocked]
        simp [← Multiset.coe_add, silent', lock, releases]
      · intro j member
        rcases Multiset.mem_add.mp member with new | old
        · rcases List.mem_append.mp (Multiset.mem_coe.mp new) with listed | user
          · have one := (silent _ listed).1
            cases one
          · simp at user
        · exact absurd old (sane.idle unheld j)
    | resolves i rest unlocked listed waits held resolved sameRefs sameResult alive =>
      have unheld : s.locked = none := locked ▸ unlocked
      rw [unheld] at lock
      change _ = 0 at lock
      have wanted := pushing (ends ⟨i, by simp⟩)
      rw [← waiters] at wanted
      refine ⟨?_, ?_, by rw [alive, deadlocked, sane.alive]⟩
      · rw [held]
        simp [lock, releases]
      · intro j member
        rcases Multiset.mem_add.mp member with new | old
        · obtain rfl : j = i := by simpa using new
          refine ⟨resolved, fun gone => ?_⟩
          rw [sameRefs] at gone
          rw [sameResult]
          exact kept_of_wanted listed waits (refs j) canceled kind registered wanted gone
        · exact absurd old (sane.idle unheld j)
  | quiet locked resolving deadlocked still =>
    refine ⟨?_, ?_, by rw [deadlocked, sane.alive]⟩
    · rw [locked, ← lock]
      simp [releases]
    · intro j member
      have old : .endPush j ∈ others := by simpa using member
      refine ⟨by rw [resolving, (kept j old).1], fun gone held => ?_⟩
      obtain ⟨before, unowned | ⟨dropped, one⟩⟩ := still j gone held
      · exact (kept j old).2 unowned before
      · exact last j dropped (kept j old).1 one before

theorem andThen_step (sane : Sane s (.andThen i ::ₘ others)) : Sane (andThen i s) others := by
  have lock := sane.lock
  rw [weight_cons] at lock
  change 0 + _ = _ at lock
  rw [zero_add] at lock
  have frame : (andThen i s).locked = s.locked ∧ (andThen i s).resolving = s.resolving ∧
      (andThen i s).deadlocked = s.deadlocked ∧ (andThen i s).refs i = 1 ∧
      ∀ j ≠ i, (andThen i s).refs j = s.refs j ∧ (andThen i s).result j = s.result j := by
    unfold andThen packagedTask
    dsimp only
    split
    · refine ⟨rfl, rfl, rfl, Function.update_self .., fun j other => ?_⟩
      exact ⟨Function.update_of_ne other _ _, Function.update_of_ne other _ _⟩
    · exact ⟨rfl, rfl, rfl, Function.update_self .., fun j other =>
        ⟨Function.update_of_ne other _ _, rfl⟩⟩
  obtain ⟨locked, resolving, deadlocked, one, elsewhere⟩ := frame
  refine ⟨by rw [locked, lock], fun j member => ?_, by rw [deadlocked, sane.alive]⟩
  have before := sane.kept j (Multiset.mem_cons_of_mem member)
  refine ⟨by rw [resolving, before.1], fun gone => ?_⟩
  by_cases same : j = i
  · rw [same, one] at gone
    cases gone
  · rw [(elsewhere j same).1] at gone
    rw [(elsewhere j same).2]
    exact before.2 gone

theorem endPush_step (sane : Sane s (.endPush i ::ₘ others))
    (ran : endPush thread i s = some (s', calls)) : Sane s' (↑calls + others) := by
  have kept := sane.kept i (Multiset.mem_cons_self _ _)
  have lock := sane.lock
  rw [weight_cons] at lock
  change 1 + _ = _ at lock
  unfold endPush at ran
  rw [if_neg fun dies => kept.2 dies.1 dies.2] at ran
  cases ran
  have nothing : weight releases others = 0 := by
    cases held : s.locked with
    | none =>
      rw [held] at lock
      change _ = 0 at lock
      omega
    | some owner =>
      rw [held] at lock
      change _ = 1 at lock
      omega
  refine ⟨by simpa using nothing, fun j member => ?_, sane.alive⟩
  have small := measure_le_weight releases (show .endPush j ∈ others by simpa using member)
  rw [nothing] at small
  cases small

theorem exec_step (sane : Sane s (call ::ₘ others)) (careful : Careful s call choice)
    (free : Bottom call → releases call = 0 →
      (∀ other ≠ thread, 0 < mutexUse.held s thread ∨ mutexUse.held s other = 0) →
      weight mutexUse.releases others = 0)
    (ran : exec thread choice s call = some (s', calls)) : Sane s' (↑calls + others) := by
  cases call with
  | user inside => exact user_step sane careful free ran
  | andThen i =>
    cases ran
    simpa using andThen_step sane
  | returnFuture i =>
    cases ran
    refine ⟨?_, fun j member => ?_, sane.alive⟩
    · have lock := sane.lock
      rw [weight_cons] at lock
      simpa [releases] using lock
    · exact sane.kept j (Multiset.mem_cons_of_mem (by simpa using member))
  | endPush i => exact endPush_step sane ran
  | stuck => cases ran

theorem sane_start (n threads : ℕ) : Sane (start n threads).state (start n threads).pending := by
  have pending : (start n threads).pending = Multiset.replicate threads (.user false) :=
    Config.pending_replicate _ threads (LockCall.user false)
  rw [pending]
  constructor
  · change weight releases _ = 0
    apply Multiset.sum_eq_zero
    intro value member
    obtain ⟨call, held, rfl⟩ := Multiset.mem_map.mp member
    rw [Multiset.eq_of_mem_replicate held]
    rfl
  · intro i member
    cases Multiset.eq_of_mem_replicate member
  · rfl

/-- Whatever any number of threads do with a semaphore, no thread waits for the
mutex that it holds, as long as the code run by `push` keeps away from the semaphore
and no lock is given to a waiter that nobody refers to any more. -/
theorem neverDeadlocks_of_careful (reached : Reachable exec Careful (start n threads) config) :
    config.state.deadlocked = false := by
  have sane := reached.invariant_locked Sane (fun _ => balanced_of_reachable) (sane_start n threads)
    fun _ _ _ _ _ _ _ sane careful free ran => exec_step sane careful free ran
  exact sane.alive

/-- `Careful` can be checked. -/
def careful (s : State) : LockCall → Choice → Bool
  | .user inside, choice =>
    (!inside || !reaches s choice) && (!pushes s choice || wanted s choice s.waiters) &&
      match choice with
      | .dropFuture i =>
        !(decide (s.resolving = some i) && decide (s.refs i = 1) &&
          decide (s.result i = some .lock))
      | _ => true
  | _, _ => true

theorem careful_sound (s : State) (call : LockCall) (choice : Choice)
    (checked : careful s call choice = true) : Careful s call choice := by
  cases call with
  | user inside =>
    simp only [careful, Bool.and_eq_true] at checked
    obtain ⟨⟨outside, pushing⟩, last⟩ := checked
    refine ⟨fun within => by simpa [within] using outside, fun pushed => by simpa [pushed] using pushing,
      ?_⟩
    rintro i rfl resolving one lock
    simp [resolving, one, lock] at last
  | _ => trivial

/-- The second request waits; its lock is taken out inside the `push` that resolves
it, and destroyed after that. -/
theorem neverDeadlocks_handOver : ∃ config : Config State LockCall,
    config.state.deadlocked = false ∧ config.state.queue = 1 ∧ config.state.next = 2 := by
  have ran : ((start 1 1).runWithin exec careful
      [(0, .getScopeLock), (0, .return), (0, .return), (0, .takeLock 0), (0, .getScopeLock),
        (0, .return), (0, .return), (0, .destroyLock 0), (0, .takeLock 1), (0, .return),
        (0, .return), (0, .destroyLock 1)]).map (fun config =>
      decide (config.state.queue = 1 ∧ config.state.next = 2)) = some true := by decide
  obtain ⟨config, reached, holds⟩ := reachable_of_replay_within careful_sound _ _ ran
  exact ⟨config, neverDeadlocks_of_careful reached, of_decide_eq_true holds⟩

/-- The future of a request is dropped while it waits.  The next `push` makes a lock
that nobody but its packaged task refers to, and destroys it under the mutex. -/
theorem dropped_waiter_deadlocks : ∃ config : Config State LockCall,
    Reachable exec Anything (start 1 1) config ∧ config.state.deadlocked = true ∧
      config.state.locked = some 0 ∧ config.call 0 = some .stuck := by
  have ran : ((start 1 1).run exec
      [(0, .getScopeLock), (0, .return), (0, .return), (0, .takeLock 0), (0, .getScopeLock),
        (0, .return), (0, .return), (0, .dropFuture 1), (0, .destroyLock 0), (0, .return),
        (0, .return)]).map (fun config =>
      decide (config.state.deadlocked = true ∧ config.state.locked = some 0 ∧
        config.call 0 = some .stuck)) = some true := by decide
  obtain ⟨config, reached, holds⟩ := reachable_of_replay _ _ ran
  exact ⟨config, reached, of_decide_eq_true holds⟩

end Tconcurrent.ScopeLock
