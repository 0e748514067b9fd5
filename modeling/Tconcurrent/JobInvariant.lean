import Tconcurrent.Accounts
import Tconcurrent.Job

/-! What every reachable state of a job satisfies.

Each stage of a run is a duty that is due from the moment the stage is set up:
some thread will make its call, its closure waits on a future, or its shared
state is resolved.  The duties tie the heap to the history, and the history to
the fields of the job. -/
namespace Tconcurrent.Job
open Interleaving

abbrev JobAction := Call JobState JobToken JobCall

/-- What `unwrap` connects in `triggerImpl` and in `reschedule`. -/
def link : JobState → Option (JobState × JobState)
  | .chain (k + 1) => some (.chainThen (k + 1), .run (k + 1))
  | .run k => some (.task k, .continuation k)
  | _ => none

def continuation : JobState → JobCall → Prop
  | .chain j, .chainContinuation k => k = j + 1
  | .callback j, .runContinuation k _ => k = j
  | _, _ => False

def internal : JobCall → Prop
  | .chainContinuation _ => False
  | .runContinuation _ _ => False
  | .cancelTask _ => False
  | _ => True

/-- The cancelers of a job are those of the tasks it has posted. -/
def wiring (posted : ℕ → Bool) : Wiring JobState JobToken JobCall where
  link := link
  outer_plain := by
    intro sb outer inner linked
    cases sb with
    | chain k =>
      cases k with
      | zero => cases linked
      | succ k => cases linked; rfl
    | run k => cases linked; rfl
    | chainThen k => cases linked
    | task k => cases linked
    | callback k => cases linked
    | continuation k => cases linked
  continuation := continuation
  canceler call := ∃ k, call = .cancelTask k ∧ posted k = true
  internal := internal

/-! ## Duties -/

/-- The stages of run `k` that somebody has to bring to an end. -/
inductive Duty where
  | registration (k : ℕ)
  | chaining (k : ℕ)
  | chained (k : ℕ)
  | body (k : ℕ)
  | calling (k : ℕ)
  | ran (k : ℕ)
  | producing (k : ℕ)
  | continuing (k : ℕ)
  /-- From the call of `_cb` to the end of what it has captured. -/
  | window (k pendingPromises : ℕ)
  | triggering

namespace Duty

def target : Duty → Option JobState
  | .registration _ => none
  | .chaining k => some (.chainThen k)
  | .chained k => some (.chain k)
  | .body k => some (.task k)
  | .calling _ => none
  | .ran k => some (.run k)
  | .producing k => some (.callback k)
  | .continuing k => some (.continuation k)
  | .window _ _ => none
  | .triggering => none

/-- The closures of the job that a duty consists of. -/
def Counts : Duty → JobCall → Bool
  | .registration k, .chainContinuation j => j = k
  | .chaining k, .endReschedule j => j = k
  | .body k, .runBody j => j = k
  | .body k, .callCallback j _ => j = k
  | .body k, .returnCallback j _ => j = k
  | .body k, .catchCallback j _ _ => j = k
  | .calling k, .returnCallback j _ => j = k
  | .continuing k, .runContinuation j _ => j = k
  | .continuing k, .setPromises j _ _ => j = k
  | .window k n, .callCallback j m => j = k && m = n
  | .window k n, .returnCallback j m => j = k && m = n
  | .window k n, .catchCallback j m _ => j = k && m = n
  | .window k n, .runContinuation j m => j = k && m = n
  | .window k n, .setPromises j m _ => j = k && m = n
  | .triggering, .trigger _ => true
  | .triggering, .assignFuture _ _ => true
  | .triggering, .returnFuture _ => true
  | _, _ => false

def homes : Duty → Finset JobState
  | .registration k => {.chain (k - 1)}
  | .chained k => {.chainThen k, .run k}
  | .ran k => {.task k, .continuation k}
  | .continuing k => {.callback k}
  | .window k _ => {.callback k}
  | _ => ∅

def account (duty : Duty) : Account JobState JobCall where
  target := duty.target
  own call := (duty.Counts call).toNat
  homes := duty.homes

/-- Whether a duty is due. -/
def due (s : State) : Duty → ℕ
  | .registration k => (decide (1 ≤ k ∧ k ≤ s.count) && !s.continued k).toNat
  | .chaining k => (s.continued k).toNat
  | .chained k => (decide (k ≤ s.count)).toNat
  | .body k => (s.taskDone k || s.dropped k).toNat
  | .calling k => (s.invoked k && !s.returned k).toNat
  | .ran k => (s.posted k).toNat
  | .producing k => (s.produced k).toNat
  | .continuing k => (s.created k).toNat
  | .window k n => (decide (k = s.begun ∧ s.captured = some n)).toNat
  | .triggering => s.triggering

theorem closed (posted : ℕ → Bool) (duty : Duty) : duty.account.Closed (wiring posted) := by
  refine ⟨?_, ?_, ?_⟩
  · intro p call registered counted
    cases p with
    | chain j =>
      cases call with
      | chainContinuation k =>
        obtain rfl : k = j + 1 := registered
        cases duty <;> simp_all [account, Counts, homes]
        omega
      | _ => exact registered.elim
    | callback j =>
      cases call with
      | runContinuation k n =>
        obtain rfl : k = j := registered
        cases duty <;> simp_all [account, Counts, homes]
      | _ => exact registered.elim
    | _ => exact registered.elim
  · intro sb outer inner target linked
    cases sb with
    | chain k =>
      cases k with
      | zero => cases linked
      | succ k =>
        cases linked
        cases duty <;> simp_all [account, Duty.target, homes]
    | run k =>
      cases linked
      cases duty <;> simp_all [account, Duty.target, homes]
    | _ => cases linked
  · rintro call ⟨k, rfl, -⟩
    cases duty <;> rfl

end Duty

/-! ## The invariant -/

/-- The heap and the pending calls respect the wiring of the job. -/
structure Wired (s : State) (pending : Multiset JobAction) : Prop where
  heap : SoundHeap (wiring s.posted) s.heap
  calls : ∀ call ∈ pending, Sound (wiring s.posted) s.heap call

/-- How the history and the fields of the job hang together. -/
structure Ordered (s : State) : Prop where
  continued_requested : ∀ k, s.continued k = true → 1 ≤ k ∧ k ≤ s.count
  posted_continued : ∀ k, s.posted k = true → s.continued k = true
  taken_posted : ∀ k, s.taskDone k = true ∨ s.dropped k = true → s.posted k = true
  created_taken : ∀ k, s.created k = true → s.taskDone k = true
  produced_created : ∀ k, s.produced k = true → s.created k = true
  next : s.begun + s.scheduled.toNat = s.count
  begun_taken : ∀ k, 1 ≤ k → k ≤ s.begun → s.taskDone k = true
  future : s.future = .chain s.count
  chained : ∀ k, s.continued k = true → s.heap.Ready (.chain (k - 1))
  invoked_begun : ∀ k, s.invoked k = true → k ≤ s.begun
  returned_invoked : ∀ k, s.returned k = true → s.invoked k = true
  resolved : ∀ k, s.heap.Ready (.continuation k) → s.heap.Ready (.callback k)
  running : s.running = true → s.captured ≠ none
  assertions : s.assertFailed = false
  dying : s.stopping = true → s.destroying = true
  quiescent : s.destroying = true → s.triggering = 0
  destroyed : s.destroyed = true → s.destroying = true ∧ s.heap.Ready (.chain s.count)

/-- A posted task is in the queue, was taken from it, or was destroyed. -/
structure Queued (s : State) (pending : Multiset JobAction) : Prop where
  once : ∀ k, s.queue.count k + pending.count (.client (.packagedTask k)) +
    (s.dropped k).toNat ≤ (s.posted k).toNat
  somewhere : ∀ k, s.posted k = true → s.taskDone k = false → s.dropped k = false →
    k ∈ s.queue ∨ .client (.packagedTask k) ∈ pending

/-- How a stage that failed shows in the history. -/
structure Failed (s : State) (pending : Multiset JobAction) : Prop where
  gaveUp : ∀ k e, Outcome s.heap pending (.chainThen k) (.exception e) →
    s.stopping = true ∧ s.posted k = false
  neverRan : ∀ k e, Outcome s.heap pending (.task k) (.exception e) → s.created k = false

/-- What holds when a call is about to be made. -/
def Expected (s : State) : JobAction → Prop
  | .client (.runBody k) => (s.taskDone k = true ∧ s.created k = false) ∧ s.begun < k
  | .client (.callCallback k _) =>
    (s.taskDone k = true ∧ s.created k = false) ∧ s.invoked k = false
  | .client (.returnCallback k _) => s.taskDone k = true ∧ s.created k = false
  | .client (.catchCallback k _ _) => s.taskDone k = true ∧ s.created k = false
  | .client (.setPromises k _ _) => s.running = false ∧ s.heap.Ready (.callback k)
  | .finish (.continuation k) _ => s.heap.Ready (.callback k)
  | .client .destroy => s.destroying = true
  | .client (.waitDestroyed p) => s.destroying = true ∧ p = .chain s.count
  | _ => True

structure Sane (s : State) (pending : Multiset JobAction) : Prop where
  wired : Wired s pending
  accounts : ∀ duty : Duty, duty.account.balance s.heap pending = duty.due s
  ordered : Ordered s
  queued : Queued s pending
  failed : Failed s pending
  expected : ∀ call ∈ pending, Expected s call

variable {s : State} {pending others : Multiset JobAction} {call : JobAction}

/-- What can wait on which state. -/
def Waits (heap : JobHeap) (f : JobAction) : JobState → Prop
  | .chain k => f = .client (.chainContinuation (k + 1))
  | .callback k => ∃ n, f = .client (.runContinuation k n)
  | .chainThen k => f = .unwrapOuter (.chainThen k) (.chain k)
  | .task k => f = .unwrapOuter (.task k) (.run k)
  | .run k => ∃ token, f = .unwrapInner (.run k) (.chain k) token ∧ heap.Ready (.chainThen k)
  | .continuation k =>
    ∃ token, f = .unwrapInner (.continuation k) (.run k) token ∧ heap.Ready (.task k)

theorem waits_of_registered {posted : ℕ → Bool} {heap : JobHeap} {p : JobState} {f : JobAction}
    (registered : Registered (wiring posted) heap p f) : Waits heap f p := by
  cases f with
  | client c =>
    cases p with
    | chain j =>
      cases c with
      | chainContinuation k =>
        obtain rfl : k = j + 1 := registered
        rfl
      | _ => exact registered.elim
    | callback k =>
      cases c with
      | runContinuation j n =>
        obtain rfl : j = k := registered
        exact ⟨n, rfl⟩
      | _ => exact registered.elim
    | _ => exact registered.elim
  | unwrapOuter fut1 sb =>
    obtain ⟨rfl, inner, linked⟩ := registered
    cases sb with
    | chain j => cases j <;> cases linked; rfl
    | run k => cases linked; rfl
    | _ => cases linked
  | unwrapInner fut2 sb token =>
    obtain ⟨rfl, outer, linked, ready⟩ := registered
    cases sb with
    | chain j => cases j <;> cases linked; exact ⟨token, rfl, ready⟩
    | run k => cases linked; exact ⟨token, rfl, ready⟩
    | _ => cases linked
  | _ => exact registered.elim

/-- Any state of a run is the matter of one duty. -/
def dutyOf : JobState → Duty
  | .chainThen k => .chaining k
  | .chain k => .chained k
  | .task k => .body k
  | .run k => .ran k
  | .callback k => .producing k
  | .continuation k => .continuing k

theorem target_dutyOf (p : JobState) : (dutyOf p).account.target = some p := by
  cases p <;> rfl

theorem due_dutyOf (s : State) (p : JobState) : (dutyOf p).due s ≤ 1 := by
  cases p <;> exact Bool.toNat_le _

/-- A state is resolved once. -/
theorem Sane.unresolved (sane : Sane s pending) {p : JobState} {r : JobResult}
    (member : .finish p r ∈ pending) : ¬ s.heap.Ready p := by
  have single := (sane.accounts (dutyOf p)).trans_le (due_dutyOf s p)
  refine Account.unready_of_pending single (target_dutyOf p) member ?_
  simp [Account.owes, target_dutyOf]

theorem owes_user (duty : Duty) : duty.account.owes (.client .user : JobAction) = 0 := by
  cases duty <;> rfl

/-- User code may be called anywhere. -/
theorem Sane.user (sane : Sane s pending) : Sane s (.client .user ::ₘ pending) where
  wired := ⟨sane.wired.heap, fun call member => by
    rcases Multiset.mem_cons.mp member with rfl | old
    · exact Or.inl trivial
    · exact sane.wired.calls call old⟩
  accounts duty := by
    rw [← sane.accounts duty]
    simp [Account.balance, owes_user]
  ordered := sane.ordered
  queued := by
    refine ⟨fun k => ?_, fun k posted taken dropped => ?_⟩
    · rw [Multiset.count_cons_of_ne (by simp)]
      exact sane.queued.once k
    · exact (sane.queued.somewhere k posted taken dropped).imp id Multiset.mem_cons_of_mem
  failed := by
    refine ⟨fun k e outcome => sane.failed.gaveUp k e ?_, fun k e outcome => sane.failed.neverRan k e ?_⟩
    · simpa [Outcome] using outcome
    · simpa [Outcome] using outcome
  expected call member := by
    rcases Multiset.mem_cons.mp member with rfl | old
    · trivial
    · exact sane.expected call old

theorem Expected.mono {s' : State} (taken : ∀ k, s.taskDone k = true → s'.taskDone k = true)
    (ready : ∀ p, s.heap.Ready p → s'.heap.Ready p)
    (begun : s'.begun = s.begun) (created : s'.created = s.created)
    (invoked : ∀ k, s.invoked k = false → s'.invoked k = false)
    (running : s.running = false → s'.running = false)
    (destroying : s.destroying = true → s'.destroying = true) (count : s'.count = s.count)
    (expected : Expected s call) : Expected s' call := by
  have body : ∀ k, s.taskDone k = true ∧ s.created k = false →
      s'.taskDone k = true ∧ s'.created k = false := fun k => And.imp (taken k) (created ▸ id)
  cases call with
  | client c =>
    cases c with
    | runBody k => exact ⟨body k expected.1, begun ▸ expected.2⟩
    | callCallback k n => exact ⟨body k expected.1, invoked k expected.2⟩
    | returnCallback k n => exact body k expected
    | catchCallback k n e => exact body k expected
    | setPromises k n i => exact ⟨running expected.1, ready _ expected.2⟩
    | destroy => exact destroying expected
    | waitDestroyed p => exact ⟨destroying expected.1, count ▸ expected.2⟩
    | _ => trivial
  | finish p r =>
    cases p with
    | continuation k => exact ready _ expected
    | _ => trivial
  | _ => trivial

/-- Nothing changes that calls rely on. -/
theorem Expected.frame {s' : State} (taken : s'.taskDone = s.taskDone) (heap : s'.heap = s.heap)
    (begun : s'.begun = s.begun) (created : s'.created = s.created)
    (invoked : s'.invoked = s.invoked) (running : s'.running = s.running)
    (destroying : s'.destroying = s.destroying) (count : s'.count = s.count) :
    ∀ call ∈ others, Expected s call → Expected s' call := fun _ _ =>
  Expected.mono (fun _ done => taken ▸ done) (fun _ ready => heap ▸ ready) begun created
    (fun _ before => invoked ▸ before) (fun idle => running ▸ idle)
    (fun started => destroying ▸ started) count

/-- **The library's own steps.** -/
theorem Sane.library (sane : Sane s (call ::ₘ others)) (library : ∀ k, call ≠ .client k) :
    Sane { s with heap := (s.heap.exec call).1 } (↑(s.heap.exec call).2 + others) := by
  have respects := sane.wired.calls call (Multiset.mem_cons_self _ _)
  have once : ∀ p r, call = .finish p r → ¬ s.heap.Ready p := by
    rintro p r rfl
    exact sane.unresolved (Multiset.mem_cons_self _ _)
  have keeps := Heap.keeps_exec once
  have kept := exec_sound sane.wired.heap respects once
  have clients : ∀ c, .client c ∈ (s.heap.exec call).2 →
      (∃ k, c = .chainContinuation k) ∨ (∃ k n, c = .runContinuation k n) ∨ ∃ k, c = .cancelTask k := by
    intro c member
    rcases exec_clients sane.wired.heap respects member with ⟨k, rfl, -⟩ | ⟨p, registered⟩
    · exact Or.inr (Or.inr ⟨k, rfl⟩)
    · cases c <;> cases p <;> first | exact registered.elim | simp
  have count : ∀ k, (↑(s.heap.exec call).2 + others).count (.client (.packagedTask k)) =
      (call ::ₘ others).count (.client (.packagedTask k)) := by
    intro k
    have absent : .client (.packagedTask k) ∉ (↑(s.heap.exec call).2 : Multiset JobAction) := by
      intro member
      rcases clients _ (Multiset.mem_coe.mp member) with ⟨j, same⟩ | ⟨j, n, same⟩ | ⟨j, same⟩ <;> cases same
    rw [Multiset.count_add, Multiset.count_eq_zero.mpr absent,
      Multiset.count_cons_of_ne (library _).symm, zero_add]
  refine ⟨⟨kept.1, ?_⟩, ?_, ?_, ⟨?_, ?_⟩, ⟨?_, ?_⟩, ?_⟩
  · intro call' member
    rcases Multiset.mem_add.mp member with made | other
    · exact kept.2 call' (Multiset.mem_coe.mp made)
    · exact (sane.wired.calls call' (Multiset.mem_cons_of_mem other)).keeps keeps
  · intro duty
    rw [Account.exec_balance (duty.closed _) sane.wired.heap respects once library]
    exact sane.accounts duty
  · exact { sane.ordered with
      chained := fun k continued => keeps.ready (sane.ordered.chained k continued)
      resolved := by
        intro k ready
        obtain ⟨r, result⟩ := Option.ne_none_iff_exists'.mp ready
        rcases exec_result result with rfl | before
        · exact keeps.ready (sane.expected _ (Multiset.mem_cons_self _ _))
        · exact keeps.ready (sane.ordered.resolved k (Heap.ready_of_result before))
      destroyed := fun done => (sane.ordered.destroyed done).imp id keeps.ready }
  · intro k
    rw [count]
    exact sane.queued.once k
  · intro k posted taken dropped
    refine (sane.queued.somewhere k posted taken dropped).imp id fun member => ?_
    rw [← Multiset.count_pos, count]
    exact Multiset.count_pos.mpr member
  · exact fun k e outcome =>
      sane.failed.gaveUp k e (exec_outcome sane.wired.heap respects rfl outcome)
  · exact fun k e outcome =>
      sane.failed.neverRan k e (exec_outcome sane.wired.heap respects rfl outcome)
  · intro call' member
    rcases Multiset.mem_add.mp member with made | other
    · cases call' with
      | client c =>
        rcases clients c (Multiset.mem_coe.mp made) with ⟨k, rfl⟩ | ⟨k, n, rfl⟩ | ⟨k, rfl⟩ <;> trivial
      | finish p r =>
        have linked := exec_finishes sane.wired.heap respects (Multiset.mem_coe.mp made)
        cases p with
        | continuation k => exact absurd rfl linked
        | _ => trivial
      | _ => trivial
    · have expected := sane.expected call' (Multiset.mem_cons_of_mem other)
      exact Expected.mono (s := s) (fun _ => id) (fun _ => keeps.ready) rfl rfl (fun _ => id) id id
        rfl expected

/-! ## Consequences -/

/-- The duty of what may wait on a state. -/
def waiterDuty : JobState → Duty
  | .chainThen k => .chained k
  | .chain k => .registration (k + 1)
  | .task k => .ran k
  | .run k => .chained k
  | .callback k => .continuing k
  | .continuation k => .ran k

theorem owes_of_waits {heap : JobHeap} {f : JobAction} {p : JobState} {duty : Duty}
    (waits : Waits heap f p) (owed : 0 < duty.account.owes f) :
    duty = waiterDuty p ∨ ∃ k n, p = .callback k ∧ duty = .window k n := by
  cases p with
  | chain k =>
    obtain rfl := waits
    cases duty <;> simp_all [Account.owes, Duty.account, Duty.Counts, waiterDuty]
  | callback k =>
    obtain ⟨n, rfl⟩ := waits
    cases duty <;> simp_all [Account.owes, Duty.account, Duty.Counts, waiterDuty]
  | chainThen k =>
    obtain rfl := waits
    cases duty <;> simp_all [Account.owes, Duty.account, Duty.target, waiterDuty]
  | task k =>
    obtain rfl := waits
    cases duty <;> simp_all [Account.owes, Duty.account, Duty.target, waiterDuty]
  | run k =>
    obtain ⟨token, rfl, -⟩ := waits
    cases duty <;> simp_all [Account.owes, Duty.account, Duty.target, waiterDuty]
  | continuation k =>
    obtain ⟨token, rfl, -⟩ := waits
    cases duty <;> simp_all [Account.owes, Duty.account, Duty.target, waiterDuty]

theorem Sane.due_of_waiting (sane : Sane s pending) {p : JobState} {f : JobAction}
    (member : f ∈ (s.heap.states p).thens) : 0 < (waiterDuty p).due s := by
  have waits := waits_of_registered (sane.wired.heap.registered p f member)
  have counted := Account.owes_le_waiting (waiterDuty p).account member
  have home : p ∈ (waiterDuty p).account.homes := by
    cases p <;> simp [waiterDuty, Duty.account, Duty.homes]
  have total := (Account.waiting_le_balance _ s.heap pending home).trans_eq
    (sane.accounts _)
  have owed : (waiterDuty p).account.owes f = 1 := by
    cases p with
    | chain k =>
      obtain rfl := waits
      simp [waiterDuty, Account.owes, Duty.account, Duty.Counts]
    | callback k =>
      obtain ⟨n, rfl⟩ := waits
      simp [waiterDuty, Account.owes, Duty.account, Duty.Counts]
    | chainThen k =>
      obtain rfl := waits
      simp [waiterDuty, Account.owes, Duty.account, Duty.target]
    | task k =>
      obtain rfl := waits
      simp [waiterDuty, Account.owes, Duty.account, Duty.target]
    | run k =>
      obtain ⟨token, rfl, -⟩ := waits
      simp [waiterDuty, Account.owes, Duty.account, Duty.target]
    | continuation k =>
      obtain ⟨token, rfl, -⟩ := waits
      simp [waiterDuty, Account.owes, Duty.account, Duty.target]
  omega

section
variable (sane : Sane s pending) {k n : ℕ}
include sane

theorem Sane.due_of_pending (duty : Duty) (member : call ∈ pending)
    (owed : 0 < duty.account.owes call) : 0 < duty.due s := by
  rw [← sane.accounts duty]
  exact owed.trans_le (Account.owes_le_balance member)

theorem Sane.due_of_ready {p : JobState} (ready : s.heap.Ready p) : 0 < (dutyOf p).due s := by
  rw [← sane.accounts (dutyOf p)]
  exact Account.ready_le_balance (target_dutyOf p) ready

/-- Nothing is owed any more to a state that is resolved. -/
theorem Sane.nothing_owed {p : JobState} (ready : s.heap.Ready p) (member : call ∈ pending) :
    (dutyOf p).account.owes call = 0 :=
  Account.owes_eq_zero ((sane.accounts _).trans_le (due_dutyOf s p)) (target_dutyOf p) ready member

theorem Sane.taken_requested (taken : s.taskDone k = true ∨ s.dropped k = true) :
    s.posted k = true ∧ s.continued k = true ∧ 1 ≤ k ∧ k ≤ s.count := by
  have posted := sane.ordered.taken_posted k taken
  have continued := sane.ordered.posted_continued k posted
  exact ⟨posted, continued, sane.ordered.continued_requested k continued⟩

/-- The future of a posted run is ready only after its task, and its callback's
future too if there is one. -/
theorem Sane.chain_ready (posted : s.posted k = true) (ready : s.heap.Ready (.chain k)) :
    s.heap.Ready (.task k) ∧ (s.created k = true → s.heap.Ready (.continuation k)) := by
  have requested := sane.ordered.continued_requested k (sane.ordered.posted_continued k posted)
  obtain ⟨j, rfl⟩ : ∃ j, k = j + 1 := ⟨k - 1, by omega⟩
  obtain ⟨r, result⟩ := Option.ne_none_iff_exists'.mp ready
  obtain ⟨-, ⟨e, failed⟩ | ran⟩ := (sane.wired.heap.resolved _ r result).1 _ _ rfl
  · have gaveUp := (sane.failed.gaveUp _ e (Or.inr failed)).2
    simp [gaveUp] at posted
  · obtain ⟨r, result⟩ := Option.ne_none_iff_exists'.mp ran
    obtain ⟨task, inside⟩ := (sane.wired.heap.resolved _ r result).1 _ _ rfl
    refine ⟨task, fun created => inside.resolve_left ?_⟩
    rintro ⟨e, failed⟩
    have never := sane.failed.neverRan _ e (Or.inr failed)
    simp [never] at created

end

/-- What belongs to the window of a run is its body or its continuation. -/
theorem owes_window (k n : ℕ) (call : JobAction) :
    (Duty.window k n).account.owes call ≤
      (Duty.body k).account.owes call + (Duty.continuing k).account.owes call := by
  have both : ∀ a b : Bool, (a && b).toNat ≤ a.toNat := by decide
  induction call with
  | thenRun p f ih => exact ih
  | client c => cases c <;> simp [Account.owes, Duty.account, Duty.Counts, both]
  | _ => exact Nat.zero_le _

/-- While a run is in its window, its future is not ready. -/
theorem Sane.window_open (sane : Sane s pending) {k n : ℕ} (open_ : 0 < (Duty.window k n).due s) :
    s.posted k = true ∧ ¬ s.heap.Ready (.chain k) := by
  rw [← sane.accounts] at open_
  rcases Account.exists_of_balance_pos open_ with
    ⟨call, member, owed⟩ | ⟨p, home, f, member, owed⟩ | ⟨p, target, -⟩
  · have either := owes_window k n call
    by_cases body : 0 < (Duty.body k).account.owes call
    · have due := sane.due_of_pending _ member body
      have taken : s.taskDone k = true ∨ s.dropped k = true := by
        simpa [Duty.due] using due
      have posted := (sane.taken_requested taken).1
      refine ⟨posted, fun ready => ?_⟩
      have none := sane.nothing_owed (sane.chain_ready posted ready).1 member
      exact body.ne' none
    · have owed : 0 < (Duty.continuing k).account.owes call := by omega
      have created : s.created k = true := by
        simpa [Duty.due] using sane.due_of_pending _ member owed
      have posted := (sane.taken_requested (Or.inl (sane.ordered.created_taken k created))).1
      refine ⟨posted, fun ready => ?_⟩
      have none := sane.nothing_owed ((sane.chain_ready posted ready).2 created) member
      exact owed.ne' none
  · obtain rfl : p = .callback k := by simpa [Duty.account, Duty.homes] using home
    obtain ⟨m, rfl⟩ := waits_of_registered (sane.wired.heap.registered _ f member)
    have single := (sane.accounts (.continuing k)).trans_le (Bool.toNat_le _)
    have counted := (Account.waiting_le_balance (Duty.continuing k).account s.heap _
      (Finset.mem_singleton_self _)).trans_eq (sane.accounts (.continuing k))
    have counts : (Duty.continuing k).account.owes (.client (.runContinuation k m) : JobAction) = 1 := by
      simp [Account.owes, Duty.account, Duty.Counts]
    have created : s.created k = true := by
      have waits := Account.owes_le_waiting (Duty.continuing k).account member
      refine toNat_pos.mp (show 0 < (Duty.continuing k).due s from ?_)
      omega
    have posted := (sane.taken_requested (Or.inl (sane.ordered.created_taken k created))).1
    refine ⟨posted, fun ready => ?_⟩
    exact Account.unready_of_waiting single rfl (Finset.mem_singleton_self _) member counts
      ((sane.chain_ready posted ready).2 created)
  · cases target

end Tconcurrent.Job
