import Tconcurrent.Accounts
import Tconcurrent.Semaphore

/-! Every step of a semaphore keeps its invariant.

A request owes its user a result from the moment it has left `pop`, and the
promise of `pop` is owed a permit once it is no longer among the waiters. -/
namespace Tconcurrent.Semaphore
open Interleaving

/-- Only the packaged task of a request waits on what `pop` has returned. -/
def wiring : Wiring SemaphoreState ℕ SemaphoreCall where
  link _ := none
  outer_plain := by simp
  continuation p k := ∃ i, p = .popped i ∧ k = .packagedTask i
  canceler _ := False
  internal k := ∀ i, k ≠ .packagedTask i

/-- What request `i` is owed. -/
inductive Duty where
  | popped (i : ℕ)
  | result (i : ℕ)

namespace Duty

def target : Duty → SemaphoreState
  | .popped i => .popped i
  | .result i => .result i

/-- The calls that end in a result. -/
def Counts : Duty → SemaphoreCall → Bool
  | .result i, .andThen j => j = i
  | .result i, .packagedTask j => j = i
  | _, _ => false

def account (duty : Duty) : Account SemaphoreState SemaphoreCall where
  target := some duty.target
  own call := (duty.Counts call).toNat
  homes := match duty with
    | .popped _ => ∅
    | .result i => {.popped i}

def due (s : State) : Duty → ℕ
  | .popped i => (decide (i < s.next ∧ i ∉ s.waiters)).toNat
  | .result i => (decide (i < s.next)).toNat

theorem due_le_one (duty : Duty) (s : State) : duty.due s ≤ 1 := by
  cases duty <;> exact Bool.toNat_le _

theorem closed (duty : Duty) : duty.account.Closed wiring where
  registered := by
    rintro p k ⟨i, rfl, rfl⟩ counted
    cases duty with
    | popped j => exact absurd rfl counted
    | result j =>
      have same : i = j := by
        by_contra different
        simp [account, Counts, different] at counted
      simp [account, same]
  linked := by simp [wiring]
  cancelers k pushed := pushed.elim

end Duty

def dutyOf : SemaphoreState → Duty
  | .popped i => .popped i
  | .result i => .result i

@[simp] theorem target_dutyOf (p : SemaphoreState) : (dutyOf p).account.target = some p := by
  cases p <;> rfl

theorem sound_finish (heap : SemaphoreHeap) (p : SemaphoreState) (r : Result SemaphoreState ℕ) :
    Sound wiring heap (.finish p r) := by
  constructor
  · intro outer inner linked
    cases linked
  · intro sb inner linked
    cases linked

theorem sound_client (heap : SemaphoreHeap) {k : SemaphoreCall} (own : ∀ i, k ≠ .packagedTask i) :
    Sound wiring heap (.client k) := Or.inl own

/-- How a request may end: with the permit it was given, or cancelled. -/
def Ended (s : State) (i : ℕ) (r : Result SemaphoreState ℕ) : Prop :=
  s.heap.hasValue (.popped i) = true ∧ (r = .exception .operationCanceled ∨
    (∃ v, r = .value v) ∧ (s.kind i = .getScopeLock → i ∈ s.locks ∪ s.destroyed))

/-- What every reachable state of a semaphore with `n` permits satisfies. -/
structure Sane (n : ℕ) (s : State) (pending : Multiset SemaphoreAction) : Prop where
  heap : SoundHeap wiring s.heap
  calls : ∀ call ∈ pending, Sound wiring s.heap call
  accounts : ∀ duty : Duty, duty.account.balance s.heap pending = duty.due s
  drained : s.heap.Drained
  /-- Every permit is in the queue or was handed to a request that waits no more. -/
  permits : n + s.releases + s.destroyed.card + s.waiters.length = s.queue + s.next
  distinct : s.waiters.Nodup
  waiting : ∀ i ∈ s.waiters, i < s.next
  /-- The assertions of `push` and `pop`. -/
  exclusive : s.waiters = [] ∨ s.queue = 0
  granted : ∀ i r, Outcome s.heap pending (.popped i) r → ∃ v, r = .value v
  ended : ∀ i r, Outcome s.heap pending (.result i) r → Ended s i r
  held : ∀ i ∈ s.locks ∪ s.destroyed, i < s.next ∧ s.kind i = .getScopeLock ∧
    ∃ v, Outcome s.heap pending (.result i) (.value v)
  apart : Disjoint s.locks s.destroyed

variable {n : ℕ} {s s' : State} {pending others : Multiset SemaphoreAction}
  {call : SemaphoreAction} {calls : List SemaphoreAction} {c : SemaphoreCall} {i : ℕ}

/-! ## What the balances say -/

/-- A state is resolved once. -/
theorem Sane.unresolved (sane : Sane n s pending) {p : SemaphoreState}
    {r : Result SemaphoreState ℕ} (member : .finish p r ∈ pending) : ¬ s.heap.Ready p :=
  Account.unready_of_finish ((sane.accounts (dutyOf p)).trans_le ((dutyOf p).due_le_one s))
    (target_dutyOf p) member

theorem Sane.due_of_pending (sane : Sane n s pending) (duty : Duty) (member : call ∈ pending)
    (owed : 0 < duty.account.owes call) : 0 < duty.due s := by
  rw [← sane.accounts duty]
  exact owed.trans_le (Account.owes_le_balance member)

theorem Sane.due_of_ready (sane : Sane n s pending) {p : SemaphoreState}
    (ready : s.heap.Ready p) : 0 < (dutyOf p).due s := by
  rw [← sane.accounts (dutyOf p)]
  exact Account.ready_le_balance (target_dutyOf p) ready

/-- A request has no result as long as somebody still has to make it. -/
theorem Sane.no_outcome (sane : Sane n s (.client c ::ₘ others))
    (counts : (Duty.result i).Counts c = true) (r : Result SemaphoreState ℕ) :
    ¬ Outcome s.heap (.client c ::ₘ others) (.result i) r := by
  apply Account.no_outcome ((sane.accounts (.result i)).trans_le ((Duty.result i).due_le_one s))
  · rfl
  · simp [Account.owes, Duty.account, counts]
  · simp

theorem waits_of_registered {p : SemaphoreState} {f : SemaphoreAction}
    (registered : Registered wiring s.heap p f) :
    ∃ i, p = .popped i ∧ f = .client (.packagedTask i) := by
  cases f with
  | client k =>
    obtain ⟨i, rfl, rfl⟩ := registered
    exact ⟨i, rfl, rfl⟩
  | unwrapOuter fut1 sb =>
    obtain ⟨-, inner, linked⟩ := registered
    cases linked
  | unwrapInner fut2 sb token =>
    obtain ⟨-, outer, linked, -⟩ := registered
    cases linked
  | _ => exact registered.elim

/-- Nothing waits on a state that is not set up yet. -/
theorem Sane.blank (sane : Sane n s pending) (p : SemaphoreState)
    (fresh : ∀ i, p = .popped i → s.next ≤ i) : (s.heap.states p).thens = [] := by
  apply List.eq_nil_iff_forall_not_mem.mpr
  intro f member
  obtain ⟨i, rfl, rfl⟩ := waits_of_registered (sane.heap.registered p f member)
  have counted := Account.owes_le_waiting (Duty.result i).account member
  have listed := Account.waiting_le_balance (Duty.result i).account s.heap pending
    (p := .popped i) (by simp [Duty.account])
  have owed : (Duty.result i).account.owes (.client (.packagedTask i) : SemaphoreAction) = 1 := by
    simp [Account.owes, Duty.account, Duty.Counts]
  have none : (Duty.result i).due s = 0 := by simp [Duty.due, fresh i rfl]
  rw [sane.accounts (.result i)] at listed
  omega

/-! ## Steps -/

theorem owes_user (duty : Duty) : duty.account.owes (.client .user : SemaphoreAction) = 0 := by
  cases duty <;> rfl

/-- User code may be called anywhere. -/
theorem Sane.user (sane : Sane n s pending) : Sane n s (.client .user ::ₘ pending) where
  heap := sane.heap
  calls := by
    intro call member
    rcases Multiset.mem_cons.mp member with rfl | old
    · exact sound_client _ (by simp)
    · exact sane.calls call old
  accounts duty := by
    rw [← sane.accounts duty]
    simp [Account.balance, owes_user]
  drained := sane.drained
  permits := sane.permits
  distinct := sane.distinct
  waiting := sane.waiting
  exclusive := sane.exclusive
  granted i r outcome := sane.granted i r (by simpa [Outcome] using outcome)
  ended i r outcome := sane.ended i r (by simpa [Outcome] using outcome)
  held i lock := by simpa [Outcome] using sane.held i lock
  apart := sane.apart

theorem hasValue_keeps {heap heap' : SemaphoreHeap} (keeps : heap.Keeps heap')
    {p : SemaphoreState} (value : heap.hasValue p = true) : heap'.hasValue p = true := by
  unfold Heap.hasValue at value ⊢
  split at value
  · rename_i v result
    rw [keeps _ _ result]
  · cases value

/-- **The library's own steps.** -/
theorem Sane.library (sane : Sane n s (call ::ₘ others)) (library : ∀ k, call ≠ .client k) :
    Sane n { s with heap := (s.heap.exec call).1 } (↑(s.heap.exec call).2 + others) := by
  have respects := sane.calls call (Multiset.mem_cons_self _ _)
  have once : ∀ p r, call = .finish p r → ¬ s.heap.Ready p := by
    rintro p r rfl
    exact sane.unresolved (Multiset.mem_cons_self _ _)
  have keeps := Heap.keeps_exec once
  have kept := exec_sound sane.heap respects once
  exact {
    heap := kept.1
    calls := mem_after kept.2 fun call' other =>
      (sane.calls call' (Multiset.mem_cons_of_mem other)).keeps keeps
    accounts := fun duty => by
      rw [Account.exec_balance duty.closed sane.heap respects once library]
      exact sane.accounts duty
    drained := sane.drained.exec
    permits := sane.permits
    distinct := sane.distinct
    waiting := sane.waiting
    exclusive := sane.exclusive
    granted := fun i r outcome => sane.granted i r (exec_outcome sane.heap respects rfl outcome)
    ended := fun i r outcome => by
      have ended := sane.ended i r (exec_outcome sane.heap respects rfl outcome)
      exact ⟨hasValue_keeps keeps ended.1, ended.2⟩
    held := fun i lock => by
      obtain ⟨bound, kind, v, outcome⟩ := sane.held i lock
      exact ⟨bound, kind, v, outcome.exec once⟩
    apart := sane.apart }

/-- What a step of the program that leaves the heap alone does to the balances. -/
theorem Sane.accounts_after (sane : Sane n s (.client c ::ₘ others))
    (due : ∀ duty : Duty, duty.due s' + (duty.Counts c).toNat =
      duty.due s + weight duty.account.owes (calls : Multiset SemaphoreAction)) (duty : Duty) :
    duty.account.balance s.heap (↑calls + others) = duty.due s' := by
  have moved : duty.account.balance s.heap (↑calls + others) + _ = _ :=
    Account.balance_client duty.account c calls others (fun _ => rfl) (fun _ => rfl)
  rw [sane.accounts duty] at moved
  have paid := due duty
  simp only [Duty.account] at moved paid ⊢
  omega

/-- A state is set up. -/
theorem Sane.accounts_setState (sane : Sane n s (.client c ::ₘ others)) {p : SemaphoreState}
    {state : SharedBase SemaphoreState ℕ SemaphoreCall} (unready : ¬ s.heap.Ready p)
    (blank : (s.heap.states p).thens = []) (empty : state.thens = [])
    (due : ∀ duty : Duty, duty.due s' + (duty.Counts c).toNat =
      duty.due s + weight duty.account.owes (calls : Multiset SemaphoreAction) +
        if duty.target = p then state.r.isSome.toNat else 0) (duty : Duty) :
    duty.account.balance (s.heap.setState p state) (↑calls + others) = duty.due s' := by
  have moved : duty.account.balance s.heap (↑calls + others) + _ = _ :=
    Account.balance_client duty.account c calls others (fun _ => rfl) (fun _ => rfl)
  rw [sane.accounts duty] at moved
  have paid := due duty
  rw [Account.balance_setState (Heap.not_ready.mp unready) blank empty]
  simp only [Duty.account, Option.some.injEq] at moved paid ⊢
  omega

/-- A step that changes neither the heap nor what is counted. -/
theorem Sane.frame (sane : Sane n s (.client c ::ₘ others)) (locked : Bool) (futures : List ℕ)
    (sound : ∀ call ∈ calls, Sound wiring s.heap call)
    (owes : ∀ duty : Duty,
      weight duty.account.owes (calls : Multiset SemaphoreAction) = (duty.Counts c).toNat)
    (quiet : ∀ p r, Call.finish p r ∉ calls) : Sane n { s with locked, futures } (↑calls + others) where
  heap := sane.heap
  calls := mem_after sound fun call other => sane.calls call (Multiset.mem_cons_of_mem other)
  accounts := sane.accounts_after fun duty => by rw [owes duty]; rfl
  drained := sane.drained
  permits := sane.permits
  distinct := sane.distinct
  waiting := sane.waiting
  exclusive := sane.exclusive
  granted i r outcome :=
    sane.granted i r ((outcome_after _ rfl outcome).resolve_left (quiet _ _))
  ended i r outcome := sane.ended i r ((outcome_after _ rfl outcome).resolve_left (quiet _ _))
  held i lock := by
    obtain ⟨bound, kind, v, outcome⟩ := sane.held i lock
    exact ⟨bound, kind, v, (outcome.after .refl).resolve_left (by simp)⟩
  apart := sane.apart

/-- A permit is given back, by `release` or by the destructor of a lock. -/
theorem push_step (releases : ℕ) (locks destroyed : Finset ℕ)
    (sane : Sane n s (.client .user ::ₘ others)) (pushed : push s = some (s', calls))
    (more : releases + destroyed.card = s.releases + s.destroyed.card + 1)
    (same : locks ∪ destroyed = s.locks ∪ s.destroyed) (apart : Disjoint locks destroyed) :
    Sane n { s' with releases, locks, destroyed }
      (↑(calls ++ [.client .user] : List SemaphoreAction) + others) := by
  have permits := sane.permits
  have held : ∀ calls : List SemaphoreAction, ∀ i ∈ locks ∪ destroyed,
      i < s.next ∧ s.kind i = .getScopeLock ∧
        ∃ v, Outcome s.heap (↑calls + others) (.result i) (.value v) := by
    intro calls i lock
    rw [same] at lock
    obtain ⟨bound, kind, v, outcome⟩ := sane.held i lock
    exact ⟨bound, kind, v, (outcome.after .refl).resolve_left (by simp)⟩
  have ended : ∀ calls : List SemaphoreAction, (∀ i r, Call.finish (.result i) r ∉ calls) →
      ∀ i r, Outcome s.heap (↑calls + others) (.result i) r →
        s.heap.hasValue (.popped i) = true ∧ (r = .exception .operationCanceled ∨
          (∃ v, r = .value v) ∧ (s.kind i = .getScopeLock → i ∈ locks ∪ destroyed)) := by
    intro calls quiet i r outcome
    rw [same]
    exact sane.ended i r ((outcome_after (.client .user) rfl outcome).resolve_left (quiet _ _))
  unfold push at pushed
  split at pushed
  · cases pushed
  split at pushed
  · rename_i i waiters waits
    cases pushed
    have distinct := sane.distinct
    rw [waits, List.nodup_cons] at distinct
    have bound := sane.waiting i (by simp [waits])
    exact {
      heap := sane.heap
      calls := by
        apply mem_after
        · simp only [List.cons_append, List.nil_append, List.mem_cons, List.not_mem_nil, or_false]
          rintro call (rfl | rfl | rfl)
          · exact sound_finish _ _ _
          · exact sound_client _ (by simp)
          · exact sound_client _ (by simp)
        · exact fun call other => sane.calls call (Multiset.mem_cons_of_mem other)
      accounts := by
        apply sane.accounts_after
        intro duty
        cases duty with
        | popped j =>
          by_cases current : j = i
          · subst current
            simp [Duty.due, Duty.Counts, Account.owes, Duty.account, Duty.target, bound, waits,
              distinct.1]
          · simp [Duty.due, Duty.Counts, Account.owes, Duty.account, Duty.target, waits, current]
        | result j => simp [Duty.due, Duty.Counts, Account.owes, Duty.account, Duty.target]
      drained := sane.drained
      permits := by
        rw [waits, List.length_cons] at permits
        change n + releases + destroyed.card + waiters.length = s.queue + s.next
        omega
      distinct := distinct.2
      waiting := fun j member => sane.waiting j (by simp [waits, show j ∈ waiters from member])
      exclusive := Or.inr (sane.exclusive.resolve_left (by simp [waits]))
      granted := fun j r outcome => by
        rcases outcome_after _ rfl outcome with made | before
        · obtain ⟨rfl, rfl⟩ : j = i ∧ r = .value (.plain 0) := by simpa using made
          exact ⟨_, rfl⟩
        · exact sane.granted j r before
      ended := ended _ (by simp)
      held := held _
      apart := apart }
  · rename_i waits
    cases pushed
    exact {
      heap := sane.heap
      calls := by
        apply mem_after
        · simp only [List.nil_append, List.mem_singleton]
          rintro call rfl
          exact sound_client _ (by simp)
        · exact fun call other => sane.calls call (Multiset.mem_cons_of_mem other)
      accounts := by
        apply sane.accounts_after
        intro duty
        cases duty <;> simp [Duty.due, Duty.Counts, Account.owes, Duty.account]
      drained := sane.drained
      permits := by
        change n + releases + destroyed.card + s.waiters.length = s.queue + 1 + s.next
        omega
      distinct := sane.distinct
      waiting := sane.waiting
      exclusive := Or.inl waits
      granted := fun j r outcome =>
        sane.granted j r ((outcome_after _ rfl outcome).resolve_left (by simp))
      ended := ended _ (by simp)
      held := held _
      apart := apart }

/-- A result belongs to a request. -/
theorem Sane.requested (sane : Sane n s pending) {p : SemaphoreState}
    {r : Result SemaphoreState ℕ} (outcome : Outcome s.heap pending p r) :
    0 < (dutyOf p).due s := by
  rw [← sane.accounts (dutyOf p)]
  exact Account.balance_pos_of_outcome (target_dutyOf p) outcome

/-- The state of a `pop` is set up, and asked for by `and_then`. -/
theorem Sane.popped {kind : Kind} (sane : Sane n s (.client (.pop kind) ::ₘ others))
    (state : SharedBase SemaphoreState ℕ SemaphoreCall) (waiters : List ℕ) (queue : ℕ)
    (empty : state.thens = []) (values : ∀ r, state.r = some r → ∃ v, r = .value v)
    (total : n + s.releases + s.destroyed.card + waiters.length = queue + (s.next + 1))
    (distinct : waiters.Nodup)
    (members : ∀ i, i ∈ waiters ↔ i ∈ s.waiters ∨ (i = s.next ∧ state.r = none))
    (exclusive : waiters = [] ∨ queue = 0) :
    Sane n { s with next := s.next + 1, kind := Function.update s.kind s.next kind, waiters, queue
                    heap := s.heap.setState (.popped s.next) state }
      (↑([.client (.andThen s.next)] : List SemaphoreAction) + others) := by
  have unready : ¬ s.heap.Ready (.popped s.next) := fun ready => by
    simpa [dutyOf, Duty.due] using sane.due_of_ready ready
  have blank : (s.heap.states (.popped s.next)).thens = [] :=
    sane.blank _ fun i same => by cases same; exact le_rfl
  have absent : s.next ∉ s.waiters := fun member => (sane.waiting _ member).false
  have keeps : s.heap.Keeps (s.heap.setState (.popped s.next) state) :=
    Heap.keeps_setState unready
  have older : ∀ i < s.next, Function.update s.kind s.next kind i = s.kind i := fun i bound =>
    Function.update_of_ne bound.ne _ _
  exact {
    heap := by
      apply sane.heap.setState unready
      · exact fun r _ => sound_finish s.heap _ r
      · simp [empty]
    calls := by
      apply mem_after
      · simp only [List.mem_singleton]
        rintro call rfl
        exact sound_client _ (by simp)
      · exact fun call other => (sane.calls call (Multiset.mem_cons_of_mem other)).keeps keeps
    accounts := by
      apply sane.accounts_setState unready blank empty
      intro duty
      cases duty with
      | popped j =>
        by_cases current : j = s.next
        · subst current
          cases result : state.r <;>
            simp [Duty.due, Duty.Counts, Account.owes, Duty.account, Duty.target, members, absent,
              result]
        · have before : j < s.next + 1 ↔ j < s.next := by omega
          simp [Duty.due, Duty.Counts, Account.owes, Duty.account, Duty.target, members, current,
            before]
      | result j =>
        by_cases current : j = s.next
        · subst current
          simp [Duty.due, Duty.Counts, Account.owes, Duty.account, Duty.target]
        · have before : j < s.next + 1 ↔ j < s.next := by omega
          simp [Duty.due, Duty.Counts, Account.owes, Duty.account, Duty.target, Ne.symm current,
            before]
    drained := sane.drained.setState fun _ => empty
    permits := total
    distinct := distinct
    waiting := fun i member => by
      rcases (members i).mp member with old | ⟨rfl, -⟩
      · exact (sane.waiting i old).trans (Nat.lt_succ_self _)
      · exact Nat.lt_succ_self _
    exclusive := exclusive
    granted := fun i r outcome => by
      by_cases current : i = s.next
      · subst current
        rcases outcome with member | result
        · have old := (Multiset.mem_add.mp member).resolve_left (by simp)
          exact sane.granted _ r (Or.inl (Multiset.mem_cons_of_mem old))
        · rw [Heap.setState_states_self] at result
          exact values r result
      · apply sane.granted i r
        apply (outcome_after _ _ outcome).resolve_left (by simp)
        rw [Heap.setState_states_ne _ (by simpa using current)]
    ended := fun i r outcome => by
      have before := (outcome_after (.client (.pop kind))
        (by rw [Heap.setState_states_ne _ (by simp)]) outcome).resolve_left (by simp)
      have bound : i < s.next := by simpa [dutyOf, Duty.due] using sane.requested before
      obtain ⟨value, ends⟩ := sane.ended i r before
      exact ⟨hasValue_keeps keeps value, by simpa only [older i bound] using ends⟩
    held := fun i lock => by
      obtain ⟨bound, asked, v, outcome⟩ := sane.held i lock
      refine ⟨bound.trans (Nat.lt_succ_self _), (older i bound).trans asked, v, ?_⟩
      exact (outcome.after keeps).resolve_left (by simp)
    apart := sane.apart }

theorem pop_step {kind : Kind} (sane : Sane n s (.client (.pop kind) ::ₘ others))
    (popped : pop kind s = some (s', calls)) : Sane n s' (↑calls + others) := by
  have permits := sane.permits
  have absent : s.next ∉ s.waiters := fun member => (sane.waiting _ member).false
  unfold pop at popped
  split at popped
  · cases popped
  dsimp only at popped
  split at popped
  · rename_i some
    cases popped
    have waits := sane.exclusive.resolve_right some
    apply sane.popped
    · rfl
    · rintro r ⟨⟩
      exact ⟨_, rfl⟩
    · omega
    · exact sane.distinct
    · simp
    · exact Or.inl waits
  · rename_i none
    cases popped
    apply sane.popped
    · rfl
    · simp
    · simp only [List.length_append, List.length_singleton]
      omega
    · exact List.nodup_append.mpr ⟨sane.distinct, List.nodup_singleton _, by
        rintro i member j last rfl
        rw [List.mem_singleton.mp last] at member
        exact absent member⟩
    · simp
    · exact Or.inr (by simpa using none)

theorem andThen_step (sane : Sane n s (.client (.andThen i) ::ₘ others)) :
    Sane n (andThen i s).1 (↑(andThen i s).2 + others) := by
  have waits := sane.no_outcome (i := i) (by simp [Duty.Counts])
  have unready : ¬ s.heap.Ready (.result i) := by
    intro ready
    obtain ⟨r, result⟩ := Option.ne_none_iff_exists'.mp ready
    exact waits r (Or.inr result)
  have blank := sane.blank (.result i) (by simp)
  have keeps : s.heap.Keeps (s.heap.setState (.result i) { cancelationToken := some i }) :=
    Heap.keeps_setState unready
  have before : ∀ p r, Outcome (s.heap.setState (.result i) { cancelationToken := some i })
      (↑(andThen i s).2 + others) p r → Outcome s.heap (.client (.andThen i) ::ₘ others) p r := by
    intro p r outcome
    refine (outcome_after _ ?_ outcome).resolve_left (by simp [andThen])
    by_cases current : p = .result i
    · subst current
      rw [Heap.setState_states_self]
      exact (Heap.not_ready.mp unready).symm
    · rw [Heap.setState_states_ne _ current]
  exact {
    heap := sane.heap.setState unready (by simp) (by simp)
    calls := by
      apply mem_after
      · simp only [andThen, List.mem_cons, List.not_mem_nil, or_false]
        rintro call (rfl | rfl)
        · exact ⟨i, rfl, rfl⟩
        · exact sound_client _ (by simp)
      · exact fun call other => (sane.calls call (Multiset.mem_cons_of_mem other)).keeps keeps
    accounts := by
      apply sane.accounts_setState unready blank rfl
      intro duty
      change duty.due s + (duty.Counts (.andThen i)).toNat = _
      cases duty <;> simp [andThen, Duty.Counts, Account.owes, Duty.account]
    drained := sane.drained.setState fun _ => rfl
    permits := sane.permits
    distinct := sane.distinct
    waiting := sane.waiting
    exclusive := sane.exclusive
    granted := fun j r outcome => sane.granted j r (before _ r outcome)
    ended := fun j r outcome => by
      obtain ⟨value, ends⟩ := sane.ended j r (before _ r outcome)
      exact ⟨hasValue_keeps keeps value, ends⟩
    held := fun j lock => by
      obtain ⟨bound, kind, v, outcome⟩ := sane.held j lock
      exact ⟨bound, kind, v, (outcome.after keeps).resolve_left (by simp)⟩
    apart := sane.apart }

/-- The result of a packaged task is on its way, and a lock comes with it. -/
theorem Sane.delivered (sane : Sane n s (.client (.packagedTask i) ::ₘ others))
    (r : Result SemaphoreState ℕ) (locks : Finset ℕ) (wider : s.locks ⊆ locks)
    (value : s.heap.hasValue (.popped i) = true)
    (locked : ∀ j ∈ locks, j ∈ s.locks ∨ j = i ∧ s.kind i = .getScopeLock ∧ ∃ v, r = .value v)
    (ends : r = .exception .operationCanceled ∨
      (∃ v, r = .value v) ∧ (s.kind i = .getScopeLock → i ∈ locks)) :
    Sane n { s with locks } (↑([.finish (.result i) r] : List SemaphoreAction) + others) := by
  have waits := sane.no_outcome (i := i) (by simp [Duty.Counts])
  have bound : i < s.next := by
    have due := sane.due_of_pending (.result i) (Multiset.mem_cons_self _ _)
      (by simp [Account.owes, Duty.account, Duty.Counts])
    simpa [Duty.due] using due
  have after : ∀ j v, Outcome s.heap (.client (.packagedTask i) ::ₘ others) (.result j) (.value v) →
      Outcome s.heap (↑([.finish (.result i) r] : List SemaphoreAction) + others)
        (.result j) (.value v) :=
    fun j v outcome => (outcome.after .refl).resolve_left (by simp)
  exact {
    heap := sane.heap
    calls := by
      apply mem_after
      · simp only [List.mem_singleton]
        rintro call rfl
        exact sound_finish _ _ _
      · exact fun call other => sane.calls call (Multiset.mem_cons_of_mem other)
    accounts := by
      apply sane.accounts_after
      intro duty
      change duty.due s + _ = _
      cases duty with
      | popped j => simp [Duty.Counts, Account.owes, Duty.account, Duty.target]
      | result j =>
        by_cases current : i = j
        · simp [Duty.Counts, Account.owes, Duty.account, Duty.target, current]
        · simp [Duty.Counts, Account.owes, Duty.account, Duty.target, current, Ne.symm current]
    drained := sane.drained
    permits := sane.permits
    distinct := sane.distinct
    waiting := sane.waiting
    exclusive := sane.exclusive
    granted := fun j r outcome =>
      sane.granted j r ((outcome_after _ rfl outcome).resolve_left (by simp))
    ended := fun j r' outcome => by
      rcases outcome_after (.client (.packagedTask i)) rfl outcome with made | before
      · obtain ⟨rfl, rfl⟩ : j = i ∧ r' = r := by simpa using made
        exact ⟨value, ends.imp_right fun both =>
          ⟨both.1, fun lock => Finset.mem_union_left _ (both.2 lock)⟩⟩
      · obtain ⟨value, ends⟩ := sane.ended j r' before
        exact ⟨value, ends.imp_right fun both =>
          ⟨both.1, fun lock => Finset.union_subset_union_left wider (both.2 lock)⟩⟩
    held := fun j lock => by
      rcases Finset.mem_union.mp lock with live | gone
      · rcases locked j live with old | ⟨rfl, kind, v, rfl⟩
        · obtain ⟨bound, kind, v, outcome⟩ := sane.held j (Finset.mem_union_left _ old)
          exact ⟨bound, kind, v, after j v outcome⟩
        · exact ⟨bound, kind, v, Or.inl (by simp)⟩
      · obtain ⟨bound, kind, v, outcome⟩ := sane.held j (Finset.mem_union_right _ gone)
        exact ⟨bound, kind, v, after j v outcome⟩
    apart := by
      rw [Finset.disjoint_left]
      intro j live gone
      rcases locked j live with old | ⟨rfl, -⟩
      · exact Finset.disjoint_left.mp sane.apart old gone
      · obtain ⟨-, -, v, outcome⟩ := sane.held j (Finset.mem_union_right _ gone)
        exact waits _ outcome }

/-- The packaged task runs after `pop` has delivered a permit. -/
theorem packagedTask_step (sane : Sane n s (.client (.packagedTask i) ::ₘ others))
    (ran : packagedTask i s = (s', calls)) : Sane n s' (↑calls + others) := by
  obtain ⟨v, result⟩ : ∃ v, (s.heap.states (.popped i)).r = some (.value v) := by
    obtain own | pushed | ⟨p, ⟨j, rfl, same⟩, ready⟩ := sane.calls _ (Multiset.mem_cons_self _ _)
    · exact absurd rfl (own i)
    · exact pushed.elim
    · cases same
      obtain ⟨r, result⟩ := Option.ne_none_iff_exists'.mp ready
      obtain ⟨v, rfl⟩ := sane.granted i r (Or.inr result)
      exact ⟨v, result⟩
  have value : s.heap.hasValue (.popped i) = true := by simp [Heap.hasValue, result]
  unfold packagedTask at ran
  rw [result] at ran
  dsimp only at ran
  split at ran
  · cases ran
    exact sane.delivered _ s.locks (Finset.Subset.refl _) value (fun j live => Or.inl live) (Or.inl rfl)
  · split at ran
    · rename_i kind
      cases ran
      exact sane.delivered _ s.locks (Finset.Subset.refl _) value (fun j live => Or.inl live)
        (Or.inr ⟨⟨_, rfl⟩, fun lock => by simp [kind] at lock⟩)
    · rename_i kind
      cases ran
      apply sane.delivered _ (insert i s.locks) (Finset.subset_insert _ _) value
      · intro j live
        rcases Finset.mem_insert.mp live with rfl | old
        · exact Or.inr ⟨rfl, kind, _, rfl⟩
        · exact Or.inl old
      · exact Or.inr ⟨⟨_, rfl⟩, fun _ => Finset.mem_insert_self _ _⟩

theorem push_kept (pushed : push s = some (s', calls)) :
    s'.releases = s.releases ∧ s'.locks = s.locks ∧ s'.destroyed = s.destroyed := by
  unfold push at pushed
  split at pushed
  · cases pushed
  · split at pushed <;> cases pushed <;> exact ⟨rfl, rfl, rfl⟩

theorem user_step {choice : Choice} (sane : Sane n s (.client .user ::ₘ others))
    (ran : user s choice = some (s', calls)) : Sane n s' (↑calls + others) := by
  cases choice with
  | «return» =>
    cases ran
    exact sane.frame s.locked s.futures (by simp) (fun duty => by cases duty <;> rfl) (by simp)
  | acquire =>
    cases ran
    apply sane.frame s.locked s.futures
    · simp [sound_client]
    · intro duty
      cases duty <;> simp [Duty.Counts, Account.owes, Duty.account]
    · simp
  | getScopeLock =>
    cases ran
    apply sane.frame s.locked s.futures
    · simp [sound_client]
    · intro duty
      cases duty <;> simp [Duty.Counts, Account.owes, Duty.account]
    · simp
  | release =>
    obtain ⟨⟨s₁, calls₁⟩, pushed, same⟩ := Option.map_eq_some_iff.mp ran
    cases same
    have kept := push_kept pushed
    have stepped := push_step (s.releases + 1) s.locks s.destroyed sane pushed (by omega) rfl
      sane.apart
    rw [← kept.1, ← kept.2.1, ← kept.2.2] at stepped
    exact stepped
  | destroyLock i =>
    simp only [user] at ran
    split at ran
    · rename_i live
      obtain ⟨⟨s₁, calls₁⟩, pushed, same⟩ := Option.map_eq_some_iff.mp ran
      cases same
      have kept := push_kept pushed
      have absent : i ∉ s.destroyed := Finset.disjoint_left.mp sane.apart live.1
      have stepped := push_step s.releases (s.locks.erase i) (insert i s.destroyed) sane pushed
        (by rw [Finset.card_insert_of_notMem absent]; omega)
        (by
          ext j
          by_cases same : j = i
          · simp [same, live.1]
          · simp [same])
        (by
          rw [Finset.disjoint_insert_right]
          exact ⟨Finset.notMem_erase _ _, Finset.disjoint_of_subset_left (Finset.erase_subset _ _)
            sane.apart⟩)
      rw [← kept.1, ← kept.2.1, ← kept.2.2] at stepped
      exact stepped
    · cases ran
  | requestCancel i =>
    simp only [user] at ran
    split at ran
    · cases ran
      apply sane.frame s.locked s.futures
      · simp only [List.mem_cons, List.not_mem_nil, or_false]
        rintro call (rfl | rfl)
        · trivial
        · exact sound_client _ (by simp)
      · intro duty
        cases duty <;> simp [Duty.Counts, Account.owes, Duty.account]
      · simp
    · cases ran

theorem userCode_cases (call : SemaphoreAction) :
    userCode call = [] ∨ userCode call = [.client .user] := by
  unfold userCode
  split <;> simp

theorem exec_library (library : ∀ c, call ≠ .client c) {thread : ℕ} {choice : Choice} :
    exec thread choice s call = some ({ s with heap := (s.heap.exec call).1 },
      (s.heap.exec call).2 ++ userCode call) := by
  cases call with
  | client c => exact absurd rfl (library c)
  | _ => rfl

/-- **Every step of every thread keeps the invariant.** -/
theorem exec_step {thread : ℕ} {choice : Choice} (sane : Sane n s (call ::ₘ others))
    (ran : exec thread choice s call = some (s', calls)) : Sane n s' (↑calls + others) := by
  by_cases program : ∃ c, call = .client c
  · obtain ⟨c, rfl⟩ := program
    change clientExec choice s c = some (s', calls) at ran
    cases c with
    | user => exact user_step sane ran
    | pop kind => exact pop_step sane ran
    | andThen i =>
      cases ran
      exact andThen_step sane
    | returnFuture i =>
      cases ran
      exact sane.frame s.locked _ (by simp) (fun duty => by cases duty <;> rfl) (by simp)
    | packagedTask i => exact packagedTask_step sane (Option.some.inj ran)
    | endPush =>
      cases ran
      exact sane.frame false s.futures (by simp) (fun duty => by cases duty <;> rfl) (by simp)
  · have library : ∀ c, call ≠ .client c := fun c same => program ⟨c, same⟩
    have kept := sane.library library
    rw [exec_library library] at ran
    cases ran
    refine around (Sane n _) (?_ : ∀ call ∈ [] ++ _, _) kept
    rcases userCode_cases call with none | one
    · simp [none]
    · simpa [one] using fun pending => Sane.user

end Tconcurrent.Semaphore
