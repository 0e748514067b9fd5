import Tconcurrent.FutureGroup

/-! No task is lost between `add` and the future that `terminate` returns.

An entry that is not ready is in the vector or taken, its continuation is due
exactly once, and a `terminate` counts the entries it took that are ready. -/
namespace Tconcurrent.FutureGroup
open Interleaving

variable {s s' : State} {pending others : Multiset GroupCall} {call : GroupCall}
  {calls : List GroupCall} {t : Termination} {k u : ℕ}
  {config : Config State GroupCall}

/-- The continuation of an entry. -/
def resolves (k : ℕ) : GroupCall → ℕ
  | .toVoid j => if j = k then 1 else 0
  | _ => 0

/-- What a thread that holds the mutex still has to do. -/
def holds : GroupCall → ℕ
  | .functionReturn => 1
  | .cancelTaken .. => 1
  | _ => 0

/-- The entry is resolved. -/
def Ready (s : State) (k : ℕ) : Prop := s.void k ≠ none

instance (s : State) (k : ℕ) : Decidable (Ready s k) := inferInstanceAs (Decidable (_ ≠ none))

/-- What a `terminate` has done, and what it still counts. -/
structure Kept (s : State) (t : Termination) : Prop where
  entries : ∀ k ∈ t.taken, k < s.next
  distinct : t.taken.Nodup
  cancels : ∀ k ∈ t.taken, ¬ Ready s k → k ∈ t.requested
  requested : ∀ k ∈ t.requested, k < s.next ∧ s.requested (s.token (s.source k)) = true
  counted : t.count = t.taken.countP (fun k => Ready s k)
  ready : t.future ≠ none ↔ t.count = t.taken.length
  value : ∀ r, t.future = some r → t.canceled = false → r = .value
  late : t.late = true → t.taken = []

/-- The loop of `terminate` in the middle. -/
structure Looping (s : State) (wasLate : Bool) (rest requested : List ℕ) : Prop where
  passed : ∃ done, s.futures = done ++ rest ∧ ∀ k ∈ done, ¬ Ready s k → k ∈ requested
  requested : ∀ k ∈ requested, k < s.next ∧ s.requested (s.token (s.source k)) = true
  late : wasLate = true → s.futures = []
  again : s.kind = .futureGroup → s.terminating = true ∧ (s.terminations ≠ [] → wasLate = true)

structure Sane (s : State) (pending : Multiset GroupCall) : Prop where
  lock : weight holds pending = s.locked.toNat
  fresh : ∀ k, s.next ≤ k → s.void k = none
  futures : ∀ k ∈ s.futures, k < s.next
  distinct : s.futures.Nodup
  tracked : ∀ k < s.next, ¬ Ready s k → k ∈ s.futures ∨ ∃ t ∈ s.terminations, k ∈ t.taken
  apart : ∀ t ∈ s.terminations, ∀ k ∈ t.taken, k ∉ s.futures
  source : ∀ k, Ready s k → s.user (s.source k) ≠ none
  due : ∀ k, weight (resolves k) pending =
    if k < s.next ∧ ¬ Ready s k ∧ s.user (s.source k) ≠ none then 1 else 0
  looping : ∀ late rest requested, .cancelTaken late rest requested ∈ pending →
    Looping s late rest requested
  running : .functionReturn ∈ pending → s.terminating = false
  terminations : ∀ t ∈ s.terminations, Kept s t
  closed : s.terminating = true → s.locked = false → s.futures = []
  added : s.added.length = s.next ∧ ∀ k u, s.added[k]? = some u → s.source k = u
  group : s.kind = .futureGroup → (s.terminations ≠ [] → s.terminating = true) ∧
    ∀ t ∈ s.terminations.tail, t.late = true
  asserts : s.assertFailed = false

/-! ## What is pending -/

theorem Sane.locked (sane : Sane s pending) (member : call ∈ pending) (held : holds call = 1) :
    s.locked = true ∧ weight holds pending = 1 := by
  have small := measure_le_weight holds member
  have lock := sane.lock
  cases now : s.locked with
  | true => exact ⟨rfl, by rw [lock, now]; rfl⟩
  | false =>
    rw [now, Bool.toNat_false] at lock
    omega

/-- Nothing under the mutex is pending while it is free. -/
theorem Sane.free (sane : Sane s pending) (unlocked : s.locked = false) (member : call ∈ pending) :
    holds call = 0 := by
  have small := measure_le_weight holds member
  have lock := sane.lock
  rw [unlocked, Bool.toNat_false] at lock
  omega

/-- The thread that holds the mutex is the only one. -/
theorem Sane.alone (sane : Sane s (call ::ₘ others)) (held : holds call = 1) {other : GroupCall}
    (member : other ∈ others) : holds other = 0 := by
  have all := (sane.locked (Multiset.mem_cons_self _ _) held).2
  have small := measure_le_weight holds member
  rw [weight_cons] at all
  omega

/-- Calls that neither resolve an entry nor hold the mutex come and go. -/
theorem Sane.frame {before : Multiset GroupCall} (sane : Sane s before)
    (lock : weight holds pending = weight holds before)
    (due : ∀ k, weight (resolves k) pending = weight (resolves k) before)
    (kept : ∀ call ∈ pending, holds call = 1 → call ∈ before) : Sane s pending where
  lock := lock.trans sane.lock
  fresh := sane.fresh
  futures := sane.futures
  distinct := sane.distinct
  tracked := sane.tracked
  apart := sane.apart
  source := sane.source
  due k := (due k).trans (sane.due k)
  looping late rest requested member := sane.looping late rest requested (kept _ member rfl)
  running member := sane.running (kept _ member rfl)
  terminations := sane.terminations
  closed := sane.closed
  added := sane.added
  group := sane.group
  asserts := sane.asserts

theorem weight_plain {measure : GroupCall → ℕ} (plain : ∀ call ∈ calls, measure call = 0) :
    weight measure (calls : Multiset GroupCall) = 0 := by
  induction calls with
  | nil => rfl
  | cons call rest ih =>
    rw [weight_cons_coe, plain call List.mem_cons_self,
      ih fun other member => plain other (List.mem_cons_of_mem _ member)]

/-- A call that is over, and calls that wait. -/
theorem Sane.replace (sane : Sane s (call ::ₘ others)) (quiet : holds call = 0)
    (silent : ∀ k, resolves k call = 0)
    (plain : ∀ made ∈ calls, holds made = 0 ∧ ∀ k, resolves k made = 0) :
    Sane s (↑calls + others) := by
  apply sane.frame
  · rw [weight_add, weight_plain fun made member => (plain made member).1, weight_cons, quiet]
  · intro k
    rw [weight_add, weight_plain fun made member => (plain made member).2 k, weight_cons, silent]
  · intro other member held
    rcases Multiset.mem_add.mp member with made | old
    · rw [(plain other (Multiset.mem_coe.mp made)).1] at held
      cases held
    · exact Multiset.mem_cons_of_mem old

/-! ## Steps that change little -/

/-- A token is cancelled. -/
theorem Sane.request (sane : Sane s pending) (token : ℕ) :
    Sane { s with requested := Function.update s.requested token true } pending := by
  have more : ∀ k, s.requested (s.token (s.source k)) = true →
      Function.update s.requested token true (s.token (s.source k)) = true := by
    intro k held
    by_cases same : s.token (s.source k) = token
    · rw [same, Function.update_self]
    · rwa [Function.update_of_ne same]
  exact {
    lock := sane.lock
    fresh := sane.fresh
    futures := sane.futures
    distinct := sane.distinct
    tracked := sane.tracked
    apart := sane.apart
    source := sane.source
    due := sane.due
    looping := fun late rest requested member =>
      let loop := sane.looping late rest requested member
      ⟨loop.passed, fun k member => ⟨(loop.requested k member).1, more k (loop.requested k member).2⟩,
        loop.late, loop.again⟩
    running := sane.running
    terminations := fun t member =>
      let kept := sane.terminations t member
      { kept with
        requested := fun k held => ⟨(kept.requested k held).1, more k (kept.requested k held).2⟩ }
    closed := sane.closed
    added := sane.added
    group := sane.group
    asserts := sane.asserts }

theorem Sane.setErrors (sane : Sane s pending) (errors : List String) :
    Sane { s with errors } pending :=
  { sane with
    looping := fun late rest requested member =>
      let loop := sane.looping late rest requested member
      ⟨loop.passed, loop.requested, loop.late, loop.again⟩
    terminations := fun t member =>
      let kept := sane.terminations t member
      ⟨kept.entries, kept.distinct, kept.cancels, kept.requested, kept.counted, kept.ready,
        kept.value, kept.late⟩ }

/-- The returned future is cancelled. -/
theorem Sane.cancelReturned (sane : Sane s pending) {i : ℕ} (inside : s.terminations[i]? = some t) :
    Sane { s with terminations := s.terminations.set i { t with canceled := true } } pending := by
  have member := List.mem_of_getElem? inside
  have kept := sane.terminations t member
  have taken : ∀ t' ∈ s.terminations.set i { t with canceled := true },
      ∃ t₀ ∈ s.terminations, t'.taken = t₀.taken := by
    intro t' held
    rcases List.mem_or_eq_of_mem_set held with old | rfl
    · exact ⟨t', old, rfl⟩
    · exact ⟨t, member, rfl⟩
  exact {
    lock := sane.lock
    fresh := sane.fresh
    futures := sane.futures
    distinct := sane.distinct
    tracked := by
      intro k bound unready
      rcases sane.tracked k bound unready with listed | ⟨t₀, held, listed⟩
      · exact Or.inl listed
      · refine Or.inr ?_
        obtain ⟨j, inside', rfl⟩ := List.getElem_of_mem held
        by_cases same : i = j
        · subst same
          have current : s.terminations[i] = t := by
            rw [List.getElem?_eq_getElem inside'] at inside
            exact Option.some.inj inside
          refine ⟨{ t with canceled := true }, ?_, current ▸ listed⟩
          exact List.mem_set inside' _
        · refine ⟨s.terminations[j], ?_, listed⟩
          rw [← List.getElem_set_ne same (by simpa using inside')]
          exact List.getElem_mem _
    apart := by
      intro t' held
      obtain ⟨t₀, old, same⟩ := taken t' held
      rw [same]
      exact sane.apart t₀ old
    source := sane.source
    due := sane.due
    looping := fun late rest requested member =>
      let loop := sane.looping late rest requested member
      ⟨loop.passed, loop.requested, loop.late, fun group => ⟨(loop.again group).1, fun some_before =>
        (loop.again group).2 fun none_before => some_before (by simp [none_before])⟩⟩
    running := sane.running
    terminations := by
      intro t' held
      rcases List.mem_or_eq_of_mem_set held with old | rfl
      · have kept := sane.terminations t' old
        exact ⟨kept.entries, kept.distinct, kept.cancels, kept.requested, kept.counted, kept.ready,
          kept.value, kept.late⟩
      · exact ⟨kept.entries, kept.distinct, kept.cancels, kept.requested, kept.counted, kept.ready,
          fun _ _ absent => absurd absent (by simp), kept.late⟩
    closed := sane.closed
    added := sane.added
    group := by
      intro group
      have before := sane.group group
      refine ⟨fun some_before => before.1 fun none_before => some_before (by simp [none_before]), ?_⟩
      intro t' held
      change t' ∈ (s.terminations.set i _).tail at held
      cases i with
      | zero =>
        cases listed : s.terminations with
        | nil => simp [listed] at held
        | cons first rest =>
          rw [listed] at held
          exact before.2 t' (by rw [listed]; exact held)
      | succ i =>
        cases listed : s.terminations with
        | nil => simp [listed] at held
        | cons first rest =>
          rw [listed] at held inside
          have tail : t' ∈ rest.set i { t with canceled := true } := held
          rcases List.mem_or_eq_of_mem_set tail with old | rfl
          · exact before.2 t' (by rw [listed]; exact old)
          · have current : t ∈ rest := List.mem_of_getElem? (by simpa using inside)
            exact before.2 t (by rw [listed]; exact current)
    asserts := sane.asserts }

/-! ## `add` and `run` -/

/-- Only ready entries leave the vector. -/
theorem Sane.collect (sane : Sane s pending) (alone : ∀ call ∈ pending, holds call = 0) :
    Sane (collect s) pending := by
  have unheld : ∀ call ∈ pending, holds call ≠ 1 := fun call member => by
    rw [alone call member]
    exact Nat.zero_ne_one
  exact {
    lock := sane.lock
    fresh := sane.fresh
    futures := fun k listed => sane.futures k (List.mem_filter.mp listed).1
    distinct := sane.distinct.filter _
    tracked := by
      intro k bound unready
      rcases sane.tracked k bound unready with listed | taken
      · left
        have waits : s.void k = none := not_not.mp unready
        exact List.mem_filter.mpr ⟨listed, by rw [waits]; rfl⟩
      · exact Or.inr taken
    apart := fun t member k taken listed => sane.apart t member k taken (List.mem_filter.mp listed).1
    source := sane.source
    due := sane.due
    looping := fun _ _ _ member => absurd rfl (unheld _ member)
    running := fun member => absurd rfl (unheld _ member)
    terminations := fun t member =>
      let kept := sane.terminations t member
      ⟨kept.entries, kept.distinct, kept.cancels, kept.requested, kept.counted, kept.ready,
        kept.value, kept.late⟩
    closed := by
      intro terminating unlocked
      change s.futures.filter _ = []
      rw [sane.closed terminating unlocked]
      rfl
    added := sane.added
    group := sane.group
    asserts := sane.asserts }

/-- An entry for a future that is not ready. -/
theorem Sane.emplace (sane : Sane s pending) (alone : ∀ call ∈ pending, holds call = 0)
    (open_ : s.terminating = false) (unready : s.user u = none) : Sane (emplace u s) pending := by
  have unheld : ∀ call ∈ pending, holds call ≠ 1 := fun call member => by
    rw [alone call member]
    exact Nat.zero_ne_one
  have old : ∀ k, k < s.next → Function.update s.source s.next u k = s.source k := fun k bound =>
    Function.update_of_ne (Nat.ne_of_lt bound) _ _
  exact {
    lock := sane.lock
    fresh := fun k bound => sane.fresh k (Nat.le_of_succ_le bound)
    futures := by
      intro k listed
      rcases List.mem_append.mp listed with before | new
      · exact Nat.lt_succ_of_lt (sane.futures k before)
      · rw [List.mem_singleton.mp new]
        exact Nat.lt_succ_self _
    distinct := by
      apply List.nodup_append.mpr
      refine ⟨sane.distinct, List.nodup_singleton _, ?_⟩
      intro k before j new same
      rw [List.mem_singleton.mp new] at same
      have bound := sane.futures k before
      omega
    tracked := by
      intro k bound waits
      by_cases new : k = s.next
      · exact Or.inl (by simp [FutureGroup.emplace, new])
      · rcases sane.tracked k (by simp only [FutureGroup.emplace] at bound; omega) waits with
          listed | taken
        · exact Or.inl (List.mem_append_left _ listed)
        · exact Or.inr taken
    apart := by
      intro t member k taken listed
      rcases List.mem_append.mp listed with before | new
      · exact sane.apart t member k taken before
      · have bound := (sane.terminations t member).entries k taken
        rw [List.mem_singleton.mp new] at bound
        exact Nat.lt_irrefl _ bound
    source := by
      intro k ready
      have bound : k < s.next := by
        by_contra beyond
        exact ready (sane.fresh k (Nat.le_of_not_lt beyond))
      change s.user (Function.update s.source s.next u k) ≠ none
      rw [old k bound]
      exact sane.source k ready
    due := by
      intro k
      rw [sane.due k]
      change _ = if k < s.next + 1 ∧ _ ∧ s.user (Function.update s.source s.next u k) ≠ none
        then 1 else 0
      rcases Nat.lt_trichotomy k s.next with bound | rfl | beyond
      · have later : k < s.next + 1 := Nat.lt_succ_of_lt bound
        simp only [old k bound, bound, later, true_and]
        rfl
      · simp [unready]
      · have neither : ¬ k < s.next ∧ ¬ k < s.next + 1 := by omega
        simp [neither]
    looping := fun _ _ _ member => absurd rfl (unheld _ member)
    running := fun member => absurd rfl (unheld _ member)
    terminations := by
      intro t member
      have kept := sane.terminations t member
      refine ⟨fun k taken => Nat.lt_succ_of_lt (kept.entries k taken), kept.distinct, kept.cancels, ?_,
        kept.counted, kept.ready, kept.value, kept.late⟩
      intro k requested
      have held := kept.requested k requested
      refine ⟨Nat.lt_succ_of_lt held.1, ?_⟩
      change s.requested (s.token (Function.update s.source s.next u k)) = true
      rw [old k held.1]
      exact held.2
    closed := fun terminating => by
      change s.terminating = true at terminating
      rw [open_] at terminating
      cases terminating
    added := by
      obtain ⟨length, named⟩ := sane.added
      refine ⟨by simp [FutureGroup.emplace, length], ?_⟩
      intro k v listed
      change (s.added ++ [u])[k]? = some v at listed
      change Function.update s.source s.next u k = v
      rcases Nat.lt_trichotomy k s.next with bound | rfl | beyond
      · rw [List.getElem?_append_left (by omega)] at listed
        rw [old k bound]
        exact named k v listed
      · rw [← length, List.getElem?_concat_length] at listed
        rw [Function.update_self]
        exact Option.some.inj listed
      · have short : (s.added ++ [u]).length ≤ k := by
          simp only [List.length_append, List.length_singleton]
          omega
        rw [List.getElem?_eq_none short] at listed
        cases listed
    group := sane.group
    asserts := sane.asserts }

theorem Sane.add (sane : Sane s pending) (unlocked : s.locked = false) : Sane (add u s) pending := by
  have alone : ∀ call ∈ pending, holds call = 0 := fun _ member => sane.free unlocked member
  unfold FutureGroup.add
  split
  · exact sane.setErrors _
  · rename_i open_
    split
    · exact sane
    · rename_i unready
      have waits : s.user u = none := by simpa using unready
      have accepts : s.terminating = false := by simpa using open_
      exact (sane.collect alone).emplace alone accepts waits

/-- The mutex is released by whoever holds it. -/
theorem Sane.unlock (sane : Sane s (.functionReturn ::ₘ others)) :
    Sane { s with locked := false } others ∧ s.terminating = false := by
  have running := sane.running (Multiset.mem_cons_self _ _)
  have all := (sane.locked (Multiset.mem_cons_self _ _) rfl).2
  have alone : ∀ call ∈ others, holds call ≠ 1 := fun call member => by
    rw [sane.alone rfl member]
    exact Nat.zero_ne_one
  refine ⟨?_, running⟩
  exact {
    lock := by
      rw [weight_cons] at all
      change weight holds others = 0
      change 1 + weight holds others = 1 at all
      omega
    fresh := sane.fresh
    futures := sane.futures
    distinct := sane.distinct
    tracked := sane.tracked
    apart := sane.apart
    source := sane.source
    due := fun k => by
      have due := sane.due k
      rw [weight_cons] at due
      change 0 + _ = _ at due
      rwa [zero_add] at due
    looping := fun _ _ _ member => absurd rfl (alone _ member)
    running := fun member => absurd rfl (alone _ member)
    terminations := fun t member =>
      let kept := sane.terminations t member
      ⟨kept.entries, kept.distinct, kept.cancels, kept.requested, kept.counted, kept.ready,
        kept.value, kept.late⟩
    closed := fun terminating => by
      change s.terminating = true at terminating
      rw [running] at terminating
      cases terminating
    added := sane.added
    group := sane.group
    asserts := sane.asserts }

theorem Sane.functionReturn (sane : Sane s (.functionReturn ::ₘ others)) :
    Sane (functionReturn u s) others := by
  obtain ⟨unlocked, running⟩ := sane.unlock
  have alone : ∀ call ∈ others, holds call = 0 := fun _ member => unlocked.free rfl member
  unfold FutureGroup.functionReturn
  dsimp only
  split
  · rename_i unready
    have waits : s.user u = none := by simpa using unready
    exact (unlocked.collect alone).emplace alone running waits
  · exact unlocked

/-! ## `terminate` -/

theorem Sane.terminate (sane : Sane s others) (unlocked : s.locked = false) {terminating : Bool}
    (group : s.kind = .futureGroup → terminating = true) :
    Sane (terminate terminating s).1 (↑(terminate terminating s).2 + others) := by
  have alone : ∀ call ∈ others, holds call ≠ 1 := fun call member => by
    rw [sane.free unlocked member]
    exact Nat.zero_ne_one
  have lock : weight holds others = 0 := by
    rw [sane.lock, unlocked]
    rfl
  have late : s.terminating = true → s.futures = [] := fun terminating =>
    sane.closed terminating unlocked
  exact {
    lock := by simp [FutureGroup.terminate, holds, lock]
    fresh := sane.fresh
    futures := sane.futures
    distinct := sane.distinct
    tracked := sane.tracked
    apart := sane.apart
    source := sane.source
    due := fun k => by simpa [FutureGroup.terminate, resolves, Ready] using sane.due k
    looping := by
      intro late' rest requested member
      rcases Multiset.mem_add.mp member with made | old
      · obtain ⟨rfl, rfl, rfl⟩ : late' = s.terminating ∧ rest = s.futures ∧ requested = [] := by
          simpa [FutureGroup.terminate] using made
        refine ⟨⟨[], rfl, by simp⟩, by simp, late, fun is_group => ?_⟩
        refine ⟨?_, (sane.group is_group).1⟩
        simp [FutureGroup.terminate, group is_group]
      · exact absurd rfl (alone _ old)
    running := by
      intro member
      rcases Multiset.mem_add.mp member with made | old
      · simp [FutureGroup.terminate] at made
      · exact absurd rfl (alone _ old)
    terminations := fun t member =>
      let kept := sane.terminations t member
      ⟨kept.entries, kept.distinct, kept.cancels, kept.requested, kept.counted, kept.ready,
        kept.value, kept.late⟩
    closed := fun _ free => absurd free (by simp [FutureGroup.terminate])
    added := sane.added
    group := by
      intro is_group
      refine ⟨fun some_before => ?_, (sane.group is_group).2⟩
      simp [FutureGroup.terminate, group is_group]
    asserts := sane.asserts }

/-- The loop passes an entry. -/
theorem Sane.passed {late : Bool} {rest requested requested' : List ℕ}
    (sane : Sane s (.cancelTaken late (k :: rest) requested ::ₘ others))
    (more : ∀ j ∈ requested, j ∈ requested')
    (flagged : ∀ j ∈ requested', j < s.next ∧ s.requested (s.token (s.source j)) = true)
    (current : ¬ Ready s k → k ∈ requested') :
    Sane s (.cancelTaken late rest requested' ::ₘ others) := by
  have loop := sane.looping late (k :: rest) requested (Multiset.mem_cons_self _ _)
  have alone : ∀ call ∈ others, holds call ≠ 1 := fun call member => by
    rw [sane.alone rfl member]
    exact Nat.zero_ne_one
  exact {
    lock := by
      have lock := sane.lock
      rw [weight_cons] at lock ⊢
      exact lock
    fresh := sane.fresh
    futures := sane.futures
    distinct := sane.distinct
    tracked := sane.tracked
    apart := sane.apart
    source := sane.source
    due := fun k => by
      have due := sane.due k
      rw [weight_cons] at due ⊢
      exact due
    looping := by
      intro late' rest' requested'' member
      rcases Multiset.mem_cons.mp member with same | old
      · cases same
        obtain ⟨done, split, covered⟩ := loop.passed
        refine ⟨⟨done ++ [k], by rw [split, List.append_assoc]; rfl, ?_⟩, flagged, loop.late, loop.again⟩
        intro j listed waits
        rcases List.mem_append.mp listed with before | here
        · exact more j (covered j before waits)
        · rw [List.mem_singleton.mp here] at waits ⊢
          exact current waits
      · exact absurd rfl (alone _ old)
    running := by
      intro member
      rcases Multiset.mem_cons.mp member with same | old
      · cases same
      · exact absurd rfl (alone _ old)
    terminations := sane.terminations
    closed := sane.closed
    added := sane.added
    group := sane.group
    asserts := sane.asserts }

/-- `when_all` resolves its promise with the last future. -/
theorem finish_future (unset : t.future = none) :
    (t.finish.future ≠ none ↔ t.finish.count = t.finish.taken.length) ∧
      ∀ r, t.finish.future = some r → t.finish.canceled = false → r = .value := by
  unfold Termination.finish
  split
  · rename_i all
    refine ⟨by simp [all], ?_⟩
    intro r result untouched
    change t.canceled = false at untouched
    simpa [untouched, eq_comm] using result
  · rename_i short
    refine ⟨by simp [unset, short], ?_⟩
    intro r result
    rw [unset] at result
    cases result

@[simp] theorem finish_taken : t.finish.taken = t.taken := by
  unfold Termination.finish
  split <;> rfl

@[simp] theorem finish_requested : t.finish.requested = t.requested := by
  unfold Termination.finish
  split <;> rfl

@[simp] theorem finish_late : t.finish.late = t.late := by
  unfold Termination.finish
  split <;> rfl

@[simp] theorem finish_count : t.finish.count = t.count := by
  unfold Termination.finish
  split <;> rfl

theorem isSome_ready (s : State) (k : ℕ) : (s.void k).isSome = decide (Ready s k) := by
  cases held : s.void k <;> simp [Ready, held]

/-- The vector is handed to `when_all`. -/
theorem Sane.whenAll {late : Bool} {requested : List ℕ}
    (sane : Sane s (.cancelTaken late [] requested ::ₘ others)) :
    Sane (whenAll late requested s) others := by
  have loop := sane.looping late [] requested (Multiset.mem_cons_self _ _)
  have all := (sane.locked (Multiset.mem_cons_self _ _) rfl).2
  have alone : ∀ call ∈ others, holds call ≠ 1 := fun call member => by
    rw [sane.alone rfl member]
    exact Nat.zero_ne_one
  exact {
    lock := by
      rw [weight_cons] at all
      change weight holds others = 0
      change 1 + weight holds others = 1 at all
      omega
    fresh := sane.fresh
    futures := by simp [FutureGroup.whenAll]
    distinct := List.nodup_nil
    tracked := by
      intro k bound waits
      right
      rcases sane.tracked k bound waits with listed | ⟨t, member, taken⟩
      · exact ⟨_, List.mem_append_right _ (List.mem_singleton_self _), by simpa using listed⟩
      · exact ⟨t, List.mem_append_left _ member, taken⟩
    apart := by simp [FutureGroup.whenAll]
    source := sane.source
    due := fun k => by
      have due := sane.due k
      rw [weight_cons] at due
      change 0 + _ = _ at due
      rwa [zero_add] at due
    looping := fun _ _ _ member => absurd rfl (alone _ member)
    running := fun member => absurd rfl (alone _ member)
    terminations := by
      intro t member
      rcases List.mem_append.mp member with old | new
      · have kept := sane.terminations t old
        exact ⟨kept.entries, kept.distinct, kept.cancels, kept.requested, kept.counted, kept.ready,
          kept.value, kept.late⟩
      · rw [List.mem_singleton.mp new]
        obtain ⟨done, split, covered⟩ := loop.passed
        rw [List.append_nil] at split
        have future := finish_future (t := ⟨s.futures, requested, late,
          s.futures.countP fun k => (s.void k).isSome, none, false⟩) rfl
        constructor
        · rw [finish_taken]
          exact sane.futures
        · rw [finish_taken]
          exact sane.distinct
        · rw [finish_taken, finish_requested]
          exact fun k listed => covered k (split ▸ listed)
        · rw [finish_requested]
          exact loop.requested
        · simp only [finish_count, finish_taken, isSome_ready]
          rfl
        · exact future.1
        · exact future.2
        · rw [finish_late, finish_taken]
          exact loop.late
    closed := fun _ _ => rfl
    added := sane.added
    group := by
      intro group
      have before := sane.group group
      refine ⟨fun _ => (loop.again group).1, ?_⟩
      intro t member
      change t ∈ (s.terminations ++ [_]).tail at member
      cases listed : s.terminations with
      | nil => simp [listed] at member
      | cons first rest =>
        rw [listed] at member
        rcases List.mem_append.mp (show t ∈ rest ++ [_] from member) with old | new
        · exact before.2 t (by rw [listed]; exact old)
        · rw [List.mem_singleton.mp new, finish_late]
          exact (loop.again group).2 (by simp [listed])
    asserts := sane.asserts }

/-! ## Futures that get ready -/

theorem weight_continuations (k : ℕ) (entries : List ℕ) :
    weight (resolves k) ((entries.flatMap fun j => [.user, .toVoid j] : List GroupCall) :
      Multiset GroupCall) = entries.count k := by
  induction entries with
  | nil => rfl
  | cons j rest ih =>
    rw [List.flatMap_cons, ← Multiset.coe_add, weight_add, ih, List.count_cons]
    by_cases same : j = k
    · simp [resolves, same, Nat.add_comm]
    · simp [resolves, same]

/-- A future of the user gets ready: the continuations of its entries are due. -/
theorem Sane.complete (sane : Sane s others) {r : Outcome} (unready : s.user u = none) :
    Sane (FutureGroup.complete u r s).1 (↑(FutureGroup.complete u r s).2 + others) := by
  have plain : ∀ made ∈ (FutureGroup.complete u r s).2, holds made = 0 := by
    intro made member
    rcases List.mem_append.mp member with listed | last
    · obtain ⟨k, -, one⟩ := List.mem_flatMap.mp listed
      rcases List.mem_cons.mp one with rfl | one
      · rfl
      · rw [List.mem_singleton.mp one]
        rfl
    · rw [List.mem_singleton.mp last]
      rfl
  have user (k : ℕ) : Function.update s.user u (some r) (s.source k) ≠ none ↔
      s.source k = u ∨ s.user (s.source k) ≠ none := by
    by_cases same : s.source k = u
    · simp [same]
    · simp [same]
  exact {
    lock := by
      rw [weight_add, weight_plain plain, zero_add]
      exact sane.lock
    fresh := sane.fresh
    futures := sane.futures
    distinct := sane.distinct
    tracked := sane.tracked
    apart := sane.apart
    source := fun k ready => (user k).mpr (Or.inr (sane.source k ready))
    due := by
      intro k
      have due := sane.due k
      simp only [FutureGroup.complete, weight_add, ← Multiset.coe_add]
      rw [weight_continuations, due]
      simp only [user]
      have distinct : ((List.range s.next).filter fun j =>
          decide (s.source j = u ∧ s.void j = none)).Nodup := List.nodup_range.filter _
      rw [distinct.count]
      by_cases here : s.source k = u
      · have before : s.user (s.source k) = none := by rw [here, unready]
        have waits : s.void k = none := by
          by_contra ready
          exact sane.source k ready before
        have unresolved : ¬ Ready s k := fun ready => ready waits
        simp [here, unready, waits, resolves, Ready]
      · simp [here, resolves, Ready]
    looping := by
      intro late rest requested member
      rcases Multiset.mem_add.mp member with made | old
      · have none_held := plain _ (Multiset.mem_coe.mp made)
        cases none_held
      · have loop := sane.looping late rest requested old
        exact ⟨loop.passed, loop.requested, loop.late, loop.again⟩
    running := by
      intro member
      rcases Multiset.mem_add.mp member with made | old
      · have none_held := plain _ (Multiset.mem_coe.mp made)
        cases none_held
      · exact sane.running old
    terminations := fun t member =>
      let kept := sane.terminations t member
      ⟨kept.entries, kept.distinct, kept.cancels, kept.requested, kept.counted, kept.ready,
        kept.value, kept.late⟩
    closed := sane.closed
    added := sane.added
    group := sane.group
    asserts := sane.asserts }

@[simp] theorem arrive_taken : (t.arrive k).taken = t.taken := by
  unfold Termination.arrive
  split <;> simp

@[simp] theorem arrive_late : (t.arrive k).late = t.late := by
  unfold Termination.arrive
  split <;> simp

theorem countP_ready (taken : List ℕ) (distinct : taken.Nodup) (waits : ¬ Ready s k)
    (r : Outcome) :
    taken.countP (fun j => decide (Function.update s.void k (some r) j ≠ none)) =
      taken.countP (fun j => decide (Ready s j)) + if k ∈ taken then 1 else 0 := by
  induction taken with
  | nil => rfl
  | cons j rest ih =>
    obtain ⟨absent, distinct⟩ := List.nodup_cons.mp distinct
    rw [List.countP_cons, List.countP_cons, ih distinct]
    by_cases same : j = k
    · subst same
      simp [absent, waits]
    · have other : k ≠ j := Ne.symm same
      have still : decide (Function.update s.void k (some r) j ≠ none) = decide (Ready s j) := by
        rw [decide_eq_decide, Function.update_of_ne same]
        rfl
      rw [still]
      simp only [List.mem_cons, other, false_or]
      omega

/-- A termination counts the entry that gets ready, where it took it. -/
theorem Kept.arrive (kept : Kept s t) (waits : ¬ Ready s k) (r : Outcome) :
    Kept { s with void := Function.update s.void k (some r) } (t.arrive k) := by
  have counted := countP_ready t.taken kept.distinct waits r
  have cancels : ∀ j ∈ t.taken, ¬ Function.update s.void k (some r) j ≠ none →
      j ∈ t.requested := by
    intro j taken unresolved
    refine kept.cancels j taken fun before => unresolved ?_
    by_cases same : j = k
    · simp [same]
    · rwa [Function.update_of_ne same]
  unfold Termination.arrive
  by_cases here : k ∈ t.taken
  · rw [if_pos here]
    have unfinished : t.future = none := by
      by_contra finished
      have full := kept.ready.mp finished
      rw [kept.counted] at full
      have all := List.countP_eq_length.mp full k here
      exact waits (by simpa using all)
    have future := finish_future (t := { t with count := t.count + 1 }) unfinished
    rw [if_pos here] at counted
    constructor
    · simpa using kept.entries
    · simpa using kept.distinct
    · simpa [Ready] using cancels
    · simpa using kept.requested
    · simp only [finish_count, finish_taken, kept.counted]
      exact counted.symm
    · exact future.1
    · exact future.2
    · simpa using kept.late
  · rw [if_neg here] at counted ⊢
    refine ⟨kept.entries, kept.distinct, cancels, kept.requested, ?_, kept.ready, kept.value,
      kept.late⟩
    rw [kept.counted]
    exact counted.symm

/-- An entry is resolved, and counted where it was taken. -/
theorem Sane.toVoid (sane : Sane s (.toVoid k ::ₘ others)) : Sane (toVoid k s) others := by
  have due := sane.due k
  simp only [weight_cons, resolves, ↓reduceIte] at due
  obtain ⟨bound, waits, ready⟩ : k < s.next ∧ ¬ Ready s k ∧ s.user (s.source k) ≠ none := by
    by_contra idle
    rw [if_neg idle] at due
    omega
  obtain ⟨r, result⟩ : ∃ r, voidResult s k = some r := by
    obtain ⟨r, held⟩ := Option.ne_none_iff_exists'.mp ready
    exact ⟨_, by rw [voidResult, held]; rfl⟩
  have once : weight (resolves k) others = 0 := by
    rw [if_pos ⟨bound, waits, ready⟩] at due
    omega
  have still (j : ℕ) : ¬ Function.update s.void k (some r) j ≠ none ↔ j ≠ k ∧ ¬ Ready s j := by
    by_cases same : j = k
    · subst same
      simp
    · simp [same, Ready]
  have keptMembers : ∀ call ∈ others, call ∈ GroupCall.toVoid k ::ₘ others := fun call member =>
    Multiset.mem_cons_of_mem member
  unfold FutureGroup.toVoid
  rw [result]
  dsimp only
  exact {
    lock := by
      have lock := sane.lock
      rw [weight_cons] at lock
      change 0 + _ = _ at lock
      rwa [zero_add] at lock
    fresh := by
      intro j beyond
      change s.next ≤ j at beyond
      have other : j ≠ k := by omega
      change Function.update s.void k (some r) j = none
      rw [Function.update_of_ne other]
      exact sane.fresh j beyond
    futures := sane.futures
    distinct := sane.distinct
    tracked := by
      intro j inside unresolved
      obtain ⟨-, before⟩ := (still j).mp unresolved
      rcases sane.tracked j inside before with listed | ⟨t, member, taken⟩
      · exact Or.inl listed
      · exact Or.inr ⟨t.arrive k, List.mem_map_of_mem member, by simpa using taken⟩
    apart := by
      intro t' member
      obtain ⟨t, old, rfl⟩ := List.mem_map.mp member
      rw [arrive_taken]
      exact sane.apart t old
    source := by
      intro j resolved
      by_cases same : j = k
      · rw [same]
        exact ready
      · refine sane.source j fun unset => resolved ?_
        change Function.update s.void k (some r) j = none
        rwa [Function.update_of_ne same]
    due := by
      intro j
      have before := sane.due j
      rw [weight_cons] at before
      by_cases same : j = k
      · subst same
        rw [once, if_neg]
        rintro ⟨-, unresolved, -⟩
        exact ((still j).mp unresolved).1 rfl
      · have other : resolves j (.toVoid k) = 0 := if_neg (Ne.symm same)
        rw [other, zero_add] at before
        rw [before]
        have after : ¬ Function.update s.void k (some r) j ≠ none ↔ ¬ Ready s j :=
          (still j).trans (and_iff_right same)
        exact if_congr (and_congr Iff.rfl (and_congr after.symm Iff.rfl)) rfl rfl
    looping := by
      intro late rest requested member
      have loop := sane.looping late rest requested (keptMembers _ member)
      obtain ⟨done, split, covered⟩ := loop.passed
      exact ⟨⟨done, split, fun j listed unresolved =>
        covered j listed ((still j).mp unresolved).2⟩, loop.requested, loop.late, fun group =>
        ⟨(loop.again group).1, fun some_before =>
          (loop.again group).2 fun none_before => some_before (by simp [none_before])⟩⟩
    running := fun member => sane.running (keptMembers _ member)
    terminations := by
      intro t' member
      obtain ⟨t, old, rfl⟩ := List.mem_map.mp member
      have kept := (sane.terminations t old).arrive waits r
      exact ⟨kept.entries, kept.distinct, kept.cancels, kept.requested, kept.counted, kept.ready,
        kept.value, kept.late⟩
    closed := sane.closed
    added := sane.added
    group := by
      intro group
      have before := sane.group group
      refine ⟨fun some_before => before.1 fun none_before => some_before (by simp [none_before]), ?_⟩
      intro t' member
      rw [← List.map_tail] at member
      obtain ⟨t, old, rfl⟩ := List.mem_map.mp member
      rw [arrive_late]
      exact before.2 t old
    asserts := by
      rw [sane.asserts, Bool.false_or, List.any_eq_false]
      intro t old full
      obtain ⟨here, all⟩ := of_decide_eq_true full
      have kept := sane.terminations t old
      have short : t.count < t.taken.length := by
        rw [kept.counted]
        exact List.countP_lt_length_iff.mpr ⟨k, here, by simpa using waits⟩
      omega }

end Tconcurrent.FutureGroup
