import Tconcurrent.JobTriggers

/-! The promises of `trigger_success`.

`_successPromises` is a window on the promises in the order of their making: what
lies before it is fulfilled, and the run in progress has captured a prefix of it.
`back()` is a promise that the run has not captured as long as `trigger_success`
finds one when it does not make one itself. -/
namespace Tconcurrent.Job
open Interleaving

variable {s s' : State} {pending others : Multiset JobAction} {call : JobAction}
  {calls : List JobAction} {k n i : ℕ} {thread : ℕ} {choice : Choice}

/-- `trigger_success` of a scheduled job finds a promise that the run in progress,
if there is one, has not captured. -/
def FindsPromise (s : State) (call : JobAction) (_ : Choice) : Prop :=
  call = .client (.trigger true) → s.scheduled = true →
    s.captured.getD 0 < s.successPromises.length

/-- The number of the first promise in `_successPromises`. -/
def base (s : State) : ℕ := s.nextPromise - s.successPromises.length

/-- The calls of `trigger_success` between `triggerImpl` and the return. -/
def Promising : JobCall → Prop
  | .assignFuture _ setPromise => setPromise = true
  | .returnFuture setPromise => setPromise = true
  | _ => False

theorem returning_of_promising {c : JobCall} (promising : Promising c) : Returning c := by
  cases c <;> trivial

structure Promised (s : State) (pending : Multiset JobAction) : Prop where
  enough : s.successPromises.length ≤ s.nextPromise
  numbered : s.successPromises = List.range' (base s) s.successPromises.length
  ordered : s.fulfilled.map Prod.fst = List.range s.fulfilled.length
  resting : (∀ k n i, .client (.setPromises k n i) ∉ pending) → s.fulfilled.length = base s
  looping : ∀ k n i, .client (.setPromises k n i) ∈ pending →
    s.fulfilled.length = base s + i ∧ i ≤ n ∧ ∃ v, (s.heap.states (.callback k)).r = some (.value v)
  bounded : ∀ n, s.captured = some n → n ≤ s.successPromises.length
  issuing : ∀ c, .client c ∈ pending → Promising c → s.captured.getD 0 < s.successPromises.length
  issued : ∀ p b, (p, b) ∈ s.issued → p < s.nextPromise ∧ b ≤ s.begun
  captured : ∀ n p b, s.captured = some n → (p, b) ∈ s.issued → (p < base s + n ↔ b < s.begun)
  later : ∀ p b k, (p, b) ∈ s.issued → (p, k) ∈ s.fulfilled → b < k
  successful : ∀ p k, (p, k) ∈ s.fulfilled →
    k ≤ s.begun ∧ ∃ v, (s.heap.states (.callback k)).r = some (.value v)
  succeeded : ∀ k ∈ s.succeeded, k ≤ s.begun ∧
    ∀ p b, (p, b) ∈ s.issued → b < k → ∃ k' ≤ k, (p, k') ∈ s.fulfilled
  back : s.backOfEmpty = false

/-- The fields that `Promised` is about. -/
structure SamePromises (s s' : State) : Prop where
  successPromises : s'.successPromises = s.successPromises
  nextPromise : s'.nextPromise = s.nextPromise
  fulfilled : s'.fulfilled = s.fulfilled
  issued : s'.issued = s.issued
  succeeded : s'.succeeded = s.succeeded
  captured : s'.captured = s.captured
  begun : s'.begun = s.begun
  backOfEmpty : s'.backOfEmpty = s.backOfEmpty

/-- A step that leaves the promises alone. -/
theorem Promised.frame (promised : Promised s (call ::ₘ others)) (same : SamePromises s s')
    (keeps : ∀ k r, (s.heap.states (.callback k)).r = some r →
      (s'.heap.states (.callback k)).r = some r) (before : ∀ k n i, call ≠ .client (.setPromises k n i))
    (after : ∀ k n i, .client (.setPromises k n i) ∉ calls)
    (promising : ∀ c, .client c ∈ calls → Promising c →
      s.captured.getD 0 < s.successPromises.length) :
    Promised s' (↑calls + others) := by
  have loop : ∀ k n i, .client (.setPromises k n i) ∈ (↑calls + others : Multiset JobAction) ↔
      .client (.setPromises k n i) ∈ call ::ₘ others := by
    intro k n i
    rw [Multiset.mem_add, Multiset.mem_cons, Multiset.mem_coe]
    simp [after, (before k n i).symm]
  have first : base s' = base s := by rw [base, base, same.nextPromise, same.successPromises]
  refine ⟨?_, ?_, ?_, fun none => ?_, fun k n i member => ?_, ?_, fun c member makes => ?_, ?_, ?_,
    ?_, fun p k member => ?_, ?_, ?_⟩
  · rw [same.successPromises, same.nextPromise]
    exact promised.enough
  · rw [first, same.successPromises]
    exact promised.numbered
  · rw [same.fulfilled]
    exact promised.ordered
  · rw [first, same.fulfilled]
    exact promised.resting fun k n i member => none k n i ((loop k n i).mpr member)
  · rw [first, same.fulfilled]
    obtain ⟨count, bound, v, result⟩ := promised.looping k n i ((loop k n i).mp member)
    exact ⟨count, bound, v, keeps _ _ result⟩
  · rw [same.captured, same.successPromises]
    exact promised.bounded
  · rw [same.captured, same.successPromises]
    rcases Multiset.mem_add.mp member with made | other
    · exact promising c (Multiset.mem_coe.mp made) makes
    · exact promised.issuing c (Multiset.mem_cons_of_mem other) makes
  · rw [same.issued, same.nextPromise, same.begun]
    exact promised.issued
  · rw [same.captured, same.issued, first, same.begun]
    exact promised.captured
  · rw [same.issued, same.fulfilled]
    exact promised.later
  · rw [same.fulfilled] at member
    obtain ⟨bound, v, result⟩ := promised.successful p k member
    exact ⟨same.begun ▸ bound, v, keeps _ _ result⟩
  · rw [same.succeeded, same.begun, same.issued, same.fulfilled]
    exact promised.succeeded
  · rw [same.backOfEmpty]
    exact promised.back

theorem Promised.user (promised : Promised s pending) :
    Promised s (.client .user ::ₘ pending) where
  enough := promised.enough
  numbered := promised.numbered
  ordered := promised.ordered
  resting none := promised.resting fun k n i member =>
    none k n i (Multiset.mem_cons_of_mem member)
  looping k n i member := promised.looping k n i (by simpa using member)
  bounded := promised.bounded
  issuing c member makes := by
    rcases Multiset.mem_cons.mp member with same | other
    · cases same
      exact makes.elim
    · exact promised.issuing c other makes
  issued := promised.issued
  captured := promised.captured
  later := promised.later
  successful := promised.successful
  succeeded := promised.succeeded
  back := promised.back

theorem Promised.withMutex (promised : Promised s pending) (mutex : Option (ℕ × ℕ)) :
    Promised { s with mutex } pending := { promised with }

theorem Promised.acquire (promised : Promised s pending) {s₁ : State}
    (acquired : acquire thread s = some s₁) : Promised s₁ pending := by
  obtain ⟨mutex, rfl⟩ := acquire_eq acquired
  exact promised.withMutex mutex

theorem Promised.release (promised : Promised s pending) : Promised (release s) pending := by
  obtain ⟨mutex, same⟩ := release_eq s
  rw [same]
  exact promised.withMutex mutex

theorem Promised.library (sane : Sane s (call ::ₘ others)) (promised : Promised s (call ::ₘ others))
    (library : ∀ c, call ≠ .client c) :
    Promised { s with heap := (s.heap.exec call).1 } (↑(s.heap.exec call).2 + others) := by
  have respects := sane.wired.calls call (Multiset.mem_cons_self _ _)
  have quiet := quiet_closures sane.wired.heap respects
  refine promised.frame ⟨rfl, rfl, rfl, rfl, rfl, rfl, rfl, rfl⟩ ?_ (fun _ _ _ => library _) ?_ ?_
  · refine fun k r => Heap.keeps_exec (fun p r same => ?_) (.callback k) r
    subst same
    exact sane.unresolved (Multiset.mem_cons_self _ _)
  · intro k n i member
    have weighs := (quiet _ member).1
    cases weighs
  · intro c member makes
    have weighs := releases_of_returning (returning_of_promising makes)
    simp [(quiet _ member).1] at weighs

/-! ## The steps that concern promises -/

/-- Only one run sets promises at a time. -/
theorem Sane.no_loop (sane : Sane s (.client (.runContinuation k n) ::ₘ others)) (k' n' i : ℕ) :
    .client (.setPromises k' n' i) ∉ others := by
  intro member
  obtain ⟨current, captured⟩ := sane.window_current (Multiset.mem_cons_self _ _)
    (show (Duty.window k n).Counts _ = true by simp [Duty.Counts])
  obtain ⟨current', captured'⟩ := sane.window_current (Multiset.mem_cons_of_mem member)
    (show (Duty.window k' n').Counts _ = true by simp [Duty.Counts])
  have once := sane.rest_owes (.continuing k) (Bool.toNat_le _)
    (by simp [Account.owes, Duty.account, Duty.Counts]) _ member
  rw [current, current'] at once
  simp [Account.owes, Duty.account, Duty.Counts] at once

/-- What is fulfilled lies before what the run in progress has not captured. -/
theorem Promised.fulfilled_le (sane : Sane s pending) (promised : Promised s pending) :
    s.fulfilled.length ≤ base s + s.captured.getD 0 := by
  by_cases none : ∀ k n i, .client (.setPromises k n i) ∉ pending
  · have := promised.resting none
    omega
  · push Not at none
    obtain ⟨k, n, i, member⟩ := none
    obtain ⟨count, bound, -⟩ := promised.looping k n i member
    have captured := (sane.window_current member
      (show (Duty.window k n).Counts _ = true by simp [Duty.Counts])).2
    rw [captured, Option.getD_some]
    omega

theorem promised_trigger {setPromise : Bool}
    (promised : Promised s (.client (.trigger setPromise) ::ₘ others))
    (finds : setPromise = true → s.scheduled = true →
      s.captured.getD 0 < s.successPromises.length) :
    Promised (trigger setPromise s).1 (↑(trigger setPromise s).2 + others) := by
  unfold trigger
  split
  · rename_i scheduled
    refine promised.frame ⟨rfl, rfl, rfl, rfl, rfl, rfl, rfl, rfl⟩ (fun _ _ => id) (by simp)
      (by simp) ?_
    intro c member makes
    obtain rfl : c = .returnFuture setPromise := by simpa using member
    exact finds makes scheduled
  · cases setPromise with
    | false =>
      refine promised.frame ⟨by simp, rfl, rfl, rfl, rfl, rfl, rfl, rfl⟩
        (by simp [Heap.setState_states_ne]) (by simp) (by simp) ?_
      intro c member makes
      obtain rfl : c = .assignFuture (s.count + 1) false := by simpa using member
      cases makes
    | true =>
      have first : s.nextPromise + 1 - (s.successPromises ++ [s.nextPromise]).length = base s := by
        simp [base]
      have room := promised.enough
      have captured : s.captured.getD 0 < s.successPromises.length + 1 := by
        cases held : s.captured with
        | none => simp
        | some n =>
          have := promised.bounded n held
          simp only [Option.getD_some]
          omega
      refine ⟨?_, ?_, promised.ordered, fun none => ?_, fun k n i member => ?_, fun n held => ?_,
        fun _ _ _ => ?_, fun p b member => ?_, fun n p b => ?_, promised.later, fun p k member => ?_,
        promised.succeeded, promised.back⟩
      · simp [room]
      · change s.successPromises ++ [s.nextPromise] =
          List.range' (s.nextPromise + 1 - (s.successPromises ++ [s.nextPromise]).length)
            (s.successPromises ++ [s.nextPromise]).length
        rw [first, List.length_append, List.length_singleton, List.range'_1_concat,
          ← promised.numbered, base, Nat.sub_add_cancel room]
      · simp only [if_true, base, first]
        exact promised.resting fun k n i member => none k n i (by simpa using member)
      · simp only [if_true, base, first]
        obtain ⟨count, bound, v, result⟩ := promised.looping k n i (by simpa using member)
        exact ⟨count, bound, v, by simpa [Heap.setState_states_ne] using result⟩
      · have := promised.bounded n held
        simp only [if_true, List.length_append]
        omega
      · simpa using captured
      · have := promised.issued p b member
        simp only [if_true]
        omega
      · simp only [if_true, base, first]
        exact promised.captured n p b
      · simpa [Heap.setState_states_ne] using promised.successful p k member

/-- The promise that `back()` finds is not captured and not fulfilled. -/
theorem promised_returnFuture {setPromise : Bool}
    (sane : Sane s (.client (.returnFuture setPromise) ::ₘ others))
    (promised : Promised s (.client (.returnFuture setPromise) ::ₘ others)) :
    Promised (returnFuture setPromise s) (↑([] : List JobAction) + others) := by
  unfold returnFuture
  dsimp only
  split
  · rename_i makes
    have finds := promised.issuing _ (Multiset.mem_cons_self _ _) makes
    have room := promised.enough
    have first : base s + s.successPromises.length = s.nextPromise := Nat.sub_add_cancel room
    have last : s.successPromises.getLast? = some (s.nextPromise - 1) := by
      rw [promised.numbered, List.getLast?_range', if_neg (by omega), first]
    have unset : ∀ k, (s.nextPromise - 1, k) ∉ s.fulfilled := by
      intro k member
      have listed : s.nextPromise - 1 ∈ s.fulfilled.map Prod.fst := List.mem_map_of_mem member
      have := Promised.fulfilled_le sane promised
      rw [promised.ordered, List.mem_range] at listed
      omega
    rw [last]
    dsimp only
    refine ⟨promised.enough, promised.numbered, promised.ordered, fun none => ?_,
      fun k n i member => promised.looping k n i (by simpa using member), promised.bounded,
      fun c member => promised.issuing c (by simpa using Or.inr member), fun p b member => ?_,
      fun n p b held member => ?_, fun p b k member done => ?_, promised.successful,
      fun k ended => ⟨(promised.succeeded k ended).1, fun p b member before => ?_⟩, promised.back⟩
    · exact promised.resting fun k n i member => none k n i (by simpa using member)
    · rcases List.mem_append.mp member with old | new
      · exact promised.issued p b old
      · obtain ⟨rfl, rfl⟩ : p = s.nextPromise - 1 ∧ b = s.begun := by simpa using new
        have small : s.nextPromise - 1 < s.nextPromise := by omega
        exact ⟨small, le_rfl⟩
    · rcases List.mem_append.mp member with old | new
      · exact promised.captured n p b held old
      · obtain ⟨rfl, rfl⟩ : p = s.nextPromise - 1 ∧ b = s.begun := by simpa using new
        rw [held, Option.getD_some] at finds
        simp only [lt_irrefl, iff_false]
        change ¬ s.nextPromise - 1 < base s + n
        omega
    · rcases List.mem_append.mp member with old | new
      · exact promised.later p b k old done
      · obtain ⟨rfl, rfl⟩ : p = s.nextPromise - 1 ∧ b = s.begun := by simpa using new
        exact absurd done (unset k)
    · rcases List.mem_append.mp member with old | new
      · exact (promised.succeeded k ended).2 p b old before
      · obtain ⟨rfl, rfl⟩ : p = s.nextPromise - 1 ∧ b = s.begun := by simpa using new
        have := (promised.succeeded k ended).1
        omega
  · exact promised.frame ⟨rfl, rfl, rfl, rfl, rfl, rfl, rfl, rfl⟩ (fun _ _ => id) (by simp)
      (by simp) (by simp)

theorem promised_runBody (sane : Sane s (.client (.runBody k) ::ₘ others))
    (promised : Promised s (.client (.runBody k) ::ₘ others)) (alone : weight releases others = 0) :
    Promised (runBody k s).1 (↑(runBody k s).2 + others) := by
  obtain ⟨-, next, -, idle, -⟩ := sane.next_begins
  have room := promised.enough
  have first : base s + s.successPromises.length = s.nextPromise := Nat.sub_add_cancel room
  have quiet : ∀ c, .client c ∈ others → releases (.client c) = 0 := by
    intro c member
    have small := measure_le_weight releases member
    omega
  have makes : ∀ c, .client c ∈ others → ¬ Promising c := by
    intro c member promising
    have weighs := releases_of_returning (returning_of_promising promising)
    simp [quiet c member] at weighs
  have noLoop : ∀ k n i, .client (.setPromises k n i) ∉ others := by
    intro k n i member
    cases quiet _ member
  unfold runBody
  dsimp only
  split
  · refine ⟨room, promised.numbered, promised.ordered, fun none => ?_, fun j n i member => ?_,
      promised.bounded, fun c member promising => ?_, fun p b member => ?_, fun n p b held => ?_,
      promised.later, fun p j member => ?_, fun j ended => ?_, promised.back⟩
    · exact promised.resting (by simpa using noLoop)
    · exact absurd (by simpa using member) (noLoop j n i)
    · exact absurd promising (makes c (by simpa using member))
    · have := promised.issued p b member
      exact ⟨this.1, by simp only; omega⟩
    · simp [idle] at held
    · have := promised.successful p j member
      exact ⟨by simp only; omega, this.2⟩
    · have := promised.succeeded j ended
      exact ⟨by simp only; omega, this.2⟩
  · refine ⟨room, promised.numbered, promised.ordered, fun none => ?_, fun j n i member => ?_,
      fun n held => ?_, fun c member promising => ?_, fun p b member => ?_,
      fun n p b held member => ?_, promised.later, fun p j member => ?_, fun j ended => ?_,
      promised.back⟩
    · exact promised.resting (by simpa using noLoop)
    · exact absurd (by simpa using member) (noLoop j n i)
    · exact (Option.some.inj held).ge
    · rcases Multiset.mem_add.mp member with made | other
      · obtain rfl : c = .callCallback k s.successPromises.length := by simpa using made
        exact promising.elim
      · exact absurd promising (makes c other)
    · have := promised.issued p b member
      exact ⟨this.1, by simp only; omega⟩
    · obtain rfl := Option.some.inj held
      have := promised.issued p b member
      change p < base s + s.successPromises.length ↔ b < k
      omega
    · have := promised.successful p j member
      exact ⟨by simp only; omega, this.2⟩
    · have := promised.succeeded j ended
      exact ⟨by simp only; omega, this.2⟩

/-- A run that fails keeps its promises for the next one. -/
theorem promised_fails {c : JobCall} (promised : Promised s (.client c ::ₘ others))
    (plain : ∀ k n i, c ≠ .setPromises k n i) (call : JobAction) (made : ∀ c, call ≠ .client c) :
    Promised { s with running := false, captured := none } (↑([call] : List JobAction) + others) := by
  have back : ∀ c', .client c' ∈ (↑[call] + others : Multiset JobAction) → .client c' ∈ others := by
    intro c' member
    rcases Multiset.mem_add.mp member with same | other
    · exact absurd (List.mem_singleton.mp (Multiset.mem_coe.mp same)).symm (made c')
    · exact other
  refine ⟨promised.enough, promised.numbered, promised.ordered, fun none => ?_,
    fun k n i member => promised.looping k n i (Multiset.mem_cons_of_mem (back _ member)),
    fun n held => (by cases held), fun c' member promising => ?_, promised.issued,
    fun n p b held => (by cases held), promised.later, promised.successful, promised.succeeded,
    promised.back⟩
  · refine promised.resting fun k n i member => ?_
    rcases Multiset.mem_cons.mp member with same | other
    · exact plain k n i (by simpa using same.symm)
    · exact none k n i (Multiset.mem_add.mpr (Or.inr other))
  · have := promised.issuing c' (Multiset.mem_cons_of_mem (back _ member)) promising
    exact (Nat.zero_le _).trans_lt this

/-- The loop over the promises begins. -/
theorem promised_loops (sane : Sane s (.client (.runContinuation k n) ::ₘ others))
    (promised : Promised s (.client (.runContinuation k n) ::ₘ others)) {v : Value JobState JobToken}
    (result : (s.heap.states (.callback k)).r = some (.value v)) :
    Promised { s with running := false }
      (↑([.client (.setPromises k n 0)] : List JobAction) + others) := by
  have noLoop := sane.no_loop
  refine ⟨promised.enough, promised.numbered, promised.ordered, fun none => ?_,
    fun j m i member => ?_, promised.bounded, fun c member promising => ?_, promised.issued,
    promised.captured, promised.later, promised.successful, promised.succeeded, promised.back⟩
  · exact absurd (by simp) (none k n 0)
  · rcases Multiset.mem_add.mp member with made | other
    · obtain ⟨rfl, rfl, rfl⟩ : j = k ∧ m = n ∧ i = 0 := by simpa using made
      exact ⟨promised.resting (by simpa using noLoop), Nat.zero_le _, v, result⟩
    · exact absurd other (noLoop j m i)
  · rcases Multiset.mem_add.mp member with made | other
    · obtain rfl : c = .setPromises k n 0 := by simpa using made
      exact promising.elim
    · exact promised.issuing c (Multiset.mem_cons_of_mem other) promising

theorem Sane.one_loop (sane : Sane s (.client (.setPromises k n i) ::ₘ others)) (k' n' i' : ℕ) :
    .client (.setPromises k' n' i') ∉ others := by
  intro member
  have current := (sane.window_current (Multiset.mem_cons_self _ _)
    (show (Duty.window k n).Counts _ = true by simp [Duty.Counts])).1
  have current' := (sane.window_current (Multiset.mem_cons_of_mem member)
    (show (Duty.window k' n').Counts _ = true by simp [Duty.Counts])).1
  have once := sane.rest_owes (.continuing k) (Bool.toNat_le _)
    (by simp [Account.owes, Duty.account, Duty.Counts]) _ member
  rw [current, current'] at once
  simp [Account.owes, Duty.account, Duty.Counts] at once

/-- One round of the loop fulfils the first promise that is not fulfilled. -/
theorem promised_round (sane : Sane s (.client (.setPromises k n i) ::ₘ others))
    (promised : Promised s (.client (.setPromises k n i) ::ₘ others)) (inside : i < n) :
    Promised { s with fulfilled := s.fulfilled ++ [(base s + i, k)] }
      (↑([.client .user, .client (.setPromises k n (i + 1))] : List JobAction) + others) := by
  have noLoop := sane.one_loop
  obtain ⟨count, -, v, result⟩ := promised.looping k n i (Multiset.mem_cons_self _ _)
  obtain ⟨current, captured⟩ := sane.window_current (Multiset.mem_cons_self _ _)
    (show (Duty.window k n).Counts _ = true by simp [Duty.Counts])
  refine ⟨promised.enough, promised.numbered, ?_, fun none => ?_, fun j m i' member => ?_,
    promised.bounded, fun c member promising => ?_, promised.issued, promised.captured,
    fun p b j member done => ?_, fun p j done => ?_, fun j ended => ?_, promised.back⟩
  · simp only [List.map_append, List.map_cons, List.map_nil, promised.ordered,
      List.length_append, List.length_singleton, List.range_succ, count]
  · exact absurd (by simp) (none k n (i + 1))
  · rcases Multiset.mem_add.mp member with made | other
    · obtain ⟨rfl, rfl, rfl⟩ : j = k ∧ m = n ∧ i' = i + 1 := by simpa using made
      refine ⟨?_, inside, v, result⟩
      rw [List.length_append, List.length_singleton, count]
      rfl
    · exact absurd other (noLoop j m i')
  · rcases Multiset.mem_add.mp member with made | other
    · obtain rfl | rfl : c = .user ∨ c = .setPromises k n (i + 1) := by simpa using made
      · exact promising.elim
      · exact promising.elim
    · exact promised.issuing c (Multiset.mem_cons_of_mem other) promising
  · rcases List.mem_append.mp done with old | new
    · exact promised.later p b j member old
    · obtain ⟨rfl, rfl⟩ : p = base s + i ∧ j = k := by simpa using new
      rw [current]
      exact (promised.captured n _ b captured member).mp (by omega)
  · rcases List.mem_append.mp done with old | new
    · exact promised.successful p j old
    · obtain ⟨rfl, rfl⟩ : p = base s + i ∧ j = k := by simpa using new
      exact ⟨current.le, v, result⟩
  · refine ⟨(promised.succeeded j ended).1, fun p b member before => ?_⟩
    obtain ⟨j', bound, done⟩ := (promised.succeeded j ended).2 p b member before
    exact ⟨j', bound, List.mem_append_left _ done⟩

/-- A run that has fulfilled all it captured has succeeded. -/
theorem promised_end (sane : Sane s (.client (.setPromises k n i) ::ₘ others))
    (promised : Promised s (.client (.setPromises k n i) ::ₘ others)) (outside : ¬ i < n)
    (call : JobAction) (made : ∀ c, call ≠ .client c) :
    Promised { s with
      successPromises := s.successPromises.drop n
      captured := none
      succeeded := s.succeeded ++ [k] } (↑([call] : List JobAction) + others) := by
  have noLoop := sane.one_loop
  obtain ⟨count, bound, v, result⟩ := promised.looping k n i (Multiset.mem_cons_self _ _)
  obtain ⟨current, captured⟩ := sane.window_current (Multiset.mem_cons_self _ _)
    (show (Duty.window k n).Counts _ = true by simp [Duty.Counts])
  obtain rfl : i = n := by omega
  have room := promised.enough
  have small := promised.bounded i captured
  have first : s.nextPromise - (s.successPromises.drop i).length = base s + i := by
    rw [List.length_drop, base]
    omega
  have back : ∀ c, .client c ∈ (↑[call] + others : Multiset JobAction) → .client c ∈ others := by
    intro c member
    rcases Multiset.mem_add.mp member with same | other
    · exact absurd (List.mem_singleton.mp (Multiset.mem_coe.mp same)).symm (made c)
    · exact other
  refine ⟨?_, ?_, promised.ordered, fun _ => ?_, fun j m i' member => ?_, fun m held => (by cases held),
    fun c member promising => ?_, promised.issued, fun m p b held => (by cases held),
    promised.later, promised.successful, fun j ended => ?_, promised.back⟩
  · simp only [List.length_drop]
    omega
  · change s.successPromises.drop i = List.range'
      (s.nextPromise - (s.successPromises.drop i).length) (s.successPromises.drop i).length
    rw [first, List.length_drop]
    conv_lhs => rw [promised.numbered]
    rw [List.drop_range', mul_one]
  · exact count.trans first.symm
  · exact absurd (back _ member) (noLoop j m i')
  · have finds := promised.issuing c (Multiset.mem_cons_of_mem (back _ member)) promising
    rw [captured, Option.getD_some] at finds
    simp only [Option.getD_none, List.length_drop]
    omega
  · rcases List.mem_append.mp ended with old | new
    · exact promised.succeeded j old
    · obtain rfl := List.mem_singleton.mp new
      refine ⟨current.le, fun p b member before => ?_⟩
      have inside := (promised.captured i p b captured member).mpr (current ▸ before)
      have listed : p ∈ s.fulfilled.map Prod.fst := by
        rw [promised.ordered, List.mem_range]
        omega
      obtain ⟨⟨q, j'⟩, done, same⟩ := List.mem_map.mp listed
      obtain rfl : q = p := same
      exact ⟨j', current ▸ (promised.successful q j' done).1, done⟩

theorem promised_setPromises (sane : Sane s (.client (.setPromises k n i) ::ₘ others))
    (promised : Promised s (.client (.setPromises k n i) ::ₘ others)) :
    Promised (setPromises k n i s).1 (↑(setPromises k n i s).2 + others) := by
  have captured := (sane.window_current (Multiset.mem_cons_self _ _)
    (show (Duty.window k n).Counts _ = true by simp [Duty.Counts])).2
  unfold setPromises
  split
  · rename_i inside
    have bound := promised.bounded n captured
    have found : s.successPromises[i]? = some (base s + i) := by
      rw [promised.numbered, List.getElem?_range' (by omega), one_mul]
    rw [found]
    exact promised_round sane promised inside
  · rename_i outside
    exact Promised.release (promised_end sane promised outside _ (by simp))

/-- A closure that leaves the promises and the heap alone. -/
theorem Promised.plain {c : JobCall} (promised : Promised s (.client c ::ₘ others))
    (same : SamePromises s s') (heap : s'.heap = s.heap) (before : ∀ k n i, c ≠ .setPromises k n i)
    (after : ∀ k n i, .client (.setPromises k n i) ∉ calls)
    (makes : ∀ c', .client c' ∈ calls → ¬ Promising c') : Promised s' (↑calls + others) :=
  promised.frame same (by simp [heap]) (by simpa using before) after
    (fun c' member promising => absurd promising (makes c' member))

theorem promised_user {step : JobStep} (promised : Promised s (.client .user ::ₘ others))
    (ran : user s choice = some step) : Promised step.1 (↑step.2 + others) := by
  cases choice <;> simp only [user] at ran
  case trigger =>
    split at ran
    · cases ran
    · cases ran
      exact promised.plain ⟨rfl, rfl, rfl, rfl, rfl, rfl, rfl, rfl⟩ rfl (by simp) (by simp)
        (by simp [Promising])
  case resolve =>
    split at ran
    · cases ran
      exact promised.plain ⟨rfl, rfl, rfl, rfl, rfl, rfl, rfl, rfl⟩ rfl (by simp) (by simp)
        (by simp [Promising])
    · cases ran
  case destroy =>
    split at ran
    · cases ran
    · cases ran
      exact promised.plain ⟨rfl, rfl, rfl, rfl, rfl, rfl, rfl, rfl⟩ rfl (by simp) (by simp)
        (by simp [Promising])
  case requestCancel =>
    cases ran
    exact promised.plain ⟨rfl, rfl, rfl, rfl, rfl, rfl, rfl, rfl⟩ rfl (by simp) (by simp)
      (by simp [Promising])
  case «return» =>
    cases ran
    exact promised.plain ⟨rfl, rfl, rfl, rfl, rfl, rfl, rfl, rfl⟩ rfl (by simp) (by simp) (by simp)
  all_goals cases ran

theorem promised_executor {step : JobStep} (promised : Promised s (.client .executor ::ₘ others))
    (ran : executor s choice = some step) : Promised step.1 (↑step.2 + others) := by
  cases choice <;> simp only [executor] at ran
  case run =>
    split at ran
    · cases ran
      exact promised.plain ⟨rfl, rfl, rfl, rfl, rfl, rfl, rfl, rfl⟩ rfl (by simp) (by simp)
        (by simp [Promising])
    · cases ran
  case drop =>
    split at ran
    · split at ran
      · cases ran
        exact promised.plain ⟨rfl, rfl, rfl, rfl, rfl, rfl, rfl, rfl⟩ rfl (by simp) (by simp)
          (by simp [Promising])
      · cases ran
        exact promised.plain ⟨rfl, rfl, rfl, rfl, rfl, rfl, rfl, rfl⟩ rfl (by simp) (by simp)
          (by simp [Promising])
    · cases ran
  case «return» =>
    cases ran
    exact promised.plain ⟨rfl, rfl, rfl, rfl, rfl, rfl, rfl, rfl⟩ rfl (by simp) (by simp)
      (by simp [Promising])
  all_goals cases ran

theorem promised_chainContinuation (promised : Promised s (.client (.chainContinuation k) ::ₘ others)) :
    Promised (chainContinuation k s).1 (↑(chainContinuation k s).2 + others) := by
  unfold chainContinuation
  dsimp only
  split
  · refine Promised.release ?_
    exact promised.plain ⟨rfl, rfl, rfl, rfl, rfl, rfl, rfl, rfl⟩ rfl (by simp) (by simp) (by simp)
  · exact promised.frame ⟨rfl, rfl, rfl, rfl, rfl, rfl, rfl, rfl⟩
      (by simp [Heap.setState_states_ne]) (by simp) (by simp) (by simp [Promising])

/-- The future that the callback returns is a new one. -/
theorem promised_returnCallback (sane : Sane s (.client (.returnCallback k n) ::ₘ others))
    (promised : Promised s (.client (.returnCallback k n) ::ₘ others)) (r : Option JobResult) :
    Promised (returnCallback k n r s).1 (↑(returnCallback k n r s).2 + others) := by
  have unset : ¬ s.heap.Ready (.callback k) := by
    intro ready
    have due := sane.due_of_ready ready
    have uncreated : s.created k = false := (sane.expected _ (Multiset.mem_cons_self _ _)).2
    have produced : s.produced k = true := by simpa [dutyOf, Duty.due] using due
    simp [sane.ordered.produced_created k produced] at uncreated
  refine promised.frame ⟨rfl, rfl, rfl, rfl, rfl, rfl, rfl, rfl⟩ (fun j r' held => ?_) (by simp)
    (by simp [returnCallback]) (by simp [returnCallback])
  have other : j ≠ k := by
    rintro rfl
    exact unset (Heap.ready_of_result held)
  simpa [returnCallback, Heap.setState_states_ne, other] using held

theorem promised_runContinuation {step : JobStep}
    (sane : Sane s (.client (.runContinuation k n) ::ₘ others))
    (promised : Promised s (.client (.runContinuation k n) ::ₘ others))
    (continued : runContinuation k n s = some step) : Promised step.1 (↑step.2 + others) := by
  unfold runContinuation at continued
  split at continued
  · cases continued
    exact Promised.release (promised_fails promised (by simp) _ (by simp))
  · rename_i v result
    cases continued
    exact promised_loops sane promised result
  · cases continued

theorem promised_clientExec {c : JobCall} {step : JobStep} (sane : Sane s (.client c ::ₘ others))
    (promised : Promised s (.client c ::ₘ others)) (allowed : FindsPromise s (.client c) choice)
    (free : mutexUse.bottom (.client c) → mutexUse.releases (.client c) = 0 →
      (∀ other ≠ thread, 0 < mutexUse.held s thread ∨ mutexUse.held s other = 0) →
      weight mutexUse.releases others = 0)
    (ran : clientExec thread choice s c = some step) : Promised step.1 (↑step.2 + others) := by
  cases c with
  | user => exact promised_user promised ran
  | executor => exact promised_executor promised ran
  | trigger setPromise =>
    obtain ⟨s₁, acquired, rfl⟩ := Option.map_eq_some_iff.mp ran
    obtain ⟨mutex, rfl⟩ := acquire_eq acquired
    refine promised_trigger (promised.withMutex mutex) fun makes scheduled => ?_
    subst makes
    exact allowed rfl scheduled
  | assignFuture k setPromise =>
    have issuing := promised.issuing _ (Multiset.mem_cons_self _ _)
    cases ran
    refine promised.frame ⟨rfl, rfl, rfl, rfl, rfl, rfl, rfl, rfl⟩ (fun _ _ => id) (by simp)
      (by simp) fun c member promising => ?_
    obtain rfl : c = .returnFuture setPromise := by simpa using member
    exact issuing promising
  | returnFuture setPromise =>
    cases ran
    exact Promised.release (promised_returnFuture sane promised)
  | chainContinuation k =>
    obtain ⟨s₁, acquired, rfl⟩ := Option.map_eq_some_iff.mp ran
    exact promised_chainContinuation (promised.acquire acquired)
  | endReschedule k =>
    cases ran
    refine Promised.release ?_
    exact promised.plain ⟨rfl, rfl, rfl, rfl, rfl, rfl, rfl, rfl⟩ rfl (by simp) (by simp) (by simp)
  | packagedTask k =>
    simp only [clientExec] at ran
    split at ran
    · cases ran
      exact promised.plain ⟨rfl, rfl, rfl, rfl, rfl, rfl, rfl, rfl⟩ rfl (by simp) (by simp) (by simp)
    · cases ran
      exact promised.plain ⟨rfl, rfl, rfl, rfl, rfl, rfl, rfl, rfl⟩ rfl (by simp) (by simp)
        (by simp [Promising])
  | runBody k =>
    obtain ⟨s₁, acquired, rfl⟩ := Option.map_eq_some_iff.mp ran
    refine Promised.release ?_
    exact promised_runBody (sane.acquire acquired) (promised.acquire acquired)
      (free trivial rfl fun other different => ((acquire_held acquired).2 other different).2)
  | callCallback k n =>
    cases ran
    exact promised.plain ⟨rfl, rfl, rfl, rfl, rfl, rfl, rfl, rfl⟩ rfl (by simp) (by simp)
      (by simp [Promising])
  | returnCallback k n =>
    cases choice with
    | throws e =>
      cases ran
      exact promised.plain ⟨rfl, rfl, rfl, rfl, rfl, rfl, rfl, rfl⟩ rfl (by simp) (by simp)
        (by simp [Promising])
    | returns r =>
      cases ran
      exact promised_returnCallback sane promised r
    | _ => cases ran
  | catchCallback k n e =>
    obtain ⟨s₁, acquired, rfl⟩ := Option.map_eq_some_iff.mp ran
    exact Promised.release (promised_fails (promised.acquire acquired) (by simp) _ (by simp))
  | runContinuation k n =>
    obtain ⟨s₁, acquired, continued⟩ := Option.bind_eq_some_iff.mp ran
    exact promised_runContinuation (sane.acquire acquired) (promised.acquire acquired) continued
  | setPromises k n i =>
    obtain rfl : setPromises k n i s = step := Option.some.inj ran
    exact promised_setPromises sane promised
  | cancelTask k =>
    simp only [clientExec] at ran
    split at ran
    · cases ran
      exact promised.plain ⟨rfl, rfl, rfl, rfl, rfl, rfl, rfl, rfl⟩ rfl (by simp) (by simp) (by simp)
    · cases ran
      exact promised.plain ⟨rfl, rfl, rfl, rfl, rfl, rfl, rfl, rfl⟩ rfl (by simp) (by simp) (by simp)
  | destroy =>
    obtain ⟨s₁, acquired, rfl⟩ := Option.map_eq_some_iff.mp ran
    obtain ⟨mutex, rfl⟩ := acquire_eq acquired
    refine Promised.release ?_
    exact promised.plain ⟨rfl, rfl, rfl, rfl, rfl, rfl, rfl, rfl⟩ rfl (by simp) (by simp)
      (by simp [Promising])
  | waitDestroyed p =>
    simp only [clientExec] at ran
    split at ran
    · cases ran
      exact promised.plain ⟨rfl, rfl, rfl, rfl, rfl, rfl, rfl, rfl⟩ rfl (by simp) (by simp) (by simp)
    · cases ran

theorem promised_exec (sane : Sane s (call ::ₘ others)) (promised : Promised s (call ::ₘ others))
    (allowed : FindsPromise s call choice)
    (free : mutexUse.bottom call → mutexUse.releases call = 0 →
      (∀ other ≠ thread, 0 < mutexUse.held s thread ∨ mutexUse.held s other = 0) →
      weight mutexUse.releases others = 0)
    (ran : exec thread choice s call = some (s', calls)) : Promised s' (↑calls + others) := by
  by_cases program : ∃ c, call = .client c
  · obtain ⟨c, rfl⟩ := program
    exact promised_clientExec sane promised allowed free ran
  · have other : ∀ c, call ≠ .client c := fun c same => program ⟨c, same⟩
    rw [exec_library other] at ran
    cases ran
    exact with_userCode (Promised _) (fun _ => Promised.user) (promised.library sane other)

theorem promised_start (threads : ℕ) :
    Promised (start threads).state (start threads).pending where
  enough := by simp [start]
  numbered := by simp [start]
  ordered := by simp [start]
  resting _ := by simp [start, base]
  looping k n i member := by simpa using pending_start member
  bounded := by simp [start]
  issuing c member makes := by
    rcases pending_start member with same | same <;> cases same <;> exact makes.elim
  issued := by simp [start]
  captured := by simp [start]
  later := by simp [start]
  successful := by simp [start]
  succeeded := by simp [start]
  back := rfl

/-! ## The promises that are returned -/

/-- `trigger_success` never takes `back()` of an empty list, a promise that it has
returned is fulfilled only by a run that began later and ended without error,
no promise is fulfilled twice, and a run that succeeds leaves no promise pending
that was returned before it began. -/
def RightPromises (s : State) : Prop :=
  s.backOfEmpty = false ∧
    (∀ p b k, (p, b) ∈ s.issued → (p, k) ∈ s.fulfilled →
      b < k ∧ ∃ v, (s.heap.states (.callback k)).r = some (.value v)) ∧
    (s.fulfilled.map Prod.fst).Nodup ∧
    ∀ k ∈ s.succeeded, ∀ p b, (p, b) ∈ s.issued → b < k → ∃ k' ≤ k, (p, k') ∈ s.fulfilled

/-- **Under the condition every promise is right.** -/
theorem rightPromises_of_findsPromise {threads : ℕ} {config : Config State JobAction}
    (reached : Reachable exec FindsPromise (start threads) config) : RightPromises config.state := by
  have both : Sane config.state config.pending ∧ Promised config.state config.pending := by
    refine reached.invariant_locked (fun s pending => Sane s pending ∧ Promised s pending)
      (fun _ => balanced_of_reachable) ⟨sane_start threads, promised_start threads⟩ ?_
    intro thread choice s call others s' calls ⟨sane, promised⟩ allowed free ran
    exact ⟨exec_step sane ran, promised_exec sane promised allowed free ran⟩
  obtain ⟨-, promised⟩ := both
  refine ⟨promised.back, fun p b k issued done => ?_, ?_, fun k ended => (promised.succeeded k ended).2⟩
  · exact ⟨promised.later p b k issued done, (promised.successful p k done).2⟩
  · rw [promised.ordered]
    exact List.nodup_range

/-- A check of the condition. -/
def findsPromise (s : State) (call : JobAction) (_ : Choice) : Bool :=
  call != .client (.trigger true) || !s.scheduled ||
    s.captured.getD 0 < s.successPromises.length

theorem findsPromise_sound (s : State) (call : JobAction) (choice : Choice)
    (checked : findsPromise s call choice = true) : FindsPromise s call choice := by
  rintro rfl scheduled
  simpa [findsPromise, scheduled] using checked

/-- A successful run is asked for before and after the callback is called. -/
def successTwice : List (ℕ × Choice) :=
  (1, .trigger true) :: List.replicate 11 ((1, .return) : ℕ × Choice) ++
    (0, .run 1) :: List.replicate 5 ((0, .return) : ℕ × Choice) ++
    (1, .trigger true) :: List.replicate 5 ((1, .return) : ℕ × Choice) ++
    (0, .returns (some (.value (.plain 0)))) :: List.replicate 7 ((0, .return) : ℕ × Choice)

theorem rightPromises_successTwice : ∃ config : Config State JobAction,
    config.state.issued = [(0, 0), (1, 1)] ∧ config.state.fulfilled = [(0, 1)] ∧
      RightPromises config.state := by
  have ran : ((start 1).runWithin exec findsPromise successTwice).map (fun config =>
      config.state.issued == [(0, 0), (1, 1)] && config.state.fulfilled == [(0, 1)]) =
        some true := by decide
  obtain ⟨config, reached, held⟩ := reachable_of_replay_within findsPromise_sound _ _ ran
  simp only [Bool.and_eq_true, beq_iff_eq] at held
  exact ⟨config, held.1, held.2, rightPromises_of_findsPromise reached⟩

/-- `trigger_success` after a `trigger` whose run has not begun. -/
def successOfScheduled : List (ℕ × Choice) :=
  (1, .trigger false) :: List.replicate 11 ((1, .return) : ℕ × Choice) ++
    (1, .trigger true) :: List.replicate 2 ((1, .return) : ℕ × Choice)

/-- The run is scheduled already, no promise is made, and `back()` is taken of
an empty vector. -/
theorem success_of_scheduled_takes_back : ∃ config, Reachable exec Anything (start 1) config ∧
    config.state.successPromises = [] ∧ config.state.backOfEmpty = true ∧
      ¬ RightPromises config.state := by
  have ran : ((start 1).run exec successOfScheduled).map (fun config =>
      config.state.successPromises == [] && config.state.backOfEmpty) = some true := by decide
  obtain ⟨config, reached, held⟩ := reachable_of_replay _ _ ran
  simp only [Bool.and_eq_true, beq_iff_eq] at held
  refine ⟨config, reached, held.1, held.2, fun right => ?_⟩
  have back := right.1
  rw [held.2] at back
  cases back

end Tconcurrent.Job
