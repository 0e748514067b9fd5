import Tconcurrent.SubmitToFuture

/-! When a throwing `submit` leaves the exception in the future.

The promises that are counted are those of the receivers that are alive.  The
last one that goes breaks the promise, and the catch block is the last to let
go: what only the canceler keeps is gone before the exception is set. -/
namespace Tconcurrent.SubmitToFuture
open Builtins

variable {s s' : State} {owner : Owner} {e : Error} {i : ℕ}

/-- The promises are counted, and a receiver without owners has none. -/
structure Counted (s : State) : Prop where
  counted : s.promiseCount = s.receivers.countP (·.promise)
  owned : ∀ receiver ∈ s.receivers, receiver.promise = true → receiver.owners ≠ []

/-- Before the catch block the promise is kept, or broken once and for all. -/
structure Sane (s : State) : Prop extends Counted s where
  stage : (0 < s.promiseCount ∧ s.result = none ∧ s.resolutions = 0) ∨
    (s.promiseCount = 0 ∧ s.result = some .brokenPromise ∧ s.resolutions = 1)
  asserts : s.assertFailed = false

/-- The future holds the exception, and its state was resolved once. -/
def ResolvesOnce (s : State) (e : Error) : Prop :=
  s.result = some e ∧ s.resolutions = 1 ∧ s.assertFailed = false

/-- A receiver with a promise has an owner besides the canceler in its token. -/
def Survives (s : State) : Prop :=
  ∃ receiver ∈ s.receivers, receiver.promise = true ∧ ∃ owner ∈ receiver.owners, owner ≠ .canceler

instance (s : State) (e : Error) : Decidable (ResolvesOnce s e) :=
  inferInstanceAs (Decidable (_ ∧ _ ∧ _))

instance (s : State) : Decidable (Survives s) :=
  inferInstanceAs (Decidable (∃ _ ∈ _, _ ∧ ∃ _ ∈ _, _))

/-! ## The receivers -/

/-- What is left of a receiver that an owner lets go of. -/
def released (owner : Owner) (receiver : Receiver) : Receiver :=
  let owners := receiver.owners.filter (· ≠ owner)
  if owners = [] then ⟨[], false⟩ else { receiver with owners }

theorem released_promise (receiver : Receiver) :
    (released owner receiver).promise = true ↔
      receiver.promise = true ∧ ∃ other ∈ receiver.owners, other ≠ owner := by
  unfold released
  dsimp only
  split
  · rename_i gone
    have none_left : ¬ ∃ other ∈ receiver.owners, other ≠ owner := by
      rintro ⟨other, member, different⟩
      have left : other ∈ receiver.owners.filter (· ≠ owner) := by simp [member, different]
      rw [gone] at left
      cases left
    simp [none_left]
  · rename_i left
    obtain ⟨other, member⟩ := List.exists_mem_of_ne_nil _ left
    have stays : ∃ other ∈ receiver.owners, other ≠ owner :=
      ⟨other, by simpa using member⟩
    simp [stays]

theorem released_owned (receiver : Receiver) (promise : (released owner receiver).promise = true) :
    (released owner receiver).owners ≠ [] := by
  unfold released at promise ⊢
  dsimp only at promise ⊢
  split at promise
  · cases promise
  · rename_i left
    rwa [if_neg left]

@[simp] theorem check_receivers (holds : Prop) [Decidable holds] :
    (check s holds).receivers = s.receivers := check_keeps rfl

@[simp] theorem check_promiseCount (holds : Prop) [Decidable holds] :
    (check s holds).promiseCount = s.promiseCount := check_keeps rfl

@[simp] theorem check_result (holds : Prop) [Decidable holds] :
    (check s holds).result = s.result := check_keeps rfl

@[simp] theorem check_resolutions (holds : Prop) [Decidable holds] :
    (check s holds).resolutions = s.resolutions := check_keeps rfl

@[simp] theorem decrementPromise_receivers : s.decrementPromise.receivers = s.receivers := by
  unfold State.decrementPromise
  dsimp only
  split <;> simp [State.setException]

@[simp] theorem decrementPromise_promiseCount :
    s.decrementPromise.promiseCount = s.promiseCount - 1 := by
  unfold State.decrementPromise
  dsimp only
  split <;> simp [State.setException]

theorem release_receivers :
    (s.release owner i).receivers = s.receivers.set i (released owner (s.receiver i)) := by
  unfold State.release released
  dsimp only
  split
  · split <;> simp [State.setReceiver]
  · rfl

/-- All of an owner's receivers are released, each once. -/
theorem releaseAll_receivers : (s.releaseAll owner).receivers = s.receivers.map (released owner) := by
  have upTo (n : ℕ) : ((List.range n).foldl (State.release owner) s).receivers =
      s.receivers.mapIdx fun k receiver => if k < n then released owner receiver else receiver := by
    induction n with
    | zero =>
      apply List.ext_getElem <;> simp
    | succ n ih =>
      rw [List.range_succ, List.foldl_append, List.foldl_cons, List.foldl_nil, release_receivers]
      unfold State.receiver
      rw [ih]
      apply List.ext_getElem?
      intro k
      rw [List.getElem?_set]
      by_cases same : n = k
      · subst same
        by_cases inside : n < s.receivers.length
        · simp [inside]
        · simp [inside]
      · have before : k < n + 1 ↔ k < n := by omega
        rw [if_neg same, List.getElem?_mapIdx, List.getElem?_mapIdx]
        simp only [before]
  unfold State.releaseAll
  rw [upTo]
  apply List.ext_getElem
  · simp
  · intro k inside _
    have below : k < s.receivers.length := by simpa using inside
    simp [below]

/-! ## Counting -/

/-- The promises of a list in which one receiver is replaced. -/
theorem countP_setReceiver (receivers : List Receiver) (receiver : Receiver) (i : ℕ)
    (dead : receivers.length ≤ i → receiver.promise = false) :
    (receivers.set i receiver).countP (·.promise) +
        (receivers.getD i ⟨[], false⟩).promise.toNat =
      receivers.countP (·.promise) + receiver.promise.toNat := by
  induction receivers generalizing i with
  | nil => simp [dead]
  | cons first rest ih =>
    cases i with
    | zero =>
      simp only [List.set_cons_zero, List.countP_cons, List.getD_cons_zero]
      cases first.promise <;> cases receiver.promise <;> simp
    | succ i =>
      have rest_counted := ih i (fun beyond => dead (by simpa using beyond))
      simp only [List.set_cons_succ, List.countP_cons, List.getD_cons_succ]
      omega

/-- Out of range there is no promise. -/
theorem receiver_mem (promise : (s.receiver i).promise = true) : s.receiver i ∈ s.receivers := by
  unfold State.receiver at promise ⊢
  by_cases inside : i < s.receivers.length
  · rw [List.getD_eq_getElem _ _ inside]
    exact List.getElem_mem inside
  · rw [List.getD_eq_default _ _ (by omega)] at promise
    cases promise

theorem Counted.positive (counted : Counted s) (promise : (s.receiver i).promise = true) :
    0 < s.promiseCount := by
  rw [counted.counted, List.countP_pos_iff]
  exact ⟨_, receiver_mem promise, promise⟩

/-- A receiver is replaced by one whose promise is accounted for. -/
theorem Counted.set (counted : Counted s) {receiver : Receiver} {count : ℕ}
    (owned : receiver.promise = true → receiver.owners ≠ [])
    (less : receiver.promise = true → (s.receiver i).promise = true)
    (accounted : count + (s.receiver i).promise.toNat = s.promiseCount + receiver.promise.toNat) :
    Counted { s.setReceiver i receiver with promiseCount := count } := by
  constructor
  · have dead (beyond : s.receivers.length ≤ i) : receiver.promise = false := by
      by_contra promise
      have alive := less (by simpa using promise)
      unfold State.receiver at alive
      rw [List.getD_eq_default _ _ beyond] at alive
      cases alive
    have replaced := countP_setReceiver s.receivers receiver i dead
    have before := counted.counted
    change count = (s.receivers.set i receiver).countP _
    unfold State.receiver at accounted
    omega
  · intro other member promise
    rcases List.mem_or_eq_of_mem_set member with old | rfl
    · exact counted.owned other old promise
    · exact owned promise

theorem Counted.append (counted : Counted s) (promise : Bool) {count : ℕ}
    (accounted : count = s.promiseCount + promise.toNat) :
    Counted { s with receivers := s.receivers ++ [⟨[owner], promise⟩], promiseCount := count } := by
  constructor
  · rw [accounted, counted.counted, List.countP_append]
    cases promise <;> rfl
  · intro receiver member
    rcases List.mem_append.mp member with old | new
    · exact counted.owned receiver old
    · rw [List.mem_singleton] at new
      simp [new]

/-! ## One step -/

/-- The receiver goes before its promise does. -/
theorem release_eq (owner : Owner) (s : State) (i : ℕ) :
    s.release owner i =
      if (s.receiver i).promise = true ∧ (released owner (s.receiver i)).promise = false then
        (s.setReceiver i (released owner (s.receiver i))).decrementPromise
      else s.setReceiver i (released owner (s.receiver i)) := by
  unfold State.release released
  dsimp only
  split
  · simp
  · rename_i left
    split
    · rename_i both
      rw [both.1] at both
      cases both.2
    · rfl

theorem Counted.release (counted : Counted s) : Counted (s.release owner i) := by
  rw [release_eq]
  have less : (released owner (s.receiver i)).promise = true → (s.receiver i).promise = true :=
    fun promise => ((released_promise _).mp promise).1
  split
  · rename_i goes
    have positive := counted.positive goes.1
    have after : Counted { s.setReceiver i (released owner (s.receiver i)) with
        promiseCount := s.promiseCount - 1 } := by
      apply counted.set (released_owned _) less
      rw [goes.1, goes.2]
      simp only [Bool.toNat_true, Bool.toNat_false]
      omega
    constructor
    · simpa [State.setReceiver] using after.counted
    · simpa [State.setReceiver] using after.owned
  · rename_i stays
    have same : (released owner (s.receiver i)).promise = (s.receiver i).promise := by
      cases now : (s.receiver i).promise with
      | false => exact Bool.eq_false_iff.mpr fun promise => by rw [less promise] at now; cases now
      | true =>
        by_contra different
        exact stays ⟨now, by simpa using different⟩
    exact counted.set (released_owned _) less (by rw [same])

/-- A promise that is not the last one is given up, or one of a broken state. -/
theorem Sane.decrementPromise (sane : Sane s) (counted : Counted s'.decrementPromise)
    (positive : 0 < s.promiseCount) (same : s' = { s with receivers := s'.receivers }) :
    Sane s'.decrementPromise := by
  rcases sane.stage with ⟨-, unresolved, fresh⟩ | ⟨none_left, -, -⟩
  · have checked : check s' (0 < s'.promiseCount) = s' := check_of (by rw [same]; exact positive)
    have result : s'.result = none := by rw [same]; exact unresolved
    have resolutions : s'.resolutions = 0 := by rw [same]; exact fresh
    have asserts : s'.assertFailed = false := by rw [same]; exact sane.asserts
    refine { toCounted := counted, stage := ?_, asserts := ?_ }
    · unfold State.decrementPromise
      dsimp only
      rw [checked]
      by_cases last : s'.promiseCount - 1 = 0
      · rw [if_pos ⟨last, result⟩]
        exact Or.inr (by simp [State.setException, last, resolutions])
      · rw [if_neg fun both => last both.1]
        exact Or.inl ⟨Nat.pos_of_ne_zero last, result, resolutions⟩
    · unfold State.decrementPromise
      dsimp only
      rw [checked]
      split
      · rename_i last
        simp [State.setException, check, result, asserts]
      · exact asserts
  · omega

theorem Sane.release (sane : Sane s) : Sane (s.release owner i) := by
  have counted : Counted (s.release owner i) := sane.toCounted.release
  rw [release_eq] at counted ⊢
  split at counted
  · rename_i goes
    rw [if_pos goes]
    exact sane.decrementPromise counted (sane.positive goes.1) rfl
  · rename_i stays
    rw [if_neg stays]
    exact { toCounted := counted, stage := sane.stage, asserts := sane.asserts }

theorem Sane.releaseAll (sane : Sane s) : Sane (s.releaseAll owner) := by
  unfold State.releaseAll
  generalize List.range s.receivers.length = indices
  induction indices generalizing s with
  | nil => exact sane
  | cons i rest ih => exact ih sane.release

theorem Sane.copyTo (sane : Sane s) : Sane (s.copyTo i owner) := by
  refine { toCounted := sane.toCounted.append _ rfl, stage := ?_, asserts := sane.asserts }
  rcases sane.stage with ⟨positive, rest⟩ | ⟨none_left, rest⟩
  · exact Or.inl ⟨Nat.add_pos_left positive _, rest⟩
  · refine Or.inr ⟨?_, rest⟩
    have null : (s.receiver i).promise = false := by
      by_contra promise
      have positive := sane.positive (i := i) (by simpa using promise)
      omega
    change s.promiseCount + (s.receiver i).promise.toNat = 0
    rw [none_left, null]
    rfl

theorem Sane.moveTo (sane : Sane s) : Sane (s.moveTo i owner) := by
  have moved : Counted { s.setReceiver i { s.receiver i with promise := false } with
      promiseCount := s.promiseCount - (s.receiver i).promise.toNat } := by
    refine sane.toCounted.set (fun promise => absurd promise (by simp))
      (fun promise => absurd promise (by simp)) ?_
    cases alive : (s.receiver i).promise with
    | false => rfl
    | true =>
      have positive := sane.positive alive
      simp only [Bool.toNat_true, Bool.toNat_false]
      omega
  have accounted : s.promiseCount =
      s.promiseCount - (s.receiver i).promise.toNat + (s.receiver i).promise.toNat := by
    cases alive : (s.receiver i).promise with
    | false => rfl
    | true =>
      have positive := sane.positive alive
      simp only [Bool.toNat_true]
      omega
  exact {
    toCounted := moved.append (s.receiver i).promise accounted
    stage := sane.stage
    asserts := sane.asserts }

theorem Sane.share (sane : Sane s) : Sane (s.share i owner) := by
  have counted : Counted { s.setReceiver i { s.receiver i with
      owners := owner :: (s.receiver i).owners } with promiseCount := s.promiseCount } :=
    sane.toCounted.set (fun _ => List.cons_ne_nil _ _) (fun promise => promise) rfl
  exact { toCounted := counted, stage := sane.stage, asserts := sane.asserts }

theorem Sane.shareAll {captured : List ℕ} (sane : Sane s) :
    Sane (captured.foldl (·.share · owner) s) := by
  induction captured generalizing s with
  | nil => exact sane
  | cons i rest ih => exact ih sane.share

theorem Sane.setCanceler (sane : Sane s) {captured : List ℕ}
    (set : s.setCanceler captured = some s') : Sane s' := by
  unfold State.setCanceler at set
  split at set
  · cases set
  · cases set
    have shared : Sane (captured.foldl (·.share · .canceler) s) := sane.shareAll
    exact { toCounted := ⟨shared.counted, shared.owned⟩, stage := shared.stage,
            asserts := shared.asserts }

theorem Sane.reset (sane : Sane s) : Sane s.reset := by
  have released : Sane (s.releaseAll .canceler) := sane.releaseAll
  exact { toCounted := ⟨released.counted, released.owned⟩, stage := released.stage,
          asserts := released.asserts }

theorem Sane.run {depth parameter : ℕ} {op : Op} (sane : Sane s)
    (runs : op.run depth parameter s = some s') : Sane s' := by
  cases op with
  | copy place owner => cases runs; exact sane.copyTo
  | move place owner => cases runs; exact sane.moveTo
  | share place owner => cases runs; exact sane.share
  | release place owner => cases runs; exact sane.release
  | setCanceler captured => exact sane.setCanceler runs
  | reset => cases runs; exact sane.reset

/-! ## A whole submit -/

theorem Sane.submitWrapped {submit : ℕ → ℕ → State → Option (State × Option Error)}
    {depth parameter : ℕ} {thrown : Option Error} (sane : Sane s)
    (inside : ∀ {depth parameter : ℕ} {s s' : State} {thrown : Option Error}, Sane s →
      submit depth parameter s = some (s', thrown) → Sane s')
    (submits : Sender.submitWrapped submit depth parameter s = some (s', thrown)) : Sane s' := by
  simp only [Sender.submitWrapped, Option.bind_eq_bind, Option.bind_eq_some_iff,
    Option.pure_def, Option.some.injEq, Prod.mk.injEq, Prod.exists] at submits
  obtain ⟨after, _, submitted, rfl, -⟩ := submits
  exact (inside sane.moveTo submitted).releaseAll

/-- Whatever a submit does, the promise is kept or broken when it returns or throws. -/
theorem Sane.submit {sender : Sender} {depth parameter : ℕ} {thrown : Option Error} (sane : Sane s)
    (submits : sender.submit depth parameter s = some (s', thrown)) : Sane s' := by
  induction sender generalizing depth parameter s s' thrown with
  | returns | throws =>
    simp only [Sender.submit, Option.some.injEq, Prod.mk.injEq] at submits
    obtain ⟨rfl, -⟩ := submits
    exact sane.releaseAll
  | does op rest ih =>
    simp only [Sender.submit, Option.bind_eq_bind, Option.bind_eq_some_iff] at submits
    obtain ⟨after, runs, submitted⟩ := submits
    exact ih (sane.run runs) submitted
  | submits sender receiver catches rest inner ih =>
    simp only [Sender.submit, Option.bind_eq_bind, Option.bind_eq_some_iff] at submits
    obtain ⟨⟨after, inside⟩, submitted, submits⟩ := submits
    have sane_after : Sane after := inner sane submitted
    cases inside with
    | none => exact ih sane_after submits
    | some e =>
      dsimp only at submits
      split at submits
      · exact ih sane_after submits
      · simp only [Option.pure_def, Option.some.injEq, Prod.mk.injEq] at submits
        obtain ⟨rfl, -⟩ := submits
        exact sane_after.releaseAll
  | andThen sender ih | asyncThen sender ih => exact sane.submitWrapped ih submits
  | wrap terminating sender ih =>
    rw [Sender.submit] at submits
    split at submits
    · cases submits
      exact sane
    · exact sane.submitWrapped ih submits

theorem start_sane : Sane start where
  counted := rfl
  owned := by decide
  stage := Or.inl (by decide)
  asserts := rfl

/-! ## The catch block -/

/-- What only the canceler keeps is gone before the exception is set. -/
theorem reset_promiseCount (sane : Sane s) : 0 < s.reset.promiseCount ↔ Survives s := by
  rw [sane.reset.counted, List.countP_pos_iff]
  change (∃ receiver ∈ (s.releaseAll .canceler).receivers, receiver.promise = true) ↔ _
  rw [releaseAll_receivers]
  simp only [List.mem_map, exists_exists_and_eq_and, released_promise]
  rfl

/-- A state that is resolved stays as it is when promises go. -/
theorem Counted.release_resolved (counted : Counted s) (i : ℕ) (owner : Owner)
    (resolved : s.result = some e) :
    (s.release owner i).result = some e ∧ (s.release owner i).resolutions = s.resolutions ∧
      (s.release owner i).assertFailed = s.assertFailed := by
  rw [release_eq]
  split
  · rename_i goes
    have positive := counted.positive goes.1
    unfold State.decrementPromise
    dsimp only
    rw [check_of (by exact positive), if_neg (by simp [State.setReceiver, resolved])]
    exact ⟨resolved, rfl, rfl⟩
  · exact ⟨resolved, rfl, rfl⟩

theorem Counted.releaseAll_resolved (counted : Counted s) (owner : Owner)
    (resolved : s.result = some e) :
    (s.releaseAll owner).result = some e ∧ (s.releaseAll owner).resolutions = s.resolutions ∧
      (s.releaseAll owner).assertFailed = s.assertFailed := by
  unfold State.releaseAll
  generalize List.range s.receivers.length = indices
  induction indices generalizing s with
  | nil => exact ⟨resolved, rfl, rfl⟩
  | cons i rest ih =>
    obtain ⟨result, resolutions, asserts⟩ := counted.release_resolved i owner resolved
    rw [← resolutions, ← asserts]
    exact ih counted.release result

theorem Counted.setException (counted : Counted s) : Counted (s.setException e) :=
  ⟨by simpa [State.setException] using counted.counted,
    by simpa [State.setException] using counted.owned⟩

/-- The exception is set on a fresh state, or the assertion of `finish` fails. -/
theorem catchBlock_resolvesOnce (sane : Sane s) : ResolvesOnce (catchBlock s e) e ↔ Survives s := by
  rw [← reset_promiseCount sane]
  have after := sane.reset
  unfold catchBlock ResolvesOnce State.setException
  rcases after.stage with ⟨positive, unresolved, fresh⟩ | ⟨none_left, broken, once⟩
  · rw [check_of unresolved]
    simp [positive, fresh, after.asserts]
  · simp [check, none_left, broken]

/-- The future that `submit_to_future` returns holds the exception that `submit`
threw, and was resolved once, exactly when a receiver has outlived the exception
somewhere else than in the canceler of its token. -/
theorem resolvesOnce_iff_survives (sender : Sender) (e : Error) (s : State)
    (thrown : sender.submit 1 0 start = some (s, some e)) :
    (∃ final, submitToFuture sender = some final ∧ ResolvesOnce final e) ↔ Survives s := by
  have sane : Sane s := start_sane.submit thrown
  have resolved : (catchBlock s e).result = some e := rfl
  have counted : Counted (catchBlock s e) := sane.reset.toCounted.setException
  have ends : submitToFuture sender = some ((catchBlock s e).releaseAll (.frame 0)) := by
    simp [submitToFuture, thrown]
  obtain ⟨result, resolutions, asserts⟩ := counted.releaseAll_resolved (.frame 0) resolved
  rw [← catchBlock_resolvesOnce (e := e) sane]
  constructor
  · rintro ⟨final, is_final, once⟩
    rw [ends] at is_final
    cases is_final
    unfold ResolvesOnce at once ⊢
    rwa [result, resolutions, asserts] at once
  · intro once
    refine ⟨_, ends, ?_⟩
    unfold ResolvesOnce at once ⊢
    rwa [result, resolutions, asserts]

/-- A sender that keeps a copy of its receiver in a queue before it throws. -/
def copiesThenThrows : Sender := .does (.copy .parameter (some 0)) (.throws (.user 7))

theorem resolvesOnce_copiesThenThrows :
    (∃ s, copiesThenThrows.submit 1 0 start = some (s, some (.user 7)) ∧ Survives s) ∧
      ∃ final, submitToFuture (.andThen copiesThenThrows) = some final ∧
        ResolvesOnce final (.user 7) :=
  ⟨⟨_, rfl, by decide⟩,
    (resolvesOnce_iff_survives (.andThen copiesThenThrows) (.user 7) _ rfl).mpr (by decide)⟩

/-- `then` over a sender that throws at once: the receiver it made dies with the
exception, so the promise is broken before the exception is set. -/
theorem then_over_throw_resolves_twice :
    (∃ s, (Sender.andThen (.throws (.user 7))).submit 1 0 start = some (s, some (.user 7))) ∧
      ∃ final, submitToFuture (.andThen (.throws (.user 7))) = some final ∧
        final.resolutions = 2 ∧ final.assertFailed = true ∧ ¬ ResolvesOnce final (.user 7) :=
  ⟨⟨_, rfl⟩, _, rfl, by decide⟩

end Tconcurrent.SubmitToFuture
