import Tconcurrent.PromisePtrInvariant

/-! Every operation on pointers and states keeps the counts and the lines.

An operation that goes on after a `finish` relies on its source being what it
was: a pointer that is not itself inside `finish`, and not null for a copy. -/
namespace Tconcurrent.PromisePtr
open Interleaving Builtins

variable {s s' : State} {agenda rest calls : List PromiseAction} {a p q r : ℕ}
  {result : Result ℕ ℕ} {target : Option ℕ}

/-! ## The functions of `shared_base` -/

theorem finish_of (unresolved : (s.heap.states a).r = none) :
    finish a result s =
      ({ s with heap := (s.heap.finish a result).1 }, (s.heap.states a).thens) := by
  rw [finish, check_of unresolved]
  rfl

theorem incrementPromise_of (positive : 0 < s.promiseCount a)
    (small : s.promiseCount a + 1 < 2 ^ 32) :
    incrementPromise a s = some (s.setCount a (s.promiseCount a + 1)) := by
  rw [incrementPromise, if_neg (by omega), increment_of small]

theorem lock_of (positive : 0 < s.promiseCount a) (small : s.promiseCount a + 1 < 2 ^ 32) :
    lock a s = s.setCount a (s.promiseCount a + 1) := by
  rw [lock, incrementPromise_of positive small]
  rfl

/-- A promise is given up: the last one of an unresolved state breaks it. -/
theorem decrementPromise_of (positive : 0 < s.promiseCount a) :
    decrementPromise a s =
      if s.promiseCount a - 1 = 0 ∧ (s.heap.states a).r = none then
        finish a (.exception .brokenPromise) (s.setCount a (s.promiseCount a - 1))
      else (s.setCount a (s.promiseCount a - 1), []) := by
  have checked : check s (0 < s.promiseCount a) = s := check_of positive
  simp only [decrementPromise, decrement_of positive, checked]
  rfl

/-! ## Pointers that change -/

@[simp] theorem keeps_setPointer (p : ℕ) (pointer : Pointer) : Keeps s (s.setPointer p pointer) :=
  ⟨rfl, rfl, rfl, rfl, rfl, rfl⟩

@[simp] theorem keeps_newPointer (target : Option ℕ) : Keeps s (s.newPointer target) :=
  ⟨rfl, rfl, rfl, rfl, rfl, rfl⟩

@[simp] theorem keeps_setCount (a count : ℕ) : Keeps s (s.setCount a count) :=
  ⟨rfl, rfl, rfl, rfl, rfl, rfl⟩

/-- What states are resolved with depends on the counts only. -/
theorem outcomes_of_counts (sets : s'.sets = s.sets)
    (zero : ∀ a, s'.promiseCount a = 0 ↔ s.promiseCount a = 0) (except : ℕ → Prop) :
    Outcomes s s' except where
  same a _ _ := by simp only [outcome, sets, zero]
  unmade a _ rest := by
    rw [sets, zero]
    exact rest

/-- One pointer is replaced, and the count of each state follows. -/
theorem Counted.setPointer {agenda' : List PromiseAction} (counted : Counted s agenda)
    (pointer : Pointer) (count : ℕ → ℕ) (inside : p < s.next)
    (follows : ∀ a, count a + (if s.pointers p = .holds (some a) then 1 else 0) =
      s.promiseCount a + (if pointer = .holds (some a) then 1 else 0))
    (frame : agenda'.countP (ends p) = if pointer.isFinishing then 1 else 0)
    (others : ∀ q, q ≠ p → agenda'.countP (ends q) = agenda.countP (ends q)) :
    Counted { s.setPointer p pointer with promiseCount := count } agenda' := by
  constructor
  · intro a
    have cards := card_setPointer (a := a) pointer inside
    have before := counted.counted a
    have now := follows a
    have same : holders { s.setPointer p pointer with promiseCount := count } a =
        holders (s.setPointer p pointer) a := rfl
    rw [same]
    simp only
    omega
  · intro q beyond
    have other : q ≠ p := by
      rintro rfl
      exact absurd inside (by simpa [State.setPointer] using beyond)
    simpa [State.setPointer, other] using counted.fresh q beyond
  · intro q
    by_cases same : q = p
    · subst same
      simpa [State.setPointer] using frame
    · rw [others q same]
      simpa [State.setPointer, same] using counted.frames q

theorem Counted.withHeap {agenda' : List PromiseAction} {heap : Heap ℕ ℕ PromiseCall}
    (counted : Counted s agenda)
    (ends_same : ∀ p, agenda'.countP (ends p) = agenda.countP (ends p)) :
    Counted { s with heap } agenda' :=
  counted.same { s with heap } rfl rfl rfl ends_same

/-- A pointer is constructed, and the count of its state follows. -/
theorem Counted.newPointer (counted : Counted s agenda) (target : Option ℕ) (count : ℕ → ℕ)
    (follows : ∀ a, count a = s.promiseCount a + (if target = some a then 1 else 0)) :
    Counted { s.newPointer target with promiseCount := count } agenda := by
  constructor
  · intro a
    have cards : (holders (s.newPointer target) a).card = _ := card_newPointer
    have before := counted.counted a
    have now := follows a
    have same : holders { s.newPointer target with promiseCount := count } a =
        holders (s.newPointer target) a := rfl
    rw [same]
    simp only
    omega
  · intro q beyond
    have other : q ≠ s.next := by
      rintro rfl
      exact absurd beyond (by simp [State.newPointer])
    have old : s.next ≤ q := by
      have more : s.next + 1 ≤ q := beyond
      omega
    simpa [State.newPointer, State.setPointer, other] using counted.fresh q old
  · intro q
    by_cases same : q = s.next
    · subst same
      have before := counted.frames s.next
      rw [counted.fresh _ le_rfl] at before
      simpa [State.newPointer, State.setPointer, Pointer.isFinishing] using before
    · simpa [State.newPointer, State.setPointer, same] using counted.frames q

/-- A new promise of a state that has one. -/
theorem Sane.newHolder (sane : Sane s agenda) (positive : 0 < s.promiseCount a)
    : Sane ((s.newPointer (some a)).setCount a (s.promiseCount a + 1)) agenda := by
  constructor
  · apply sane.pointers.newPointer
    intro b
    by_cases same : b = a
    · subst same
      simp [State.newPointer, State.setPointer]
    · simp [State.newPointer, State.setPointer, same, Ne.symm same]
  · apply sane.states.keep ((keeps_newPointer _).trans (keeps_setCount _ _))
    · have sets : ((s.newPointer (some a)).setCount a (s.promiseCount a + 1)).sets = s.sets := rfl
      apply outcomes_of_counts sets
      intro b
      by_cases same : b = a
      · subst same
        simp [State.setCount]
        omega
      · simp [State.setCount, State.newPointer, State.setPointer, same]
    · exact fun _ => rfl

/-- A null pointer. -/
theorem Sane.newNull (sane : Sane s agenda) : Sane (s.newPointer none) agenda := by
  constructor
  · exact sane.pointers.newPointer none s.promiseCount (by simp)
  · have sets : (s.newPointer none).sets = s.sets := rfl
    apply sane.states.keep (keeps_newPointer _) _ fun _ => rfl
    exact outcomes_of_counts sets (fun _ => Iff.rfl) _

theorem Sane.copy {s' : State} (sane : Sane s agenda) (holds : s.pointers r = .holds target)
    (small : ∀ a, s.promiseCount a + 1 < 2 ^ 32) (ran : copy r s = some s') : Sane s' agenda := by
  obtain ⟨a, here, same⟩ := Option.map_eq_some_iff.mp ran
  have holds : s.pointers r = .holds (some a) := by
    rw [State.target, holds] at here
    rw [holds]
    exact congrArg _ here
  have positive := sane.pointers.count_pos holds
  rw [← same, lock_of (s := s.newPointer (some a)) positive (small a)]
  exact sane.newHolder positive

theorem Sane.tryLock (sane : Sane s agenda) (small : ∀ a, s.promiseCount a + 1 < 2 ^ 32) :
    Sane (tryLock a s) agenda := by
  unfold PromisePtr.tryLock
  by_cases zero : s.promiseCount a = 0
  · have fails : incrementPromise a s = none := if_pos zero
    rw [fails]
    exact sane.newNull
  · rw [incrementPromise_of (by omega) (small a)]
    exact sane.newHolder (by omega)

/-- The move constructor: a pointer is null, and a new one has its promise. -/
theorem Sane.move (sane : Sane s agenda) (holds : s.pointers r = .holds target) :
    Sane (move r s) agenda := by
  have inside : r < s.next := sane.pointers.lt_next (by simp [holds])
  have other : r ≠ s.next := inside.ne
  have moved : (s.pointers r).moved = .holds none := by rw [holds]; rfl
  have same : PromisePtr.move r s =
      { ({ s.newPointer target with
            promiseCount := fun a => s.promiseCount a + if target = some a then 1 else 0 } :
          State).setPointer r (.holds none) with promiseCount := s.promiseCount } := by
    rw [PromisePtr.move, moved, State.target, holds]
    rfl
  constructor
  · rw [same]
    have built := sane.pointers.newPointer target _ (fun _ => rfl)
    apply built.setPointer _ _ (inside.trans (Nat.lt_succ_self _))
    · intro a
      simp [State.newPointer, State.setPointer, other, holds]
    · have frame := sane.pointers.frames r
      rw [holds] at frame
      simpa [Pointer.isFinishing] using frame
    · exact fun _ _ => rfl
  · have sets : (PromisePtr.move r s).sets = s.sets := rfl
    apply sane.states.keep ((keeps_newPointer _).trans (keeps_setPointer _ _)) _ fun _ => rfl
    exact outcomes_of_counts sets (fun _ => Iff.rfl) _

/-! ## Giving up a promise -/

/-- A call that ends an operation on one pointer. -/
structure Ends (p : ℕ) (call : PromiseAction) : Prop where
  ends : ∀ q, ends q call = decide (q = p)
  post : ∀ a, postOf a call = none

theorem ends_copyAssigned : Ends q (.client (.copyAssigned q r)) :=
  ⟨fun _ => by simp [ends, eq_comm], fun _ => rfl⟩

theorem ends_moveAssigned : Ends q (.client (.moveAssigned q r)) :=
  ⟨fun _ => by simp [ends, eq_comm], fun _ => rfl⟩

theorem ends_destroyed : Ends p (.client (.destroyed p)) :=
  ⟨fun _ => by simp [ends, eq_comm], fun _ => rfl⟩

namespace Ends

variable {call : PromiseAction}

theorem posts (ending : Ends p call) (a : ℕ) :
    (call :: agenda).filterMap (postOf a) = agenda.filterMap (postOf a) :=
  List.filterMap_cons_none (ending.post a)

theorem self (ending : Ends p call) :
    (call :: agenda).countP (PromisePtr.ends p) = agenda.countP (PromisePtr.ends p) + 1 := by
  rw [List.countP_cons_of_pos]
  simp [ending.ends]

theorem other (ending : Ends p call) (different : q ≠ p) :
    (call :: agenda).countP (PromisePtr.ends q) = agenda.countP (PromisePtr.ends q) := by
  rw [List.countP_cons_of_neg]
  simp [ending.ends, different]

end Ends

/-- The continuations of a state end no operation. -/
theorem countP_posts (a n : ℕ) : (((List.range n).map fun i => (.client (.post a i) : PromiseAction)) ++
    agenda).countP (ends p) = agenda.countP (ends p) := by
  rw [List.countP_append, List.countP_map]
  have none : (List.range n).countP (ends p ∘ fun i => (.client (.post a i) : PromiseAction)) = 0 := by
    rw [List.countP_eq_zero]
    simp [ends]
  omega

/-- `promise_ptr::finish`: the pointer is no promise any more, and its state is
broken if it was the last one. -/
theorem Sane.finishPointer {call : PromiseAction} (sane : Sane s agenda)
    (holds : s.pointers p = .holds target) (ending : Ends p call) :
    Sane (finishPointer p s).1 ((finishPointer p s).2 ++ call :: agenda) := by
  have inside : p < s.next := sane.pointers.lt_next (by simp [holds])
  have still : s.target p = target := by rw [State.target, holds]; rfl
  have frame : (call :: agenda).countP (ends p) = 1 := by
    have before := sane.pointers.frames p
    rw [holds] at before
    rw [ending.self, before]
    rfl
  cases target with
  | none =>
    have same : PromisePtr.finishPointer p s = (s.setPointer p (.finishing none), []) := by
      simp only [PromisePtr.finishPointer, still]
    rw [same]
    constructor
    · apply sane.pointers.setPointer _ s.promiseCount inside
      · simp [holds]
      · exact frame
      · exact fun q => ending.other
    · have sets : (s.setPointer p (.finishing none)).sets = s.sets := rfl
      apply sane.states.keep (keeps_setPointer _ _) _ ending.posts
      exact outcomes_of_counts sets (fun _ => Iff.rfl) _
  | some a =>
    have positive := sane.pointers.count_pos holds
    have made := sane.states.made_of_count positive
    have given : Counted ((s.setPointer p (.finishing (some a))).setCount a (s.promiseCount a - 1))
        (call :: agenda) := by
      apply sane.pointers.setPointer _ _ inside
      · intro b
        by_cases same : b = a
        · subst same
          simp [State.setPointer, holds]
          omega
        · simp [State.setPointer, holds, same, Ne.symm same]
      · exact frame
      · exact fun q => ending.other
    have keeps : Keeps s
        ((s.setPointer p (.finishing (some a))).setCount a (s.promiseCount a - 1)) :=
      (keeps_setPointer _ _).trans (keeps_setCount _ _)
    have ran : PromisePtr.finishPointer p s =
        decrementPromise a (s.setPointer p (.finishing (some a))) := by
      simp only [PromisePtr.finishPointer, still]
    have others : ∀ b, b ≠ a → outcome
        ((s.setPointer p (.finishing (some a))).setCount a (s.promiseCount a - 1)) b =
          outcome s b := by
      intro b other
      simp [outcome, State.setCount, State.setPointer, other]
    have unmade : ∀ b, s.made ≤ b → s.promiseCount b = 0 ∧ s.sets b = none →
        ((s.setPointer p (.finishing (some a))).setCount a (s.promiseCount a - 1)).promiseCount b =
          0 ∧ s.sets b = none := by
      rintro b beyond ⟨zero, unset⟩
      have other : b ≠ a := by omega
      simp [State.setCount, State.setPointer, other, zero, unset]
    rw [ran, decrementPromise_of (s := s.setPointer p (.finishing (some a))) positive]
    split
    · rename_i last
      obtain ⟨zero, unresolved⟩ := last
      have zero : s.promiseCount a - 1 = 0 := zero
      have unresolved : (s.heap.states a).r = none := unresolved
      have unset : s.sets a = none := by
        have result := sane.states.result a made
        cases set : s.sets a with
        | none => rfl
        | some r =>
          rw [unresolved, outcome, set] at result
          cases result
      rw [finish_of (s := (s.setPointer p (.finishing (some a))).setCount a _) unresolved]
      constructor
      · apply given.withHeap
        intro q
        have thens := ((sane.states.posts a).unresolved unresolved).1
        simp only [State.setCount, State.setPointer, thens]
        exact countP_posts a _
      · apply sane.states.finish keeps made unresolved ⟨fun b _ => others b, unmade⟩ _ ending.posts
        simp [outcome, State.setCount, State.setPointer, unset, zero]
    · rename_i alive
      constructor
      · exact given
      · refine sane.states.keep keeps ⟨fun b _ _ => ?_, unmade⟩ ending.posts
        by_cases same : b = a
        · subst same
          have result := sane.states.result b made
          cases set : s.sets b with
          | some r => simp [outcome, State.setCount, State.setPointer, set]
          | none =>
            -- An unresolved state keeps another promise.
            have nonzero : s.promiseCount b ≠ 0 := positive.ne'
            have unresolved : (s.heap.states b).r = none := by
              rw [result, outcome, set]
              simp [nonzero]
            have more : s.promiseCount b - 1 ≠ 0 := fun zero => alive ⟨zero, unresolved⟩
            simp [outcome, State.setCount, State.setPointer, set, nonzero, more]
        · exact others b same

/-! ## Assignments and destructors -/

theorem Sane.copyAssign (sane : Sane s agenda) (holds : s.pointers q = .holds target) :
    Sane (copyAssign q r s).1 ((copyAssign q r s).2 ++ agenda) := by
  unfold PromisePtr.copyAssign
  split
  · simpa using sane.finishPointer holds (ends_copyAssigned (r := r))
  · exact sane

theorem Sane.moveAssign (sane : Sane s agenda) (holds : s.pointers q = .holds target) :
    Sane (moveAssign q r s).1 ((moveAssign q r s).2 ++ agenda) := by
  unfold PromisePtr.moveAssign
  split
  · simpa using sane.finishPointer holds (ends_moveAssigned (r := r))
  · exact sane

theorem Sane.destroy (sane : Sane s agenda) (holds : s.pointers p = .holds target) :
    Sane (destroy p s).1 ((destroy p s).2 ++ agenda) := by
  unfold PromisePtr.destroy
  simpa using sane.finishPointer holds ends_destroyed

/-- The pointer that an ending operation is about. -/
theorem Counted.finishing {call : PromiseAction} (counted : Counted s (call :: agenda))
    (ending : Ends p call) :
    (∃ target, s.pointers p = .finishing target) ∧ agenda.countP (ends p) = 0 := by
  have frame := counted.frames p
  rw [ending.self] at frame
  cases pointer : s.pointers p with
  | gone => simp [pointer, Pointer.isFinishing] at frame
  | holds target => simp [pointer, Pointer.isFinishing] at frame
  | finishing target => exact ⟨⟨target, rfl⟩, by simpa [pointer, Pointer.isFinishing] using frame⟩

/-- The pointer has a promise again, or none and points nowhere. -/
theorem Counted.finished {call : PromiseAction} (counted : Counted s (call :: agenda))
    (pointer : Pointer) (count : ℕ → ℕ) (ending : Ends p call)
    (done : pointer.isFinishing = false)
    (follows : ∀ a, count a = s.promiseCount a + (if pointer = .holds (some a) then 1 else 0)) :
    Counted { s.setPointer p pointer with promiseCount := count } agenda := by
  obtain ⟨⟨target, finishing⟩, none⟩ := counted.finishing ending
  apply counted.setPointer _ _ (counted.lt_next (by simp [finishing]))
  · intro a
    simpa [finishing] using follows a
  · rw [none, done]
    rfl
  · exact fun q other => (ending.other other).symm

theorem Sane.destroyed (sane : Sane s (.client (.destroyed p) :: agenda)) :
    Sane (s.setPointer p .gone) agenda := by
  constructor
  · exact sane.pointers.finished _ s.promiseCount ends_destroyed rfl (by simp)
  · have sets : (s.setPointer p .gone).sets = s.sets := rfl
    apply sane.states.keep (keeps_setPointer _ _) _ fun a => (ends_destroyed.posts a).symm
    exact outcomes_of_counts sets (fun _ => Iff.rfl) _

theorem Sane.copyAssigned (sane : Sane s (.client (.copyAssigned q r) :: agenda))
    (holds : s.pointers r = .holds (some a)) (small : ∀ a, s.promiseCount a + 1 < 2 ^ 32)
    (ran : copyAssigned q r s = some s') : Sane s' agenda := by
  obtain ⟨b, here, same⟩ := Option.map_eq_some_iff.mp ran
  rw [State.target, holds] at here
  cases here
  have positive := sane.pointers.count_pos holds
  rw [← same, lock_of (s := s.setPointer q (.holds (some a))) positive (small a)]
  constructor
  · apply sane.pointers.finished _ _ ends_copyAssigned rfl
    intro b
    by_cases same : b = a
    · subst same
      simp [State.setPointer]
    · simp [State.setPointer, same, Ne.symm same]
  · have sets : ((s.setPointer q (.holds (some a))).setCount a (s.promiseCount a + 1)).sets =
        s.sets := rfl
    apply sane.states.keep ((keeps_setPointer _ _).trans (keeps_setCount _ _)) _
      fun b => (ends_copyAssigned.posts b).symm
    apply outcomes_of_counts sets
    intro b
    by_cases same : b = a
    · subst same
      simp [State.setCount]
      omega
    · simp [State.setCount, State.setPointer, same]

theorem Sane.moveAssigned (sane : Sane s (.client (.moveAssigned q r) :: agenda))
    (holds : s.pointers r = .holds target) : Sane (moveAssigned q r s) agenda := by
  obtain ⟨⟨old, finishing⟩, -⟩ := sane.pointers.finishing ends_moveAssigned
  have other : r ≠ q := by
    rintro rfl
    rw [finishing] at holds
    cases holds
  have moved : (s.pointers r).moved = .holds none := by rw [holds]; rfl
  have same : PromisePtr.moveAssigned q r s =
      { ({ s.setPointer q (.holds target) with
            promiseCount := fun a => s.promiseCount a + if target = some a then 1 else 0 } :
          State).setPointer r (.holds none) with promiseCount := s.promiseCount } := by
    rw [PromisePtr.moveAssigned, moved, State.target, holds]
    rfl
  constructor
  · rw [same]
    have given := sane.pointers.finished (.holds target)
      (fun a => s.promiseCount a + if target = some a then 1 else 0) ends_moveAssigned rfl (by simp)
    apply given.setPointer _ _ (sane.pointers.lt_next (by simp [holds]))
    · intro a
      simp [State.setPointer, other, holds]
    · have frame := sane.pointers.frames r
      rw [holds, ends_moveAssigned.other other] at frame
      simpa [Pointer.isFinishing] using frame
    · exact fun _ _ => rfl
  · have sets : (PromisePtr.moveAssigned q r s).sets = s.sets := rfl
    apply sane.states.keep ((keeps_setPointer _ _).trans (keeps_setPointer _ _)) _
      fun a => (ends_moveAssigned.posts a).symm
    exact outcomes_of_counts sets (fun _ => Iff.rfl) _

/-! ## States -/

/-- `make_shared`: a state with one promise. -/
theorem Sane.makeShared (sane : Sane s agenda) : Sane (makeShared s) agenda := by
  obtain ⟨result, registered, zero, unset⟩ := sane.states.unmade s.made le_rfl
  have others : ∀ a, a ≠ s.made →
      (PromisePtr.makeShared s).heap.states a = s.heap.states a ∧
        (PromisePtr.makeShared s).promiseCount a = s.promiseCount a := by
    intro a other
    constructor
    · exact Heap.setState_states_ne _ other
    · simp [PromisePtr.makeShared, State.newPointer, State.setPointer, State.setCount, other]
  have self : (PromisePtr.makeShared s).heap.states s.made =
      { cancelationToken := some s.made } := Heap.setState_states_self _
  have one : (PromisePtr.makeShared s).promiseCount s.made = 1 := by
    simp [PromisePtr.makeShared, State.newPointer, State.setPointer, State.setCount]
  constructor
  · have built := sane.pointers.newPointer (some s.made)
      (PromisePtr.makeShared s).promiseCount fun a => by
        by_cases same : a = s.made
        · rw [same, one, zero]
          simp
        · rw [(others a same).2]
          simp [Ne.symm same]
    exact built.same (PromisePtr.makeShared s) rfl rfl rfl fun _ => rfl
  · constructor
    · intro a beyond
      have beyond : s.made + 1 ≤ a := beyond
      have other : a ≠ s.made := by omega
      rw [(others a other).1, (others a other).2]
      exact sane.states.unmade a (by omega)
    · intro a inside
      have inside : a < s.made + 1 := inside
      by_cases same : a = s.made
      · subst same
        have sets : (PromisePtr.makeShared s).sets s.made = none := unset
        rw [self, outcome, one, sets]
        rfl
      · rw [(others a same).1, sane.states.result a (by omega), outcome, outcome,
          (others a same).2]
        rfl
    · intro a
      have same_line : line (PromisePtr.makeShared s) agenda a = line s agenda a := rfl
      by_cases same : a = s.made
      · subst same
        have before := (sane.states.posts s.made).unresolved result
        constructor
        · intro _
          rw [self, same_line]
          refine ⟨?_, before.2.1, before.2.2⟩
          change [] = (List.range (s.registered s.made)).map _
          rw [registered]
          rfl
        · intro resolved
          rw [self] at resolved
          exact absurd rfl resolved
      · constructor
        · rw [(others a same).1, same_line]
          exact (sane.states.posts a).unresolved
        · rw [(others a same).1, same_line]
          exact (sane.states.posts a).resolved
    · exact sane.states.asserts

/-- A holder resolves its state. -/
theorem Sane.set (sane : Sane s agenda) (holds : s.pointers p = .holds (some a))
    (unset : s.sets a = none) :
    Sane (set a result s).1 ((set a result s).2 ++ agenda) := by
  have positive := sane.pointers.count_pos holds
  have made := sane.states.made_of_count positive
  have unresolved : (s.heap.states a).r = none := by
    rw [sane.states.result a made, outcome, unset]
    simp [positive.ne']
  have keeps : Keeps s { s with sets := Function.update s.sets a (some result) } :=
    ⟨rfl, rfl, rfl, rfl, rfl, rfl⟩
  rw [PromisePtr.set,
    finish_of (s := { s with sets := Function.update s.sets a (some result) }) unresolved]
  constructor
  · have thens := ((sane.states.posts a).unresolved unresolved).1
    refine sane.pointers.same _ (by rfl) (by rfl) (by rfl) ?_
    intro q
    simp only [thens]
    exact countP_posts a _
  · apply sane.states.finish keeps made unresolved ⟨?_, ?_⟩ _ fun _ => rfl
    · intro b _ other
      simp [outcome, other]
    · rintro b beyond ⟨zero, unset⟩
      have other : b ≠ a := by omega
      simp [zero, unset, other]
    · simp [outcome]

theorem line_thenPost {i : ℕ} (b : ℕ) :
    line s (.client (.post a i) :: agenda) b =
      if a = b then s.posted b ++ i :: agenda.filterMap (postOf b) else line s agenda b := by
  by_cases same : a = b
  · subst same
    simp [line, postOf]
  · rw [if_neg same, line, line, List.filterMap_cons_none]
    simp [postOf, same]

/-- `then` keeps the continuation for later, or posts it. -/
theorem Sane.thenPost (sane : Sane s agenda) (made : a < s.made) :
    Sane (thenPost a s).1 ((thenPost a s).2 ++ agenda) := by
  have others : ∀ b, b ≠ a → (PromisePtr.thenPost a s).1.heap.states b = s.heap.states b ∧
      (PromisePtr.thenPost a s).1.registered b = s.registered b ∧ (PromisePtr.thenPost a s).1.early b = s.early b := by
    intro b other
    refine ⟨?_, by simp [PromisePtr.thenPost, other], by simp [PromisePtr.thenPost, other]⟩
    simp only [PromisePtr.thenPost, Heap.thenRun]
    split
    · exact Heap.setState_states_ne _ other
    · rfl
  have registered : (PromisePtr.thenPost a s).1.registered a = s.registered a + 1 := by
    simp [PromisePtr.thenPost]
  have results : ∀ b, ((PromisePtr.thenPost a s).1.heap.states b).r = (s.heap.states b).r := by
    intro b
    simp only [PromisePtr.thenPost, Heap.thenRun]
    split
    · by_cases same : b = a
      · subst same
        rw [Heap.setState_states_self]
      · rw [Heap.setState_states_ne _ same]
    · rfl
  have lines : ∀ b, b ≠ a →
      line (PromisePtr.thenPost a s).1 ((PromisePtr.thenPost a s).2 ++ agenda) b = line s agenda b := by
    intro b other
    simp only [PromisePtr.thenPost, Heap.thenRun]
    split
    · rfl
    · exact (line_thenPost b).trans (if_neg (Ne.symm other))
  constructor
  · refine sane.pointers.same _ (by rfl) (by rfl) (by rfl) ?_
    intro p
    simp only [PromisePtr.thenPost, Heap.thenRun]
    split <;> simp [ends]
  · constructor
    · intro b beyond
      have beyond : s.made ≤ b := beyond
      have other : b ≠ a := by omega
      rw [(others b other).1, (others b other).2.1]
      exact sane.states.unmade b beyond
    · intro b inside
      rw [results]
      exact sane.states.result b inside
    · intro b
      by_cases same : b = a
      · subst same
        constructor
        · intro unresolved
          rw [results] at unresolved
          obtain ⟨thens, early, empty⟩ := (sane.states.posts b).unresolved unresolved
          have kept : (PromisePtr.thenPost b s).1.heap = s.heap.setState b { s.heap.states b with
              thens := (s.heap.states b).thens ++ [.client (.post b (s.registered b))] } ∧
              (PromisePtr.thenPost b s).2 = [] := by
            simp [PromisePtr.thenPost, Heap.thenRun, unresolved]
          refine ⟨?_, ?_, ?_⟩
          · rw [kept.1, Heap.setState_states_self, registered, List.range_succ, List.map_append,
              ← thens]
            rfl
          · rw [registered]
            simp [PromisePtr.thenPost, unresolved]
          · rw [kept.2]
            exact empty
        · intro resolved
          rw [results] at resolved
          obtain ⟨thens, bound, perm, order⟩ := (sane.states.posts b).resolved resolved
          have kept : (PromisePtr.thenPost b s).1.heap = s.heap ∧ (PromisePtr.thenPost b s).1.early b = s.early b ∧
              (PromisePtr.thenPost b s).2 = [.client (.post b (s.registered b))] := by
            simp [PromisePtr.thenPost, Heap.thenRun, resolved]
          have longer : line (PromisePtr.thenPost b s).1 ((PromisePtr.thenPost b s).2 ++ agenda) b =
              s.posted b ++ s.registered b :: agenda.filterMap (postOf b) := by
            rw [kept.2.2]
            exact (line_thenPost b).trans (if_pos rfl)
          rw [kept.1, kept.2.1, registered, longer]
          refine ⟨thens, bound.trans (Nat.le_succ _), ?_, ?_⟩
          · have last : (List.range (s.registered b + 1)).Perm
                (s.registered b :: List.range (s.registered b)) := by
              rw [List.range_succ]
              exact List.perm_append_singleton _ _
            exact List.perm_middle.trans ((perm.cons _).trans last.symm)
          · rw [List.filter_append, List.filter_cons_of_neg (by simpa using bound),
              ← List.filter_append]
            exact order
      · constructor
        · rw [(others b same).1, (others b same).2.1, (others b same).2.2, lines b same]
          exact (sane.states.posts b).unresolved
        · rw [(others b same).1, (others b same).2.1, (others b same).2.2, lines b same]
          exact (sane.states.posts b).resolved
    · exact sane.states.asserts

/-- A continuation is posted: it moves on in its line. -/
theorem Sane.post {i : ℕ} (sane : Sane s (.client (.post a i) :: agenda)) :
    Sane { s with posted := Function.update s.posted a (s.posted a ++ [i]) } agenda := by
  have same : ∀ b, line { s with posted := Function.update s.posted a (s.posted a ++ [i]) } agenda b =
      line s (.client (.post a i) :: agenda) b := by
    intro b
    rw [line_thenPost]
    by_cases same : a = b
    · subst same
      simp [line]
    · simp [line, same, Ne.symm same]
  constructor
  · refine sane.pointers.same _ (by rfl) (by rfl) (by rfl) ?_
    intro p
    simp [ends]
  · constructor
    · exact sane.states.unmade
    · exact sane.states.result
    · intro b
      constructor
      · rw [same]
        exact (sane.states.posts b).unresolved
      · rw [same]
        exact (sane.states.posts b).resolved
    · exact sane.states.asserts

end Tconcurrent.PromisePtr
