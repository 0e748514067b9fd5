import Tconcurrent.PromisePtrSteps

/-! A state resolves once and posts every continuation, as long as no continuation
gets hold of a pointer that is just being assigned to or destroyed. -/
namespace Tconcurrent.PromisePtr
open Interleaving Builtins

variable {s s' : State} {agenda rest calls : List PromiseAction} {a p q r : ℕ}
  {call : PromiseAction} {choice : Choice} {config : Config State PromiseAction}

/-- The pointers an operation is about. -/
def Choice.uses : Choice → List ℕ
  | .copy r | .move r => [r]
  | .copyAssign q r | .moveAssign q r => [q, r]
  | .destroy p | .set p _ => [p]
  | _ => []

/-- No operation uses a pointer that is inside its `finish`; an assignment finds
its source there after `finish`, and not null if it copies; and the count of a
state does not overflow. -/
structure UsesOthers (s : State) (call : PromiseAction) (choice : Choice) : Prop where
  pointers : call = .client .user → ∀ p ∈ choice.uses, (s.pointers p).isFinishing = false
  copied : ∀ q r, call = .client (.copyAssigned q r) → ∃ a, s.pointers r = .holds (some a)
  moved : ∀ q r, call = .client (.moveAssigned q r) → ∃ target, s.pointers r = .holds target
  counts : ∀ a < s.made, s.promiseCount a + 1 < 2 ^ 32

theorem holds_of_uses (exists_ : s.pointers p ≠ .gone)
    (used : (s.pointers p).isFinishing = false) : ∃ target, s.pointers p = .holds target := by
  cases pointer : s.pointers p with
  | gone => exact absurd pointer exists_
  | holds target => exact ⟨target, rfl⟩
  | finishing target =>
    rw [pointer] at used
    cases used

theorem exists_of_target (points : s.target p = some a) : s.pointers p ≠ .gone := by
  intro gone
  rw [State.target, gone] at points
  cases points

theorem holds_of_target (points : s.target p = some a)
    (used : (s.pointers p).isFinishing = false) : s.pointers p = .holds (some a) := by
  obtain ⟨target, holds⟩ := holds_of_uses (exists_of_target points) used
  rw [State.target, holds] at points
  rw [holds]
  exact congrArg _ points

theorem Sane.counts_small (sane : Sane s agenda)
    (counts : ∀ a < s.made, s.promiseCount a + 1 < 2 ^ 32) (a : ℕ) :
    s.promiseCount a + 1 < 2 ^ 32 := by
  by_cases made : a < s.made
  · exact counts a made
  · rw [(sane.states.unmade a (by omega)).2.2.1]
    decide

/-- What user code does. -/
theorem Sane.user (sane : Sane s agenda) (allowed : UsesOthers s (.client .user) choice)
    (ran : user s choice = some (s', calls)) : Sane s' (calls ++ agenda) := by
  have small := sane.counts_small allowed.counts
  have again : ∀ {s : State} (calls : List PromiseAction), Sane s (calls ++ agenda) →
      Sane s (calls ++ [.client .user] ++ agenda) := by
    intro s calls kept
    rw [List.append_assoc]
    exact kept.of_frames (sameFrames_user calls)
  cases choice with
  | «return» =>
    cases ran
    exact sane
  | makeShared =>
    cases ran
    exact again [] sane.makeShared
  | copy r =>
    obtain ⟨after, copied, same⟩ := Option.map_eq_some_iff.mp ran
    cases same
    obtain ⟨a, points, -⟩ := Option.map_eq_some_iff.mp copied
    have holds := holds_of_target points (allowed.pointers rfl r (by simp [Choice.uses]))
    exact again [] (sane.copy holds small copied)
  | move r =>
    simp only [PromisePtr.user] at ran
    split at ran
    · cases ran
    · rename_i exists_
      cases ran
      obtain ⟨target, holds⟩ := holds_of_uses exists_ (allowed.pointers rfl r (by simp [Choice.uses]))
      exact again [] (sane.move holds)
  | copyAssign q r =>
    simp only [PromisePtr.user] at ran
    split at ran
    · cases ran
    · rename_i exists_
      cases ran
      obtain ⟨target, holds⟩ := holds_of_uses (not_or.mp exists_).1
        (allowed.pointers rfl q (by simp [Choice.uses]))
      exact again _ (sane.copyAssign holds)
  | moveAssign q r =>
    simp only [PromisePtr.user] at ran
    split at ran
    · cases ran
    · rename_i exists_
      cases ran
      obtain ⟨target, holds⟩ := holds_of_uses (not_or.mp exists_).1
        (allowed.pointers rfl q (by simp [Choice.uses]))
      exact again _ (sane.moveAssign holds)
  | destroy p =>
    simp only [PromisePtr.user] at ran
    split at ran
    · cases ran
    · rename_i exists_
      cases ran
      obtain ⟨target, holds⟩ := holds_of_uses exists_ (allowed.pointers rfl p (by simp [Choice.uses]))
      exact again _ (sane.destroy holds)
  | tryLock a =>
    simp only [PromisePtr.user] at ran
    split at ran
    · cases ran
      exact again [] (sane.tryLock small)
    · cases ran
  | set p result =>
    simp only [PromisePtr.user] at ran
    split at ran
    · rename_i a points
      split at ran
      · rename_i unset
        cases ran
        have holds := holds_of_target points (allowed.pointers rfl p (by simp [Choice.uses]))
        exact again _ (sane.set holds unset)
      · cases ran
    · cases ran
  | «then» a =>
    simp only [PromisePtr.user] at ran
    split at ran
    · rename_i made
      cases ran
      exact again _ (sane.thenPost made)
    · cases ran

/-- **One step keeps the invariant.** -/
theorem Sane.step {thread : ℕ} (sane : Sane s (call :: rest)) (allowed : UsesOthers s call choice)
    (ran : exec thread choice s call = some (s', calls)) : Sane s' (calls ++ rest) := by
  cases call with
  | client k =>
    cases k with
    | user =>
      have without : Sane s rest :=
        sane.of_frames ⟨fun _ => rfl, fun _ => rfl⟩
      exact without.user allowed ran
    | post a i =>
      cases ran
      exact sane.post.of_frames (sameFrames_user [])
    | copyAssigned q r =>
      obtain ⟨after, assigned, same⟩ := Option.map_eq_some_iff.mp ran
      cases same
      obtain ⟨a, holds⟩ := allowed.copied q r rfl
      exact sane.copyAssigned holds (sane.counts_small allowed.counts) assigned
    | moveAssigned q r =>
      cases ran
      obtain ⟨target, holds⟩ := allowed.moved q r rfl
      exact sane.moveAssigned holds
    | destroyed p =>
      cases ran
      exact sane.destroyed
  | _ => cases ran

theorem sane_start : Sane {} [.client .user] where
  pointers := ⟨fun _ => rfl, fun _ _ => rfl, fun _ => rfl⟩
  states := by
    constructor
    · exact fun _ _ => ⟨rfl, rfl, rfl, rfl⟩
    · intro a inside
      cases inside
    · intro a
      exact ⟨fun _ => ⟨rfl, rfl, rfl⟩, fun resolved => absurd rfl resolved⟩
    · rfl

/-! ## What is resolved stays -/

/-- What is resolved keeps its result, and no holder sets it any more. -/
structure Later (s s' : State) : Prop where
  result : ∀ a x, (s.heap.states a).r = some x → (s'.heap.states a).r = some x
  sets : ∀ a, (s.heap.states a).r ≠ none → s'.sets a = s.sets a

theorem Later.of_same (heap : s'.heap = s.heap) (sets : s'.sets = s.sets) : Later s s' where
  result a x := by rw [heap]; exact id
  sets a _ := by rw [sets]

theorem Later.trans {s'' : State} (first : Later s s') (second : Later s' s'') : Later s s'' where
  result a x result := second.result a x (first.result a x result)
  sets a resolved := by
    obtain ⟨x, result⟩ := Option.ne_none_iff_exists'.mp resolved
    have still : (s'.heap.states a).r ≠ none := by simp [first.result a x result]
    rw [second.sets a still, first.sets a resolved]

theorem later_finish {result : Result ℕ ℕ} (unresolved : (s.heap.states a).r = none) :
    Later s (finish a result s).1 := by
  rw [finish_of unresolved]
  constructor
  · intro b x before
    have other : b ≠ a := by
      rintro rfl
      rw [unresolved] at before
      cases before
    exact (congrArg SharedBase.r (Heap.setState_states_ne _ other)).trans before
  · exact fun _ _ => rfl

theorem later_decrementPromise : Later s (decrementPromise a s).1 := by
  have given : ∀ count, Later s ((check s (0 < s.promiseCount a)).setCount a count) := by
    intro count
    unfold check
    split <;> exact .of_same rfl rfl
  unfold decrementPromise
  generalize decrement (s.promiseCount a) = count
  simp only
  split
  · rename_i last
    exact (given count).trans (later_finish last.2)
  · exact given count

theorem later_finishPointer : Later s (finishPointer p s).1 := by
  have pointed : Later s (s.setPointer p (.finishing (s.target p))) := .of_same rfl rfl
  unfold finishPointer
  simp only
  split
  · exact pointed.trans later_decrementPromise
  · exact pointed

theorem later_lock : Later s (lock a s) := by
  unfold lock incrementPromise
  split <;> exact .of_same rfl rfl

theorem later_copyAssign : Later s (copyAssign q r s).1 := by
  unfold copyAssign
  split
  · exact later_finishPointer
  · exact .of_same rfl rfl

theorem later_moveAssign : Later s (moveAssign q r s).1 := by
  unfold moveAssign
  split
  · exact later_finishPointer
  · exact .of_same rfl rfl

theorem later_tryLock : Later s (tryLock a s) := by
  unfold tryLock incrementPromise
  split
  · rename_i locked
    obtain ⟨-, same⟩ := Option.ite_none_left_eq_some.mp locked
    cases same
    exact .of_same rfl rfl
  · exact .of_same rfl rfl

theorem later_thenPost : Later s (thenPost a s).1 := by
  constructor
  · intro b x before
    simp only [thenPost, Heap.thenRun]
    split
    · by_cases same : b = a
      · subst same
        rw [Heap.setState_states_self]
        exact before
      · rw [Heap.setState_states_ne _ same]
        exact before
    · exact before
  · exact fun _ _ => rfl

/-- One step leaves alone what is resolved. -/
theorem Sane.later {thread : ℕ} (sane : Sane s (call :: rest)) (allowed : UsesOthers s call choice)
    (ran : exec thread choice s call = some (s', calls)) : Later s s' := by
  cases call with
  | client k =>
    cases k with
    | user =>
      cases choice with
      | «return» =>
        cases ran
        exact .of_same rfl rfl
      | makeShared =>
        cases ran
        have fresh := (sane.states.unmade s.made le_rfl).1
        constructor
        · intro a x before
          have other : a ≠ s.made := by
            rintro rfl
            rw [fresh] at before
            cases before
          exact (congrArg SharedBase.r (Heap.setState_states_ne _ other)).trans before
        · exact fun _ _ => rfl
      | copy r =>
        obtain ⟨after, copied, same⟩ := Option.map_eq_some_iff.mp ran
        cases same
        obtain ⟨a, -, same⟩ := Option.map_eq_some_iff.mp copied
        have built : Later s (s.newPointer (some a)) := .of_same rfl rfl
        rw [← same]
        exact built.trans later_lock
      | move r =>
        obtain ⟨-, same⟩ := Option.ite_none_left_eq_some.mp ran
        cases same
        exact .of_same rfl rfl
      | copyAssign q r =>
        obtain ⟨-, same⟩ := Option.ite_none_left_eq_some.mp ran
        cases same
        exact later_copyAssign
      | moveAssign q r =>
        obtain ⟨-, same⟩ := Option.ite_none_left_eq_some.mp ran
        cases same
        exact later_moveAssign
      | destroy p =>
        obtain ⟨-, same⟩ := Option.ite_none_left_eq_some.mp ran
        cases same
        exact later_finishPointer
      | tryLock a =>
        obtain ⟨-, same⟩ := Option.ite_none_right_eq_some.mp ran
        cases same
        exact later_tryLock
      | set p result =>
        simp only [exec, clientExec, PromisePtr.user] at ran
        split at ran
        · rename_i a points
          split at ran
          · rename_i unset
            cases ran
            have holds := holds_of_target points (allowed.pointers rfl p (by simp [Choice.uses]))
            have positive := sane.pointers.count_pos holds
            have unresolved : (s.heap.states a).r = none := by
              rw [sane.states.result a (sane.states.made_of_count positive), outcome, unset]
              simp [positive.ne']
            have given : Later s { s with sets := Function.update s.sets a (some result) } := by
              constructor
              · exact fun _ _ => id
              · intro b resolved
                have other : b ≠ a := by
                  rintro rfl
                  exact resolved unresolved
                simp [other]
            exact given.trans (later_finish unresolved)
          · cases ran
        · cases ran
      | «then» a =>
        obtain ⟨-, same⟩ := Option.ite_none_right_eq_some.mp ran
        cases same
        exact later_thenPost
    | post a i =>
      cases ran
      exact .of_same rfl rfl
    | copyAssigned q r =>
      obtain ⟨after, assigned, same⟩ := Option.map_eq_some_iff.mp ran
      cases same
      obtain ⟨a, -, same⟩ := Option.map_eq_some_iff.mp assigned
      have pointed : Later s (s.setPointer q (.holds (some a))) := .of_same rfl rfl
      rw [← same]
      exact pointed.trans later_lock
    | moveAssigned q r =>
      cases ran
      exact .of_same rfl rfl
    | destroyed p =>
      cases ran
      exact .of_same rfl rfl
  | _ => cases ran

/-! ## Runs -/

theorem sane_of_reachable (reached : Reachable exec UsesOthers start config) :
    ∃ agenda, config.threads = [agenda] ∧ Sane config.state agenda :=
  reached.invariant_agenda Sane sane_start fun _ _ _ _ _ _ _ sane allowed ran =>
    sane.step allowed ran

theorem later_of_reachable {config' : Config State PromiseAction}
    (reached : Reachable exec UsesOthers start config)
    (more : Reachable exec UsesOthers config config') : Later config.state config'.state := by
  induction more with
  | start => exact .of_same rfl rfl
  | @next before after thread choice earlier permitted stepped ih =>
    obtain ⟨agenda, threads, sane⟩ := sane_of_reachable (reached.trans earlier)
    obtain ⟨call, calls, others, current, -, -, ran⟩ := Config.next_spec stepped
    obtain ⟨rest, rfl⟩ : ∃ rest, agenda = call :: rest := by
      obtain ⟨listed, inside, first⟩ := Option.bind_eq_some_iff.mp current
      rw [threads] at inside
      obtain rfl := List.mem_singleton.mp (List.mem_of_getElem? inside)
      exact ⟨listed.tail, (List.cons_head?_tail first).symm⟩
    exact ih.trans (sane.later (permitted call current) ran)

/-- Counts, results and continuations are what they should be, now and later.
What was posted for a resolved state, and what is about to be, are its
continuations, each of them once, and those that were registered before it was
resolved in their order. -/
structure ResolvesOnce (config : Config State PromiseAction) : Prop where
  counts : ∀ a, config.state.promiseCount a = (holders config.state a).card
  result : ∀ a < config.state.made, (config.state.heap.states a).r =
    match config.state.sets a with
    | some r => some r
    | none => if holders config.state a = ∅ then some (.exception .brokenPromise) else none
  kept : ∀ config', Reachable exec UsesOthers config config' → ∀ a x,
    (config.state.heap.states a).r = some x → (config'.state.heap.states a).r = some x
  dead : ∀ config', Reachable exec UsesOthers config config' → ∀ a,
    config.state.sets a = none → (config.state.heap.states a).r ≠ none →
      incrementPromise a config'.state = none
  waiting : ∀ a, (config.state.heap.states a).r = none → config.state.posted a = []
  posted : ∀ a, (config.state.heap.states a).r ≠ none →
    (line config.state config.threads.flatten a).Perm
        (List.range (config.state.registered a)) ∧
      (line config.state config.threads.flatten a).filter (· < config.state.early a) =
        List.range (config.state.early a)
  asserts : config.state.assertFailed = false

/-- **Under the condition a state resolves once and loses no continuation.** -/
theorem resolvesOnce_of_usesOthers (reached : Reachable exec UsesOthers start config) :
    ResolvesOnce config := by
  obtain ⟨agenda, threads, sane⟩ := sane_of_reachable reached
  have flat : config.threads.flatten = agenda := by rw [threads]; simp
  constructor
  · exact sane.pointers.counted
  · intro a made
    have none_left : config.state.promiseCount a = 0 ↔ holders config.state a = ∅ := by
      rw [sane.pointers.counted, Finset.card_eq_zero]
    rw [sane.states.result a made, outcome]
    cases config.state.sets a with
    | some r => rfl
    | none => exact if_congr none_left rfl rfl
  · intro config' more a x result
    exact (later_of_reachable reached more).result a x result
  · intro config' more a unset resolved
    have later := later_of_reachable reached more
    obtain ⟨agenda', -, sane'⟩ := sane_of_reachable (reached.trans more)
    obtain ⟨x, result⟩ := Option.ne_none_iff_exists'.mp resolved
    have result' := later.result a x result
    have made' : a < config'.state.made := by
      by_contra beyond
      rw [(sane'.states.unmade a (by omega)).1] at result'
      cases result'
    have outcome' := sane'.states.result a made'
    rw [result', outcome, later.sets a resolved, unset] at outcome'
    have zero : config'.state.promiseCount a = 0 := by
      by_contra positive
      simp [positive] at outcome'
    exact if_pos zero
  · intro a unresolved
    have empty := ((sane.states.posts a).unresolved unresolved).2.2
    exact (List.append_eq_nil_iff.mp empty).1
  · intro a resolved
    rw [flat]
    exact ((sane.states.posts a).resolved resolved).2.2
  · exact sane.states.asserts

/-- A check of the condition. -/
def usesOthers (s : State) (call : PromiseAction) (choice : Choice) : Bool :=
  (List.range s.made).all (fun a => s.promiseCount a + 1 < 2 ^ 32) &&
    match call with
    | .client .user => choice.uses.all fun p => !(s.pointers p).isFinishing
    | .client (.copyAssigned _ r) =>
      match s.pointers r with
      | .holds (some _) => true
      | _ => false
    | .client (.moveAssigned _ r) =>
      match s.pointers r with
      | .holds _ => true
      | _ => false
    | _ => true

theorem usesOthers_sound (s : State) (call : PromiseAction) (choice : Choice)
    (checked : usesOthers s call choice = true) : UsesOthers s call choice := by
  simp only [usesOthers, Bool.and_eq_true, List.all_eq_true, List.mem_range,
    decide_eq_true_eq] at checked
  obtain ⟨counts, rest⟩ := checked
  constructor
  · rintro rfl p used
    simp only [List.all_eq_true, Bool.not_eq_true'] at rest
    exact rest p used
  · rintro q r rfl
    simp only at rest
    split at rest
    · rename_i a holds
      exact ⟨a, holds⟩
    · cases rest
  · rintro q r rfl
    simp only at rest
    split at rest
    · rename_i target holds
      exact ⟨target, holds⟩
    · cases rest
  · exact counts

/-- The last promise of a state is assigned to.  The first continuation of the
state fails to lock it, registers another one, which is posted at once, and
copies a promise of the other state. -/
def breakWithContinuations : List (ℕ × Choice) :=
  [.makeShared, .makeShared, .then 0, .then 0, .moveAssign 0 1, .return, .tryLock 0, .then 0,
    .return, .return, .copy 1, .return, .return, .return, .return].map (0, ·)

theorem resolvesOnce_breakWithContinuations : ∃ config : Config State PromiseAction,
    (config.state.heap.states 0).r = some (.exception .brokenPromise) ∧
      config.state.posted 0 = [0, 2, 1] ∧ ResolvesOnce config := by
  have ran : (start.runWithin exec usesOthers breakWithContinuations).map (fun config =>
      (config.state.heap.states 0).r == some (.exception .brokenPromise) &&
      config.state.posted 0 == [0, 2, 1]) = some true := by decide
  obtain ⟨config, reached, held⟩ := reachable_of_replay_within usesOthers_sound _ _ ran
  simp only [Bool.and_eq_true, beq_iff_eq] at held
  exact ⟨config, held.1, held.2, resolvesOnce_of_usesOthers reached⟩

/-- A continuation copies the pointer that is just being assigned to. -/
def copyWhileAssigned : List (ℕ × Choice) :=
  [.makeShared, .makeShared, .then 0, .moveAssign 0 1, .return, .copy 0, .return, .return].map (0, ·)

/-- The copy is a pointer that no count knows of. -/
theorem copy_while_assigned_is_not_counted : ∃ config : Config State PromiseAction,
    Reachable exec Anything start config ∧ config.threads = [[.client .user]] ∧
      config.state.pointers 2 = .holds (some 0) ∧ config.state.promiseCount 0 = 0 ∧
      config.state.assertFailed = true ∧ ¬ ResolvesOnce config := by
  have ran : (start.run exec copyWhileAssigned).map (fun config =>
      config.threads == [[.client .user]] &&
      config.state.pointers 2 == .holds (some 0) && config.state.promiseCount 0 == 0 &&
      config.state.assertFailed) = some true := by decide
  obtain ⟨config, reached, held⟩ := reachable_of_replay _ _ ran
  simp only [Bool.and_eq_true, beq_iff_eq] at held
  obtain ⟨⟨⟨threads, pointer⟩, count⟩, failed⟩ := held
  refine ⟨config, reached, threads, pointer, count, failed, fun resolves => ?_⟩
  rw [resolves.asserts] at failed
  cases failed

end Tconcurrent.PromisePtr
