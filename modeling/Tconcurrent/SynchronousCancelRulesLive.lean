import Tconcurrent.SynchronousCancelRulesSound
import Tconcurrent.SynchronousCancelResolves

/-! What the rules say of whole runs: a future is never stuck, and comes to what they say.  An
expression without `when_any` has one result, whatever the executor does first. -/
namespace Tconcurrent.SynchronousCancel
open Recursion Relation

variable {fut after : Future} {v : Value} {n k : ℕ} {M M₀ : Post} {inCatch : Bool}

/-! ## The executor is not stuck -/

/-- It returns: the program is not terminated while nothing is canceled. -/
abbrev Gets {α : Type} (code : FutureCode α) (post : α → Prop) : Prop :=
  Recursion.Ends False body code post

/-- It returns, and nothing is canceled. -/
abbrev Halted (code : FutureCode Future) : Prop :=
  Gets code fun after => after.token.isCancelRequested = false

theorem start_gets (e : Expr) : Gets (start e) Formed :=
  .inl ((start_formed e).returns (@leaves (.start e) trivial).1)

theorem apply_halts {r : Ret} : Gets (apply r v) fun _ => True := by
  cases r with
  | value | throws | arg => exact ends_pure trivial
  | future e => exact (ends_call (start_gets e)).bind fun _ _ => ends_pure trivial

theorem pop_halted {next : Future → FutureCode Future}
    (unrequested : fut.token.isCancelRequested = false)
    (goesOn : Halted (next (fut.setStack fut.token.doCancels.tail))) :
    Halted (fut.pop inCatch >>= next) := by
  rw [pop_eq unrequested]
  exact Ends.bind (ends_pure rfl) fun _ same => same ▸ goesOn

theorem unwrapInner_halted (unrequested : fut.token.isCancelRequested = false)
    (sets : ∀ (fut' : Future) v, fut'.stages = fut.stages →
      fut'.token.isCancelRequested = false → Halted (fut'.set inCatch v)) :
    Halted (fut.unwrapInner inCatch) := by
  unfold Future.unwrapInner
  split
  · split
    · exact pop_halted unrequested (ends_call (sets _ _ rfl unrequested))
    · exact ends_pure unrequested
  · exact ends_pure unrequested

/-- Continuations run until one of them waits for another future. -/
theorem set_halted (unrequested : fut.token.isCancelRequested = false) :
    Halted (fut.set inCatch v) := by
  induction left : fut.stages generalizing fut v inCatch with
  | nil =>
    rw [Future.set, left]
    exact ends_pure unrequested
  | cons stage rest ih =>
    have goesOn {c : Bool} {v' : Value} : Halted ({ fut with stages := rest }.set c v') :=
      ih unrequested rfl
    rw [Future.set, left]
    show Halted (Future.runStage { fut with stages := rest } inCatch v stage)
    cases stage with
    | «then» f => exact apply_halts.bind fun v' _ => ends_call goesOn
    | andThen f =>
      simp only [Future.runStage, unrequested, Bool.false_eq_true, if_false]
      split
      · exact ends_call goesOn
      · exact apply_halts.bind fun v' _ => ends_call goesOn
    | unwrap =>
      unfold Future.runStage
      dsimp only
      split
      · exact ends_call goesOn
      · have given {inner : Future} : Gets (pure inner : FutureCode Future) (inner = ·) :=
          ends_pure rfl
        simp only [Future.unwrapOuter, Future.setStack, unrequested, Bool.false_eq_true, if_false]
        refine given.bind ?_
        rintro _ rfl
        exact unwrapInner_halted rfl fun fut' v stages unrequested' => ih unrequested' stages

theorem finish_halted {caught : Bool} (unrequested : fut.token.isCancelRequested = false) :
    Halted (fut.finish inCatch caught v) := by
  have sets := @set_halted { fut with source := .ended } v (inCatch || caught) unrequested
  refine (ends_call sets).bind fun after unrequested' => ?_
  split
  · exact ends_pure unrequested'
  · rw [Future.destroy, pop_eq]
    · exact ends_pure unrequested'
    · exact unrequested'

/-- What is started, and what comes of it. -/
theorem start_comes {e : Expr} (yields : Yields n e M) : Gets (start e) (Comes n · M) := by
  obtain ⟨after, returns, -⟩ := (start_gets e).resolve_right And.left
  exact .inl ⟨after, returns, @returns_accords (.start e) after returns n M yields⟩

/-- A coroutine goes on until it ends or waits. -/
theorem run_halted {rest : Body} {results : List Datum}
    (unrequested : fut.token.isCancelRequested = false) (runs : RunYields n rest results M) :
    Halted (fut.run rest results) := by
  induction n using Nat.strong_induction_on generalizing results M with
  | h n ih =>
    unfold Future.run
    cases runs with
    | «return» next holds =>
      simp only [next]
      exact apply_halts.bind fun v _ => finish_halted unrequested
    | await next first goesOn bound =>
      simp only [next]
      refine (ends_call (start_comes first)).bind fun awaited comes => ?_
      split
      · rename_i v result
        obtain ⟨m, value, holds⟩ := comes.result result
        have runs := goesOn m holds
        rw [value.view] at runs
        exact ends_call (ih _ (by omega) runs)
      · exact ends_pure unrequested

theorem callback_halted {j : ℕ} (unrequested : fut.token.isCancelRequested = false)
    (plain : ∀ futures, fut.source ≠ .whenAny futures true false) :
    Halted (fut.callback inCatch j) := by
  unfold Future.callback
  split
  · dsimp only
    split
    · exact ends_call (set_halted unrequested)
    · exact ends_pure unrequested
  · rename_i futures autoCancel triggered source
    cases triggered with
    | true => exact ends_pure unrequested
    | false =>
      cases autoCancel with
      | true => exact absurd source (plain futures)
      | false => exact ends_call (set_halted unrequested)
  · exact ends_pure unrequested

/-- One of the futures that it waits for can go on. -/
theorem event_future_halts {future : Future} {futures : List Future} {j : ℕ}
    {path : List Selector} (unrequested : fut.token.isCancelRequested = false)
    (waiting : fut.waiting = .source) (plain : ∀ futures, fut.source ≠ .whenAny futures true false)
    (members : fut.source.futures = futures) (at_j : futures[j]? = some future)
    (inside : future.awaits path = true ∧ Gets (future.event path .fire) fun _ => True) :
    fut.awaits (.future j :: path) = true ∧
      Gets (fut.event (.future j :: path) .fire) fun _ => True := by
  obtain ⟨awaits, halts⟩ := inside
  constructor
  · simp only [Future.awaits, waiting, members, at_j, awaits]
  · simp only [Future.event, members, at_j]
    refine (ends_call halts).bind fun after _ => ?_
    split
    · exact ends_pure trivial
    · unfold Future.change
      dsimp only
      split
      · refine (callback_halted ?_ ?_).mono fun _ _ => trivial
        · exact unrequested
        · intro futures' changed
          cases source : fut.source with
          | whenAny futures autoCancel triggered =>
            rw [source] at changed
            cases changed
            exact plain futures source
          | none | async | asyncWait | unstarted | awaiting | ended | destroyed | whenAll =>
            rw [source] at changed
            cases changed
      · exact ends_pure trivial

/-- There is something to run that it waits for. -/
abbrev Goes (fut : Future) : Prop :=
  ∃ path, fut.awaits path = true ∧ Gets (fut.event path .fire) fun _ => True

/-- What a future waits for at first can go on, if the futures in it can. -/
theorem SourceComes.goes (comes : SourceComes n fut.source M) (waiting : fut.waiting = .source)
    (unrequested : fut.token.isCancelRequested = false)
    (inside : ∀ awaited rest results, fut.source = .awaiting awaited rest results →
      ∀ n M, Comes n awaited M → awaited.isReady = false → Goes awaited)
    (members : ∀ future ∈ fut.source.futures, ∀ n M, Comes n future M →
      future.isReady = false → Goes future) : Goes fut := by
  have here (halts : Halted fut.fire) : Goes fut := by
    refine ⟨[], ?_, halts.mono fun _ _ => trivial⟩
    simp only [Future.awaits, waiting]
  have one {Ms : List Post} {n : ℕ} {futures : List Future}
      (plain : ∀ futures, fut.source ≠ .whenAny futures true false)
      (eq : fut.source.futures = futures) (come : FuturesCome n futures Ms)
      (pending : ∃ future ∈ futures, future.isReady = false) : Goes fut := by
    obtain ⟨future, member, pending⟩ := pending
    obtain ⟨j, at_j⟩ := List.mem_iff_getElem?.mp member
    obtain ⟨n₁, k₁, M₁, comes₁, -, -⟩ := come.split at_j
    obtain ⟨path, goes⟩ := members future (eq ▸ member) n₁ M₁ comes₁ pending
    exact ⟨.future j :: path, event_future_halts unrequested waiting plain eq at_j goes⟩
  unfold Future.fire at here
  cases source : fut.source with
  | async f =>
    rw [source] at here
    exact here (pop_halted unrequested
      (apply_halts.bind fun v _ => ends_call (set_halted unrequested)))
  | asyncWait =>
    rw [source] at here
    exact here (pop_halted unrequested (ends_call (set_halted unrequested)))
  | unstarted rest =>
    rw [source] at here comes
    cases comes with
    | unstarted runs => exact here (ends_call (run_halted unrequested runs))
  | awaiting awaited rest results =>
    rw [source] at here comes
    cases comes with
    | awaiting comes goesOn bound =>
      cases result : awaited.result with
      | some v =>
        obtain ⟨m, value, holds⟩ := comes.result result
        have runs := goesOn m holds
        rw [value.view] at runs
        simp only [result] at here
        exact here (ends_call (run_halted unrequested runs))
      | none =>
        obtain ⟨path, awaits, halts⟩ :=
          inside _ _ _ source _ _ comes (result_eq_none.mp result)
        refine ⟨.awaited :: path, ?_, ?_⟩
        · simp only [Future.awaits, waiting, source, awaits]
        · simp only [Future.event, source]
          exact (ends_call halts).bind fun _ _ => ends_pure trivial
  | whenAll futures count =>
    rw [source] at comes
    cases comes with
    | whenAll all counted incomplete =>
      refine one (by simp [source]) (by rw [source]; rfl) all ?_
      by_contra ready
      push Not at ready
      rw [counted, List.countP_eq_length.mpr] at incomplete
      · exact Nat.lt_irrefl _ incomplete
      · simpa using ready
  | whenAny futures autoCancel triggered =>
    rw [source] at comes
    cases comes with
    | whenAny all none some =>
      refine one (by simp [source]) (by rw [source]; rfl) all ?_
      obtain ⟨future, member⟩ := List.exists_mem_of_ne_nil _ some
      exact ⟨future, member, none future member⟩
  | none | ended | destroyed =>
    rw [source] at comes
    cases comes

/-- **Progress**: there is something to run that a future waits for, unless it is ready. -/
theorem Comes.goes (shaped : Shaped fut) (comes : Comes n fut M) (pending : fut.isReady = false) :
    Goes fut := by
  induction shaped generalizing n M with
  | @mk fut _ _ _ _ _ _ _ _ inside _ awaits futures =>
    cases comes with
    | mk unrequested last first stages bound =>
      cases waiting : fut.waiting with
      | source =>
        rw [waiting] at first
        cases first with
        | source comes =>
          exact comes.goes waiting unrequested
            (fun _ _ _ source _ _ => awaits _ _ _ source)
            fun future member _ _ => futures future member
      | inner inner =>
        rw [waiting] at first
        cases first with
        | inner unready comes =>
          obtain ⟨path, awaits', halts⟩ := inside inner waiting comes unready
          refine ⟨.inner :: path, ?_, ?_⟩
          · simp only [Future.awaits, waiting, awaits']
          · simp only [Future.event, waiting]
            refine (ends_call halts).bind fun inner' _ => ?_
            refine Ends.mono (unwrapInner_halted ?_ ?_) fun _ _ => trivial
            · exact unrequested
            · exact fun fut' v _ unrequested' => set_halted unrequested'
      | ready v =>
        rw [Future.isReady_iff.mpr ⟨v, waiting⟩] at pending
        cases pending

/-! ## Runs -/

variable {e : Expr}

theorem Calm.shaped (calm : Calm e k fut) : Shaped fut := by
  induction calm with
  | start returns => exact (@returns_meets (.start e) _ returns).1
  | event _ _ returns ih => exact ((@returns_meets (.event _ _ _) _ returns) ih).1.shaped

theorem Calm.comes (yields : Yields n e M) (calm : Calm e k fut) :
    ∃ n', Comes n' fut M ∧ n' + k ≤ n := by
  induction calm with
  | start returns => exact ⟨n, @returns_accords (.start e) _ returns n M yields, le_rfl⟩
  | event calm uncanceled returns ih =>
    obtain ⟨n₁, comes, le⟩ := ih
    obtain ⟨n', comes', le'⟩ :=
      @returns_accords (.event _ _ _) _ returns calm.shaped uncanceled n₁ M comes
    exact ⟨n', comes', by omega⟩

/-- The executor can run something that the future waits for. -/
def Future.GoesOn (fut : Future) : Prop :=
  ∃ path after, fut.awaits path = true ∧ Returns body (fut.event path .fire) after

/-- **The rules are sound**, in whatever order the executor runs things and handles are dropped:
a future comes to what they say, is not stuck before, and waits for no more than they say. -/
theorem yields_sound (yields : Yields n e M) (calm : Calm e k fut) :
    k ≤ n ∧ (∀ v, fut.result = some v → M.Sees v.view) ∧ (fut.isReady = false → fut.GoesOn) := by
  obtain ⟨n', comes, le⟩ := calm.comes yields
  refine ⟨by omega, fun v => comes.sees, fun pending => ?_⟩
  obtain ⟨path, awaits, gets⟩ := comes.goes calm.shaped pending
  obtain ⟨after, returns, -⟩ := gets.resolve_right And.left
  exact ⟨path, after, awaits, returns⟩

/-- What `when_any` has told of. -/
def indexOf : Datum → Ret
  | .any (some j) _ => .value j
  | _ => .throws .operationCanceled

def firstOfTwo : Expr := .then (.whenAny [.async (.value 7), .asyncWait] false) indexOf

def neitherFirst : Future :=
  { waitFor (.whenAny [waitFor (.async (.value 7)), waitFor .asyncWait] false false) with
    stages := [.then indexOf] }

/-- The timer has fired before the task runs. -/
def timerFirst : Future where
  token := { doCancels := [.source] }
  source := .whenAny [waitFor (.async (.value 7)),
    { source := .none, waiting := .ready (.datum (.value 0)) }] false true
  waiting := .ready (.datum (.value 1))

/-- The index of one of two futures. -/
def IndexOfTwo : Post := fun m => ∃ j < 2, m = .datum (.value j)

theorem firstOfTwo_yields : Yields 2 firstOfTwo IndexOfTwo := by
  have tells : Yields 2 (.whenAny [.async (.value 7), .asyncWait] false)
      fun m => ∃ j < 2, ∃ results, m = .datum (.any (some j) results) := by
    have all : AllYield 2 [.async (.value 7), .asyncWait] [fun _ => True, fun _ => True] :=
      .cons (n := 1) (k := 1) (.async trivial)
        (.cons (n := 1) (k := 0) (.asyncWait trivial) .nil le_rfl) le_rfl
    refine .whenAny (by simp) all fun index results any => ?_
    obtain ⟨d, at_index⟩ := any.ready
    have inside := (List.getElem?_eq_some_iff.mp at_index).1
    rw [← any.sees.length_eq] at inside
    exact ⟨index, inside, results, rfl⟩
  refine .then (k := 0) tells ?_ le_rfl
  rintro _ ⟨j, inside, results, rfl⟩
  exact .then ⟨j, inside, rfl⟩

theorem timerFirst_calm : Calm firstOfTwo 1 timerFirst := by
  have starts : Returns body (start firstOfTwo) neitherFirst :=
    returns_of_exec 6 (Op.start firstOfTwo) rfl
  have fires : Returns body (neitherFirst.event [.future 1] .fire) timerFirst :=
    returns_of_exec 6 (Op.event [.future 1] .fire neitherFirst) rfl
  exact @Calm.event _ _ _ _ [.future 1] .fire (.start starts) (by simp) fires

theorem timerFirst_sound : 1 ≤ 2 ∧
    (∀ v, timerFirst.result = some v → IndexOfTwo.Sees v.view) ∧
    (timerFirst.isReady = false → timerFirst.GoesOn) :=
  yields_sound firstOfTwo_yields timerFirst_calm

/-- The executor gets it ready. -/
theorem Calm.gets_ready (yields : Yields n e M) (calm : Calm e k fut) :
    ∃ k' fut' v, Calm e k' fut' ∧ fut'.result = some v := by
  induction left : n - k using Nat.strong_induction_on generalizing k fut with
  | h left ih =>
    cases ready : fut.isReady with
    | true =>
      obtain ⟨v, result⟩ := Option.isSome_iff_exists.mp ready
      exact ⟨k, fut, v, calm, result⟩
    | false =>
      obtain ⟨-, -, progress⟩ := yields_sound yields calm
      obtain ⟨path, after, awaits, returns⟩ := progress ready
      have next := @Calm.event e k fut after path .fire calm (by simp) returns
      have run : fut.isRun path .fire = true := by
        rw [Future.isRun, awaits]
        rfl
      rw [run, Bool.toNat_true] at next
      have le := (yields_sound yields next).1
      exact ih (n - (k + 1)) (by omega) next rfl

end Tconcurrent.SynchronousCancel
