import Tconcurrent.SynchronousCancelRules

/-! The rules are sound: while nothing is canceled, a future comes to what they say. -/
namespace Tconcurrent.SynchronousCancel
open Recursion

variable {fut after : Future} {v : Value} {m : Meaning} {n k : ℕ} {M M₀ : Post} {inCatch : Bool}

theorem Comes.more {n' : ℕ} (comes : Comes n fut M) (le : n ≤ n') : Comes n' fut M := by
  cases comes with
  | mk unrequested last first stages bound =>
    exact .mk unrequested last first stages (bound.trans le)

theorem Comes.unrequested (comes : Comes n fut M) : fut.token.isCancelRequested = false := by
  cases comes with
  | mk unrequested => exact unrequested

theorem ValueComes.view (comes : ValueComes v m) : m.view = v.view := by
  cases comes <;> rfl

/-- A future that is ready has come to what the rules say. -/
theorem Comes.result (comes : Comes n fut M) (result : fut.result = some v) :
    ∃ m, ValueComes v m ∧ M m := by
  have waiting := result_eq_some.mp result
  cases comes with
  | mk _ last first stages =>
    rw [waiting] at first
    cases first with
    | ready value holds =>
      have yields := stages _ holds
      rw [last (Future.isReady_iff.mpr ⟨v, waiting⟩)] at yields
      cases yields with
      | nil holds => exact ⟨_, value, holds⟩

theorem Comes.sees (comes : Comes n fut M) (result : fut.result = some v) : M.Sees v.view := by
  obtain ⟨m, value, holds⟩ := comes.result result
  exact ⟨m, holds, value.view⟩

/-- What a future waits for at first, and its handle, are not asked for any more. -/
theorem Comes.spent {fut' : Future} (comes : Comes n fut M) (waits : fut.waiting ≠ .source)
    (waiting : fut'.waiting = fut.waiting) (stages : fut'.stages = fut.stages)
    (requested : fut'.token.isCancelRequested = fut.token.isCancelRequested) :
    Comes n fut' M := by
  cases comes with
  | mk unrequested last first yields bound =>
    have ready : fut'.isReady = fut.isReady := by
      rw [Future.isReady, Future.isReady, Future.result, Future.result, waiting]
    refine .mk (requested.trans unrequested) (fun isReady => ?_) ?_ (stages ▸ yields) bound
    · rw [stages, last (ready.symm.trans isReady)]
    · rw [waiting]
      cases eq : fut.waiting with
      | source => exact absurd eq waits
      | inner =>
        rw [eq] at first
        cases first with
        | inner pending comes => exact .inner pending comes
      | ready =>
        rw [eq] at first
        cases first with
        | ready value holds => exact .ready value holds

/-- What each of the functions that call each other does while nothing is canceled. -/
def Accords : Op → Future → Prop
  | .start e, after => ∀ n M, Yields n e M → Comes n after M
  | .set _ v fut, after => fut.token.isCancelRequested = false → ∀ n m M, ValueComes v m →
    StagesYield n fut.stages m M → Comes n after M ∧ after.waiting ≠ .source
  | .run body results fut, after => fut.token.isCancelRequested = false →
    fut.waiting = .source → ∀ n k M₀ M, RunYields n body results M₀ →
    (∀ m, M₀ m → StagesYield k fut.stages m M) → Comes (n + k) after M
  | .event path event fut, after => Shaped fut → (∀ inCatch, event ≠ .requestCancel inCatch) →
    ∀ n M, Comes n fut M →
    ∃ n', Comes n' after M ∧ n' + (fut.isRun path event).toNat ≤ n
  | _, _ => True

abbrev Obeys {α : Type} (code : FutureCode α) (post : α → Prop) : Prop :=
  Assuming (fun op after => Returns body (body op) after ∧ Accords op after) code post

theorem obeys_call {op : Op} {post : Future → Prop}
    (accords : ∀ after, Accords op after → post after) : Obeys (call op) post :=
  fun after called => accords after called.2

/-- It has come so far, and has been set. -/
abbrev SetTo (n : ℕ) (M : Post) (after : Future) : Prop := Comes n after M ∧ after.waiting ≠ .source

/-! ## Continuations -/

theorem apply_obeys {r : Ret} (value : ValueComes v m) :
    Obeys (apply r v) fun v' => ValueComes v' (r.gives m) := by
  cases r with
  | value | throws => exact .datum
  | arg => exact value
  | future e =>
    exact assuming_bind (obeys_call fun _ accords => accords) fun _ comes => .future comes

theorem set_obeys (unrequested : fut.token.isCancelRequested = false) (value : ValueComes v m)
    (stages : StagesYield n fut.stages m M) : Obeys (call (.set inCatch v fut)) (SetTo n M) :=
  obeys_call fun _ accords => accords unrequested n m M value stages

/-- Nothing is called when a callback is popped. -/
theorem pop_eq (unrequested : fut.token.isCancelRequested = false) :
    fut.pop inCatch = pure (fut.setStack fut.token.doCancels.tail) := by
  simp only [Future.pop, Future.setStack, unrequested, Bool.false_and, Bool.false_eq_true, if_false]

theorem SetTo.more {n' : ℕ} (set : SetTo n M after) (le : n ≤ n') : SetTo n' M after :=
  ⟨set.1.more le, set.2⟩

theorem unwrapInner_obeys {inner : Future} (waiting : fut.waiting = .inner inner)
    (unrequested : fut.token.isCancelRequested = false) (comes : Comes n inner M₀)
    (stages : ∀ m, M₀ m → StagesYield k fut.stages m M) :
    Obeys (fut.unwrapInner inCatch) (SetTo (n + k) M) := by
  unfold Future.unwrapInner
  simp only [waiting]
  cases result : inner.result with
  | some v =>
    obtain ⟨m, value, holds⟩ := comes.result result
    simp only [pop_eq unrequested]
    exact Assuming.mono (set_obeys unrequested value (stages m holds))
      fun _ set => set.more (Nat.le_add_left k n)
  | none =>
    refine ⟨.mk unrequested (fun ready => ?_) ?_ stages le_rfl, by simp [waiting]⟩
    · rw [not_ready_of_inner waiting] at ready
      cases ready
    · rw [waiting]
      exact .inner (result_eq_none.mp result) comes

theorem runStage_andThen {f : Datum → Ret} (unrequested : fut.token.isCancelRequested = false)
    (ok : ∀ e, v.view ≠ .exception e) : fut.runStage inCatch v (.andThen f) = (do
      let v ← apply (f v.view) v
      call (.set (inCatch || v.isException) v fut)) := by
  simp only [Future.runStage, unrequested, Bool.false_eq_true, if_false]

theorem runStage_obeys {stage : Stage} (unrequested : fut.token.isCancelRequested = false)
    (value : ValueComes v m) (first : StageYields n stage m M₀)
    (others : ∀ m, M₀ m → StagesYield k fut.stages m M) :
    Obeys (fut.runStage inCatch v stage) (SetTo (n + k) M) := by
  have sets {c : Bool} {v' : Value} {m' : Meaning} (value' : ValueComes v' m') (holds : M₀ m') :
      Obeys (call (.set c v' fut)) (SetTo (n + k) M) :=
    (set_obeys unrequested value' (others m' holds)).mono fun _ set =>
      set.more (Nat.le_add_left k n)
  cases first with
  | «then» holds =>
    rw [value.view] at holds
    exact assuming_bind (apply_obeys value) fun v' value' => sets value' holds
  | andThenError error holds =>
    simp only [Future.runStage, ← value.view, error]
    exact sets .datum holds
  | andThen ok holds =>
    rw [value.view] at ok holds
    rw [runStage_andThen unrequested ok]
    exact assuming_bind (apply_obeys value) fun v' value' => sets value' holds
  | unwrapDatum holds =>
    cases value
    exact sets .datum holds
  | unwrap yields =>
    cases value with
    | @future inner _ comes =>
      have given : Obeys (pure inner : FutureCode Future) (· = inner) := rfl
      simp only [Future.runStage, Future.unwrapOuter, Future.setStack, unrequested,
        Bool.false_eq_true, if_false]
      refine assuming_bind given ?_
      rintro _ rfl
      exact unwrapInner_obeys rfl rfl (comes _ _ yields) others

theorem set_accords : Obeys (fut.set inCatch v) (Accords (.set inCatch v fut)) := by
  refine assuming_forall fun unrequested => assuming_forall fun n => assuming_forall fun m =>
    assuming_forall fun M => assuming_forall fun value => assuming_forall fun yields => ?_
  rw [Future.set]
  generalize left : fut.stages = stages at yields
  cases yields with
  | nil holds =>
    have last : ∀ m, M m → StagesYield 0 [] m M := fun m holds => .nil holds
    refine ⟨.mk unrequested (fun _ => rfl) (.ready value holds) last le_rfl, ?_⟩
    rintro ⟨⟩
  | @cons n k _ stage stages _ M₀ _ first others bound =>
    exact (@runStage_obeys { fut with stages } _ _ _ _ _ _ _ _ unrequested value first others).mono
      fun _ set => set.more bound

/-! ## Coroutines -/

theorem destroy_obeys (set : SetTo n M fut) : Obeys (fut.destroy inCatch) (SetTo n M) := by
  rw [Future.destroy, pop_eq]
  · exact ⟨set.1.spent set.2 rfl rfl rfl, set.2⟩
  · exact set.1.unrequested

theorem finish_obeys {caught : Bool} (unrequested : fut.token.isCancelRequested = false)
    (value : ValueComes v m) (stages : StagesYield n fut.stages m M) :
    Obeys (fut.finish inCatch caught v) (SetTo n M) := by
  refine assuming_bind (@set_obeys { fut with source := .ended } _ _ _ _ _ unrequested value stages)
    fun after set => ?_
  split
  · exact set
  · exact destroy_obeys set

/-- What a future waits for at first is changed. -/
theorem Comes.waits {source : Source} {total : ℕ} (waiting : fut.waiting = .source)
    (unrequested : fut.token.isCancelRequested = false) (comes : SourceComes n source M₀)
    (stages : ∀ m, M₀ m → StagesYield k fut.stages m M) (bound : n + k ≤ total) :
    Comes total { fut with source } M := by
  refine .mk unrequested (fun ready => ?_) ?_ stages bound
  · cases ready.symm.trans (@not_ready_of_source { fut with source } waiting)
  · show WaitingComes n source fut.waiting M₀
    rw [waiting]
    exact .source comes

theorem run_obeys {rest : Body} {results : List Datum} (waiting : fut.waiting = .source)
    (unrequested : fut.token.isCancelRequested = false) (runs : RunYields n rest results M₀)
    (stages : ∀ m, M₀ m → StagesYield k fut.stages m M) :
    Obeys (fut.run rest results) (Comes (n + k) · M) := by
  unfold Future.run
  cases runs with
  | «return» next holds =>
    simp only [next]
    refine assuming_bind (apply_obeys .datum) fun v value => ?_
    exact (finish_obeys unrequested value (stages _ holds)).mono fun _ set =>
      set.1.more (Nat.le_add_left k n)
  | @await n₁ k₁ _ e _ _ M₁ _ next first goesOn bound =>
    simp only [next]
    refine assuming_bind (obeys_call fun _ accords => accords _ _ first) fun awaited comes => ?_
    split
    · rename_i v result
      obtain ⟨m, value, holds⟩ := comes.result result
      refine obeys_call fun after accords => ?_
      have runs := goesOn m holds
      rw [value.view] at runs
      exact (accords unrequested waiting k₁ k M₀ M runs stages).more (by omega)
    · exact Comes.waits waiting unrequested (.awaiting comes goesOn bound) stages le_rfl

/-! ## `when_all` and `when_any` -/

section

variable {futures : List Future} {future : Future} {Ms : List Post} {j : ℕ}

theorem FuturesCome.sees (come : FuturesCome n futures Ms) :
    List.Forall₂ (fun M result => ∀ d, result = some d → Post.Sees M d) Ms
      (Future.views futures) := by
  induction futures generalizing n Ms with
  | nil =>
    cases come
    exact .nil
  | cons fut futures ih =>
    cases come with
    | cons first others =>
      refine .cons (fun d seen => ?_) (ih others)
      obtain ⟨v, result, rfl⟩ := Option.map_eq_some_iff.mp seen
      exact first.sees result

theorem FuturesCome.allOf (come : FuturesCome n futures Ms)
    (ready : ∀ future ∈ futures, future.isReady = true) :
    AllOf Ms ((Future.views futures).map fun d => d.getD .future) := by
  induction futures generalizing n Ms with
  | nil =>
    cases come
    exact .nil
  | cons fut futures ih =>
    cases come with
    | cons first others =>
      obtain ⟨here, rest⟩ := List.forall_mem_cons.mp ready
      obtain ⟨v, result⟩ := Option.isSome_iff_exists.mp here
      refine .cons ?_ (ih others rest)
      simp only [result, Option.map_some, Option.getD_some]
      exact first.sees result

theorem FuturesCome.anyOf (come : FuturesCome n futures Ms) (at_j : futures[j]? = some future)
    (ready : future.isReady = true) : AnyOf Ms j (Future.views futures) := by
  obtain ⟨v, result⟩ := Option.isSome_iff_exists.mp ready
  refine ⟨come.sees, v.view, ?_⟩
  rw [Future.views, List.getElem?_map, at_j, Option.map_some, result, Option.map_some]

/-- One of the futures goes on. -/
theorem FuturesCome.split (come : FuturesCome n futures Ms) (at_j : futures[j]? = some future) :
    ∃ n₁ k₁ M₁, Comes n₁ future M₁ ∧ n₁ + k₁ ≤ n ∧
      ∀ n' after, Comes n' after M₁ → FuturesCome (n' + k₁) (futures.set j after) Ms := by
  induction futures generalizing n Ms j with
  | nil => cases at_j
  | cons fut futures ih =>
    cases come with
    | @cons n₁ k₁ _ _ _ M₁ _ first others bound =>
      cases j with
      | zero =>
        cases at_j
        exact ⟨n₁, k₁, M₁, first, bound, fun n' after comes => .cons comes others le_rfl⟩
      | succ j =>
        obtain ⟨n₂, k₂, M₂, comes, bound', changed⟩ := ih others at_j
        refine ⟨n₂, n₁ + k₂, M₂, comes, by omega, fun n' after comes => ?_⟩
        exact .cons first (changed n' after comes) (by omega)

/-- The callback of a future of `when_all` that has got ready. -/
theorem callback_whenAll_obeys {count : ℕ} (source : fut.source = .whenAll futures count)
    (waiting : fut.waiting = .source) (unrequested : fut.token.isCancelRequested = false)
    (come : FuturesCome n futures Ms) (counted : count + 1 = futures.countP (·.isReady))
    (holds : ∀ results, AllOf Ms results → M₀ (.datum (.all results)))
    (stages : ∀ m, M₀ m → StagesYield k fut.stages m M) :
    Obeys (fut.callback inCatch j) (Comes (n + k) · M) := by
  simp only [Future.callback, source]
  split
  · rename_i complete
    have ready := List.countP_eq_length.mp (counted.symm.trans complete)
    have set := @set_obeys { fut with source := .whenAll futures (count + 1) } _ _ _ _ inCatch
      unrequested .datum (stages _ (holds _ (come.allOf ready)))
    exact set.mono fun _ set => set.1.more (Nat.le_add_left k n)
  · rename_i incomplete
    have le := @List.countP_le_length _ (fun future : Future => future.isReady) futures
    exact Comes.waits waiting unrequested
      (.whenAll come counted (by omega) holds) stages le_rfl

theorem callback_whenAny_obeys (source : fut.source = .whenAny futures false false)
    (unrequested : fut.token.isCancelRequested = false) (come : FuturesCome n futures Ms)
    (at_j : futures[j]? = some future) (ready : future.isReady = true)
    (holds : ∀ index results, AnyOf Ms index results → M₀ (.datum (.any (some index) results)))
    (stages : ∀ m, M₀ m → StagesYield k fut.stages m M) :
    Obeys (fut.callback inCatch j) (SetTo (n + k) M) := by
  simp only [Future.callback, source, Bool.false_eq_true, if_false]
  have set := @set_obeys { fut with source := .whenAny futures false true } _ _ _ _ inCatch
    unrequested .datum (stages _ (holds j _ (come.anyOf at_j ready)))
  exact Assuming.mono set fun _ set => set.more (Nat.le_add_left k n)

end

/-! ## Events -/

/-- It has come further, and `used` says how often the executor has run what was waited for. -/
abbrev On (n used : ℕ) (M : Post) (after : Future) : Prop := ∃ n', Comes n' after M ∧ n' + used ≤ n

theorem On.of_comes {used : ℕ} (comes : Comes k after M) (le : k + used ≤ n) : On n used M after :=
  ⟨k, comes, le⟩

/-- What the executor runs is not there any more. -/
theorem pop_set_obeys {r : Ret} (caught : Value → Bool)
    (unrequested : fut.token.isCancelRequested = false)
    (stages : StagesYield n fut.stages r.givesAlone M) :
    Obeys (do
      let fut ← Future.pop { fut with source := .none } false
      let v ← apply r (.datum (.value 0))
      call (.set (caught v) v fut)) (SetTo n M) := by
  rw [pop_eq]
  · have given {fut' : Future} : Obeys (pure fut' : FutureCode Future) (· = fut') := rfl
    refine assuming_bind given ?_
    rintro _ rfl
    refine assuming_bind (apply_obeys .datum) fun v value => ?_
    exact set_obeys unrequested value stages
  · exact unrequested

theorem fire_obeys (shaped : Shaped fut) (comes : Comes n fut M) :
    Obeys fut.fire (On n (fut.isRun [] .fire).toNat M) := by
  cases comes with
  | @mk n₀ k _ _ M₀ _ unrequested last first stages bound =>
    cases waiting : fut.waiting with
    | source =>
      have run : fut.isRun [] .fire = true := by simp [Future.isRun, Future.awaits, waiting]
      rw [waiting] at first
      rw [run, Bool.toNat_true]
      unfold Future.fire
      cases first with
      | source comes =>
        generalize fut.source = source at comes
        cases comes with
        | async holds =>
          refine (pop_set_obeys Value.isException unrequested (stages _ holds)).mono fun _ set => ?_
          exact .of_comes set.1 (by omega)
        | asyncWait holds =>
          refine (@pop_set_obeys _ _ _ (.value 0) (fun _ => false) unrequested
            (stages _ holds)).mono fun _ set => ?_
          exact .of_comes set.1 (by omega)
        | unstarted runs =>
          refine obeys_call fun after accords => ?_
          exact .of_comes (accords unrequested waiting _ _ _ _ runs stages) (by omega)
        | awaiting comes goesOn bound' =>
          dsimp only
          split
          · rename_i v result
            obtain ⟨m, value, holds⟩ := comes.result result
            have runs := goesOn m holds
            rw [value.view] at runs
            refine obeys_call fun after accords => ?_
            exact .of_comes (accords unrequested waiting _ _ _ _ runs stages) (by omega)
          · trivial
        | whenAll | whenAny => trivial
    | inner | ready =>
      have set := shaped.set (by simp [waiting])
      unfold Future.fire
      generalize fut.source = source at set
      cases source with
      | none | ended | destroyed | whenAll | whenAny => trivial
      | async | asyncWait | unstarted | awaiting => cases set

theorem Comes.setHeld (comes : Comes n fut M) (held stackful : Bool) :
    Comes n { fut with held, stackful } M := by
  cases comes with
  | mk unrequested last first stages bound => exact .mk unrequested last first stages bound

theorem drop_obeys (comes : Comes n fut M) : Obeys (fut.drop inCatch) (Comes n · M) := by
  unfold Future.drop
  dsimp only
  split
  · rename_i ended
    have dropped := comes.setHeld false fut.stackful
    refine (destroy_obeys ⟨dropped, fun waiting => ?_⟩).mono fun _ set => set.1
    cases comes with
    | mk _ _ first =>
      rw [show fut.waiting = .source from waiting] at first
      cases first with
      | source comes =>
        rw [ended] at comes
        cases comes
  · exact comes.setHeld false fut.stackful
  · trivial

section

variable {path : List Selector} {event : Event} {j : ℕ} {future : Future}

theorem event_inner_obeys (shaped : Shaped fut)
    (uncanceled : ∀ inCatch, event ≠ .requestCancel inCatch) (comes : Comes n fut M) :
    Obeys (fut.event (.inner :: path) event)
      (On n (fut.isRun (.inner :: path) event).toNat M) := by
  rw [Future.event]
  split
  · rename_i inner waiting
    have run : fut.isRun (.inner :: path) event = inner.isRun path event := by
      simp [Future.isRun, Future.awaits, waiting]
    rw [run]
    cases comes with
    | mk unrequested last first stages bound =>
      rw [waiting] at first
      cases first with
      | inner pending comes =>
        refine assuming_bind (obeys_call fun _ accords =>
          accords (shaped.inside waiting) uncanceled _ _ comes) ?_
        rintro inner' ⟨n', comes', used⟩
        have unwraps := @unwrapInner_obeys { fut with waiting := .inner inner' } _ _ _ _
          inner'.inCatch _ rfl unrequested comes' stages
        exact unwraps.mono fun _ set => .of_comes set.1 (by omega)
  · trivial

theorem event_value_obeys (shaped : Shaped fut)
    (uncanceled : ∀ inCatch, event ≠ .requestCancel inCatch) (comes : Comes n fut M) :
    Obeys (fut.event (.value :: path) event)
      (On n (fut.isRun (.value :: path) event).toNat M) := by
  rw [Future.event]
  split
  · rename_i inner waiting
    have run : fut.isRun (.value :: path) event = false := by
      simp [Future.isRun, Future.awaits]
    rw [run, Bool.toNat_false]
    cases comes with
    | @mk _ _ _ _ M₀ _ unrequested last first stages bound =>
      rw [waiting] at first
      cases first with
      | ready value holds =>
        cases value with
        | future comes =>
          have shaped' := value_shaped shaped (result_eq_some.mpr waiting) inner rfl
          refine assuming_bind (obeys_call fun _ accords =>
            accords shaped' uncanceled) fun inner' goesOn => ?_
          have last' := last (Future.isReady_iff.mpr ⟨_, waiting⟩)
          refine .of_comes (.mk unrequested (fun _ => last')
            (.ready (.future fun n M yields => ?_) holds) stages bound) le_rfl
          obtain ⟨n', comes', used⟩ := goesOn n M (comes n M yields)
          exact comes'.more (by omega)
  · trivial

theorem event_awaited_obeys (shaped : Shaped fut)
    (uncanceled : ∀ inCatch, event ≠ .requestCancel inCatch) (comes : Comes n fut M) :
    Obeys (fut.event (.awaited :: path) event)
      (On n (fut.isRun (.awaited :: path) event).toNat M) := by
  rw [Future.event]
  split
  · rename_i awaited rest results source
    have unset : ¬ fut.source.IsSet := by
      rw [source]
      rintro ⟨⟩
    have waiting := shaped.waiting_of_not_set unset
    have run : fut.isRun (.awaited :: path) event = awaited.isRun path event := by
      simp [Future.isRun, Future.awaits, waiting, source]
    have shaped' : Shaped awaited := by
      cases shaped with
      | mk _ _ _ _ _ _ awaits => exact awaits _ _ _ source
    rw [run]
    cases comes with
    | mk unrequested last first stages bound =>
      rw [waiting, source] at first
      cases first with
      | source comes =>
        cases comes with
        | awaiting comes goesOn bound' =>
          refine assuming_bind (obeys_call fun _ accords =>
            accords shaped' uncanceled _ _ comes) ?_
          rintro awaited' ⟨n', comes', used⟩
          exact .of_comes (Comes.waits waiting unrequested (.awaiting comes' goesOn le_rfl) stages
            le_rfl) (by omega)
  · trivial

/-- One of the futures goes on, after the future of them has been set. -/
theorem change_spent_obeys {after' : Future} (shaped : Shaped fut) (comes : Comes n fut M)
    (waits : fut.waiting ≠ .source) (at_j : fut.source.futures[j]? = some future)
    (pending : future.isReady = false) : Obeys (fut.change j after') (Comes n · M) := by
  have set := shaped.set waits
  unfold Future.change
  dsimp only
  split
  · cases source : fut.source with
    | whenAll futures count =>
      rw [source] at at_j
      exact absurd set
        (not_set_of_pending shaped.counted source (List.mem_of_getElem? at_j) pending)
    | whenAny futures autoCancel triggered =>
      rw [source] at set
      obtain rfl : triggered = true := set
      exact comes.spent waits rfl rfl rfl
    | none | async | asyncWait | unstarted | awaiting | ended | destroyed =>
      rw [source] at at_j
      cases at_j
  · exact comes.spent waits rfl rfl rfl

/-- The same before it is set. -/
theorem change_obeys {after' : Future} {used : ℕ} (waiting : fut.waiting = .source)
    (unrequested : fut.token.isCancelRequested = false) (comes : SourceComes n fut.source M₀)
    (stages : ∀ m, M₀ m → StagesYield k fut.stages m M)
    (at_j : fut.source.futures[j]? = some future)
    (goesOn : ∀ n M, Comes n future M → On n used M after')
    (still : future.isReady = true → after'.isReady = true) :
    Obeys (if future.isReady then
        return { fut with source := fut.source.setFutures (fut.source.futures.set j after') }
      else fut.change j after') (On (n + k) used M) := by
  cases source : fut.source with
  | whenAll futures count =>
    rw [source] at comes at_j
    rw [Source.futures] at at_j
    cases comes with
    | whenAll all counted incomplete holds =>
      obtain ⟨n₁, k₁, M₁, comes₁, bound, changed⟩ := all.split at_j
      obtain ⟨n', comes', le⟩ := goesOn n₁ M₁ comes₁
      have come := changed n' after' comes'
      have unset (same : after'.isReady = future.isReady) :
          On (n + k) used M { fut with source := .whenAll (futures.set j after') count } := by
        refine .of_comes (Comes.waits waiting unrequested (.whenAll come ?_ ?_ holds) stages le_rfl)
          (by omega)
        · exact counted.trans (countP_set_same at_j same).symm
        · rwa [List.length_set]
      simp only [Future.change, source, Source.setFutures, Source.futures]
      cases before : future.isReady with
      | true => exact unset ((still before).trans before.symm)
      | false =>
        cases ready : after'.isReady with
        | true =>
          have counted' : count + 1 = (futures.set j after').countP (·.isReady) := by
            rw [countP_set_ready at_j before ready, counted]
          have called : Obeys (Future.callback
              { fut with source := .whenAll (futures.set j after') count } after'.inCatch j)
              (Comes (n' + k₁ + k) · M) :=
            callback_whenAll_obeys rfl waiting unrequested come counted' holds stages
          exact called.mono fun _ comes => .of_comes comes (by omega)
        | false => exact unset (ready.trans before.symm)
  | whenAny futures autoCancel triggered =>
    rw [source] at comes at_j
    rw [Source.futures] at at_j
    cases comes with
    | whenAny all none some holds =>
      obtain ⟨n₁, k₁, M₁, comes₁, bound, changed⟩ := all.split at_j
      obtain ⟨n', comes', le⟩ := goesOn n₁ M₁ comes₁
      have come := changed n' after' comes'
      have before := none future (List.mem_of_getElem? at_j)
      simp only [Future.change, source, Source.setFutures, Source.futures, before]
      cases ready : after'.isReady with
      | true =>
        have at_j' : (futures.set j after')[j]? = Option.some after' := by
          rw [List.getElem?_set_self]
          exact (List.getElem?_eq_some_iff.mp at_j).1
        have called : Obeys (Future.callback
            { fut with source := .whenAny (futures.set j after') false false } after'.inCatch j)
            (SetTo (n' + k₁ + k) M) :=
          callback_whenAny_obeys rfl unrequested come at_j' ready holds stages
        exact called.mono fun _ set => .of_comes set.1 (by omega)
      | false =>
        refine .of_comes (Comes.waits waiting unrequested (.whenAny come ?_ ?_ holds) stages le_rfl)
          (by omega)
        · intro other member
          exact (List.mem_or_eq_of_mem_set member).elim (none other) fun same => same ▸ ready
        · exact mt (List.set_eq_nil_iff j after').mp some
  | none | async | asyncWait | unstarted | awaiting | ended | destroyed =>
    rw [source] at at_j
    cases at_j

theorem event_future_obeys (shaped : Shaped fut)
    (uncanceled : ∀ inCatch, event ≠ .requestCancel inCatch) (comes : Comes n fut M) :
    Obeys (fut.event (.future j :: path) event)
      (On n (fut.isRun (.future j :: path) event).toNat M) := by
  rw [Future.event]
  split
  · rename_i future at_j
    have shaped' := shaped.futures future (List.mem_of_getElem? at_j)
    refine assuming_bind (assuming_call fun _ called => called) fun after' called => ?_
    obtain ⟨returns, accords⟩ := called
    have goesOn := accords shaped' uncanceled
    have becomes := (@returns_meets (.event path event future) _ returns shaped').1
    by_cases waits : fut.waiting = .source
    · have run : fut.isRun (.future j :: path) event = future.isRun path event := by
        simp [Future.isRun, Future.awaits, waits, at_j]
      rw [run]
      cases comes with
      | mk unrequested last first stages bound =>
        rw [waits] at first
        cases first with
        | source comes =>
          refine (change_obeys waits unrequested comes stages at_j goesOn becomes.ready).mono ?_
          rintro _ ⟨n', comes', le⟩
          exact .of_comes comes' (by omega)
    · have run : fut.isRun (.future j :: path) event = false := by
        simp only [Future.isRun, Future.awaits]
        split
        · contradiction
        · exact Bool.and_false _
      rw [run, Bool.toNat_false]
      split
      · exact .of_comes (comes.spent waits rfl rfl rfl) le_rfl
      · rename_i pending
        exact (change_spent_obeys shaped comes waits at_j (by simpa using pending)).mono
          fun _ comes' => .of_comes comes' le_rfl
  · trivial

end

theorem event_obeys {path : List Selector} {event : Event} :
    Obeys (fut.event path event) (Accords (.event path event fut)) := by
  refine assuming_forall fun shaped => assuming_forall fun uncanceled => assuming_forall fun n =>
    assuming_forall fun M => assuming_forall fun comes => ?_
  cases path with
  | nil =>
    cases event with
    | fire => exact fire_obeys shaped comes
    | drop => exact (drop_obeys comes).mono fun _ comes => ⟨n, comes, le_rfl⟩
    | requestCancel inCatch => exact absurd rfl (uncanceled inCatch)
  | cons selector path =>
    cases selector with
    | inner => exact event_inner_obeys shaped uncanceled comes
    | value => exact event_value_obeys shaped uncanceled comes
    | awaited => exact event_awaited_obeys shaped uncanceled comes
    | future => exact event_future_obeys shaped uncanceled comes

/-! ## Expressions -/

theorem StagesYield.append {stages : List Stage} {stage : Stage}
    (yields : StagesYield n stages m M₀) (last : ∀ m, M₀ m → StageYields k stage m M) :
    StagesYield (n + k) (stages ++ [stage]) m M := by
  induction yields with
  | nil holds => exact .cons (last _ holds) (fun m holds => .nil holds) (k := 0) (by omega)
  | cons first _ bound ih => exact .cons first (fun m holds => ih m holds last) (by omega)

theorem attach_obeys {stage : Stage} (comes : Comes n fut M₀)
    (last : ∀ m, M₀ m → StageYields k stage m M) :
    Obeys (fut.attach stage) (Comes (n + k) · M) := by
  rw [Future.attach]
  cases result : fut.result with
  | some v =>
    obtain ⟨m, value, holds⟩ := comes.result result
    have none : fut.stages = [] := by
      cases comes with
      | mk _ last => exact last (Option.isSome_iff_exists.mpr ⟨v, result⟩)
    have yields : StagesYield k (fut.stages ++ [stage]) m M := by
      rw [none, List.nil_append]
      exact .cons (last m holds) (fun m holds => .nil holds) (k := 0) le_rfl
    exact Assuming.mono (@set_obeys { fut with stages := fut.stages ++ [stage] } _ _ _ _ _
      comes.unrequested value yields) fun _ set => set.1.more (Nat.le_add_left k n)
  | none =>
    cases comes with
    | mk unrequested _ first stages bound =>
      refine .mk unrequested (fun ready => ?_) first
        (fun m holds => (stages m holds).append last) (by omega)
      cases ready.symm.trans (result_eq_none.mp result)

theorem callAll_obeys {es : List Expr} {Ms : List Post} (all : AllYield n es Ms) :
    Obeys (Code.callAll (es.map .start)) fun futures =>
      FuturesCome n futures Ms ∧ futures.length = es.length := by
  refine assuming_callAll.mono fun futures started => ?_
  induction es generalizing futures n Ms with
  | nil =>
    cases started
    cases all
    exact ⟨.nil, rfl⟩
  | cons e es ih =>
    cases started with
    | cons first started =>
      cases all with
      | cons yields others bound =>
        obtain ⟨come, length⟩ := ih others _ started
        exact ⟨.cons (first.2 _ _ yields) come bound, congrArg (· + 1) length⟩

theorem waitFor_comes {source : Source} (comes : SourceComes n source M) :
    Comes n (waitFor source) M :=
  .mk (k := 0) rfl (fun _ => rfl) (.source comes) (fun _ holds => .nil holds) le_rfl

theorem ready_comes {d : Datum} (holds : M (.datum d)) :
    Comes n { source := .none, waiting := .ready (.datum d) } M :=
  .mk (n := 0) (k := 0) rfl (fun _ => rfl) (.ready .datum holds) (fun _ holds => .nil holds)
    (Nat.zero_le n)

theorem start_obeys {e : Expr} : Obeys (start e) (Accords (.start e)) := by
  refine assuming_forall fun n => assuming_forall fun M => assuming_forall fun yields => ?_
  have attaches {n k total : ℕ} {e : Expr} {stage : Stage} {M₀ : Post} (first : Yields n e M₀)
      (last : ∀ m, M₀ m → StageYields k stage m M) (bound : n + k ≤ total) :
      Obeys (call (.start e) >>= fun fut => fut.attach stage) (Comes total · M) := by
    refine assuming_bind (obeys_call fun _ accords => accords n M₀ first) fun fut comes => ?_
    exact (attach_obeys comes last).mono fun _ comes => comes.more bound
  cases yields with
  | ready holds => exact ready_comes holds
  | async holds => exact waitFor_comes (.async holds)
  | asyncWait holds => exact waitFor_comes (.asyncWait holds)
  | asyncResumable runs => exact (waitFor_comes (.unstarted runs)).setHeld _ _
  | «then» first last bound => exact attaches first last bound
  | andThen first last bound => exact attaches first last bound
  | unwrap first last bound => exact attaches first last bound
  | @whenAll _ es Ms _ all holds =>
    refine assuming_bind (callAll_obeys all) fun futures come => ?_
    obtain ⟨come, -⟩ := come
    dsimp only
    split
    · rename_i empty
      obtain rfl := List.isEmpty_iff.mp empty
      exact ready_comes (holds [] (come.allOf fun _ member => absurd member List.not_mem_nil))
    · split
      · rename_i complete
        have ready := List.countP_eq_length.mp complete
        exact Assuming.mono (set_obeys rfl .datum (.nil (holds _ (come.allOf ready))))
          fun _ set => set.1
      · rename_i incomplete
        have le := @List.countP_le_length _ (fun future : Future => future.isReady) futures
        exact waitFor_comes (.whenAll come rfl (by omega) holds)
  | whenAnyOfNone holds => exact ready_comes holds
  | @whenAny _ es Ms _ some all holds =>
    refine assuming_bind (callAll_obeys all) fun futures come => ?_
    obtain ⟨come, length⟩ := come
    dsimp only
    split
    · rename_i empty
      obtain rfl := List.isEmpty_iff.mp empty
      exact absurd (List.length_eq_zero_iff.mp length.symm) some
    · rename_i filled
      split
      · rename_i j found
        obtain ⟨inside, ready, -⟩ := List.findIdx?_eq_some_iff_getElem.mp found
        have called : Obeys (Future.callback (waitFor (.whenAny futures false false)) false j)
            (SetTo (n + 0) M) :=
          callback_whenAny_obeys rfl rfl come (List.getElem?_eq_getElem inside) ready holds
            fun _ holds => .nil holds
        exact called.mono fun _ set => set.1
      · rename_i none
        refine waitFor_comes (.whenAny come (fun future member => ?_) ?_ holds)
        · simpa using List.findIdx?_eq_none_iff.mp none future member
        · exact fun empty => filled (List.isEmpty_iff.mpr empty)

theorem obeys (op : Op) : Obeys (body op) (Accords op) := by
  cases op with
  | start => exact start_obeys
  | set => exact set_accords
  | run =>
    exact assuming_forall fun unrequested => assuming_forall fun waiting => assuming_forall
      fun n => assuming_forall fun k => assuming_forall fun M₀ => assuming_forall fun M =>
      assuming_forall fun runs => assuming_forall fun stages =>
      run_obeys waiting unrequested runs stages
  | event => exact event_obeys
  | requestCancel | callTop | cancelFutures => exact assuming_of_forall fun _ => trivial

/-- **The rules are kept** by whatever the functions do while nothing is canceled. -/
theorem returns_accords {op : Op} {after : Future} (returns : Returns body (body op) after) :
    Accords op after :=
  always_recursive obeys op after returns

end Tconcurrent.SynchronousCancel
