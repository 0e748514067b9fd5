import Tconcurrent.SynchronousCancelResolves

/-! What a future gives that is canceled: `operation_canceled`, unless a function that takes
futures has been attached to it. -/
namespace Tconcurrent.SynchronousCancel
open Recursion Workload

variable {fut after : Future} {v : Value} {inCatch : Bool} {α : Type}

/-- It passes on that what it waits for has been canceled. -/
def Stage.IsQuiet : Stage → Prop
  | .then _ => False
  | .andThen _ | .unwrap => True

/-- It does not call its function after a cancelation. -/
def Stage.IsAndThen : Stage → Prop
  | .andThen _ => True
  | .then _ | .unwrap => False

def QuietStages (stages : List Stage) : Prop := ∀ stage ∈ stages, stage.IsQuiet

/-- `when_all` and `when_any` get ready with a value when they are canceled. -/
def Source.IsGroup : Source → Prop
  | .whenAll _ _ | .whenAny _ _ _ => True
  | _ => False

/-- Nothing in it makes a value of a cancelation. -/
inductive Quiet : Future → Prop
  | source {fut : Future} (waiting : fut.waiting = .source) (stages : QuietStages fut.stages)
      (passes : fut.source.IsGroup → ∃ stage ∈ fut.stages, stage.IsAndThen) : Quiet fut
  | inner {fut inner : Future} (waiting : fut.waiting = .inner inner)
      (stages : QuietStages fut.stages) (inside : Quiet inner) : Quiet fut

/-- What its continuations pass on as a cancelation. -/
inductive Passes (fut : Future) : Value → Prop
  | canceled : Passes fut canceled
  | datum {d : Datum} (requested : fut.token.isCancelRequested = true)
      (stage : ∃ stage ∈ fut.stages, stage.IsAndThen) (plain : ∀ e, d ≠ .exception e) :
      Passes fut (.datum d)

/-- It is canceled, or not ready yet. -/
def MayCancel (after : Future) : Prop := ∀ v, after.result = some v → v = canceled

theorem may_of_result (result : fut.result = some canceled) : MayCancel fut :=
  fun _ eq => Option.some.inj (eq.symm.trans result)

theorem may_of_inner {inner : Future} (waiting : fut.waiting = .inner inner) : MayCancel fut := by
  intro v eq
  rw [result_eq_some, waiting] at eq
  cases eq

/-- It is canceled, or waits for more. -/
def CanceledOrWaits (fut after : Future) : Prop :=
  after.result = some canceled ∨
    after.waiting = .source ∧ after.stages = fut.stages ∧ after.token = fut.token

/-- What the functions do with a quiet future. -/
def Cancels : Op → Future → Prop
  | .requestCancel _ fut, after => Shaped fut → Quiet fut → MayCancel after
  | .callTop _ fut, after => Shaped fut → Quiet fut → fut.token.isCancelRequested = true →
    MayCancel after
  | .set _ v fut, after => QuietStages fut.stages → Passes fut v → after.result = some canceled
  | .cancelFutures _ _ fut, after => Shaped fut → QuietStages fut.stages →
    (∃ stage ∈ fut.stages, stage.IsAndThen) → fut.token.isCancelRequested = true →
    fut.waiting = .source → CanceledOrWaits fut after
  | _, _ => True

abbrev Gives (code : FutureCode α) (post : α → Prop) : Prop :=
  Assuming (fun op after => Returns body (body op) after ∧ Cancels op after) code post

theorem gives_call {op : Op} {post : Future → Prop}
    (cancels : ∀ after, Meets op after → Cancels op after → post after) : Gives (call op) post :=
  fun after called => cancels after (returns_meets called.1) called.2

theorem gives_of_does {code : FutureCode α} {post : α → Prop} (does : Does code post) :
    Gives code post :=
  does.of_spec fun _ _ called => ⟨called.1, returns_meets called.1⟩

theorem gives_set (quiet : QuietStages fut.stages) (passes : Passes fut v) :
    Gives (call (.set inCatch v fut)) (·.result = some canceled) :=
  gives_call fun _ _ cancels => cancels quiet passes

theorem set_cancels : Gives (fut.set inCatch v) (Cancels (.set inCatch v fut)) := by
  by_cases given : QuietStages fut.stages ∧ Passes fut v
  · obtain ⟨quiet, passes⟩ := given
    suffices gives : Gives (fut.set inCatch v) (·.result = some canceled) from
      gives.mono fun _ result _ _ => result
    rw [Future.set]
    cases stages : fut.stages with
    | nil =>
      cases passes with
      | canceled => rfl
      | datum _ stage =>
        obtain ⟨stage, member, -⟩ := stage
        rw [stages] at member
        cases member
    | cons stage rest =>
      rw [stages] at quiet
      have quiet' : QuietStages rest := fun other member =>
        quiet other (List.mem_cons_of_mem stage member)
      have first := quiet stage List.mem_cons_self
      cases stage with
      | «then» => exact absurd first id
      | andThen f =>
        simp only [Future.runStage]
        have sets {c : Bool} : Gives (call (.set c canceled { fut with stages := rest }))
            (·.result = some canceled) := gives_set quiet' .canceled
        cases passes with
        | canceled => exact sets
        | datum requested _ plain =>
          split
          · rename_i e view
            exact absurd view (plain e)
          · simp only [requested, if_true]
            exact sets
      | unwrap =>
        simp only [Future.runStage]
        cases passes with
        | canceled => exact gives_set quiet' .canceled
        | datum requested stage plain =>
          refine gives_set quiet' (.datum requested ?_ plain)
          obtain ⟨other, member, andThen⟩ := stage
          rw [stages] at member
          refine ⟨other, (List.mem_cons.mp member).resolve_left ?_, andThen⟩
          rintro rfl
          exact andThen
  · exact assuming_of_forall fun _ quiet passes => absurd ⟨quiet, passes⟩ given

theorem Respends.waiting (respends : Respends fut after) :
    after.waiting = fut.waiting ∧ after.stages = fut.stages ∧ after.token = fut.token := by
  obtain ⟨source, -, -, rfl⟩ := respends
  exact ⟨rfl, rfl, rfl⟩

/-- What is left of a future that is set does not change any more. -/
theorem pop_set_gives (shaped : Shaped fut) (set : fut.source.IsSet)
    (quiet : QuietStages fut.stages) :
    Gives (fut.pop inCatch >>= fun fut => call (.set inCatch canceled fut))
      (·.result = some canceled) := by
  refine assuming_bind (gives_of_does (pop_does shaped set)) fun after respends => ?_
  obtain ⟨-, stages, -⟩ := respends.waiting
  exact gives_set (by rwa [stages]) .canceled

theorem unwrapInner_gives {inner : Future} (shaped : Shaped fut)
    (waiting : fut.waiting = .inner inner) (quiet : QuietStages fut.stages)
    (may : MayCancel inner) : Gives (fut.unwrapInner inCatch) MayCancel := by
  unfold Future.unwrapInner
  simp only [waiting]
  cases result : inner.result with
  | none => exact may_of_inner waiting
  | some v =>
    obtain rfl := may v result
    exact (pop_set_gives shaped (shaped.set (by simp [waiting])) quiet).mono fun _ => may_of_result

theorem finish_gives {caught : Bool} (shaped : Shaped fut) (quiet : QuietStages fut.stages)
    (waiting : fut.waiting = .source) :
    Gives (fut.finish inCatch caught canceled) (·.result = some canceled) := by
  have done : Source.Done .ended :=
    ⟨trivial, trivial, fun _ member => absurd member List.not_mem_nil⟩
  have sets : Gives (call (.set (inCatch || caught) canceled { fut with source := .ended }))
      (Settles (canceled.work + Future.rest { fut with source := .ended })) :=
    gives_of_does (set_does done (shaped.bare_of_source waiting) value_shaped_datum .refl)
  refine assuming_bind (sets.and (gives_set quiet .canceled)) fun after given => ?_
  obtain ⟨settles, result⟩ := given
  split
  · exact result
  · rw [Future.destroy]
    refine (gives_of_does (pop_does (settles.shaped.destroyed _) trivial)).mono
      fun last respends => ?_
    rw [Future.result, respends.waiting.1]
    exact result

theorem CanceledOrWaits.may (canceled : CanceledOrWaits fut after) : MayCancel after := by
  rcases canceled with result | ⟨waiting, -⟩
  · exact may_of_result result
  · intro v eq
    rw [result_eq_some, waiting] at eq
    cases eq

/-- A group that is canceled, and whose value an `and_then` does not take any more. -/
structure Quits (fut : Future) : Prop where
  shaped : Shaped fut
  quiet : QuietStages fut.stages
  andThen : ∃ stage ∈ fut.stages, stage.IsAndThen
  requested : fut.token.isCancelRequested = true
  waiting : fut.waiting = .source

theorem Quits.sets (quits : Quits fut) {source : Source} {d : Datum}
    (plain : ∀ e, d ≠ .exception e) :
    Gives (call (.set inCatch (.datum d) { fut with source })) (CanceledOrWaits fut) := by
  have passes : Passes { fut with source } (.datum d) :=
    .datum quits.requested quits.andThen plain
  refine Assuming.mono (gives_set ?_ passes) fun _ => Or.inl
  exact quits.quiet

theorem Quits.callback (quits : Quits fut) {source : Source} {j : ℕ}
    (shaped : ∀ futures autoCancel, source = .whenAny futures autoCancel false →
      ∀ future ∈ futures, Shaped future) :
    Gives (Future.callback { fut with source } inCatch j) (CanceledOrWaits fut) := by
  have waits {source : Source} : CanceledOrWaits fut { fut with source } :=
    .inr ⟨quits.waiting, rfl, rfl⟩
  unfold Future.callback
  split
  · split
    · exact quits.sets (by simp)
    · exact waits
  · rename_i futures autoCancel triggered eq
    split
    · exact waits
    · rename_i untriggered
      have all := shaped futures autoCancel (by simpa [untriggered] using eq)
      split
      · have changed : Shaped { fut with source := .whenAny futures autoCancel true } :=
          quits.shaped.setSource ⟨rfl, trivial, all⟩
        refine assuming_bind (gives_call fun _ meets _ => (meets changed).2 rfl) ?_
        rintro _ ⟨source, -, -, rfl⟩
        exact quits.sets (by simp)
      · exact quits.sets (by simp)
  · exact waits

theorem cancelFutures_cancels {js : List ℕ} :
    Gives (fut.cancelFutures inCatch js) (Cancels (.cancelFutures inCatch js fut)) := by
  by_cases quits : Quits fut
  · suffices gives : Gives (fut.cancelFutures inCatch js) (CanceledOrWaits fut) from
      gives.mono fun _ canceled _ _ _ _ _ => canceled
    have goes_on {js : List ℕ} {mid : Future} (shaped : Shaped mid)
        (canceled : CanceledOrWaits fut mid) :
        Gives (call (.cancelFutures inCatch js mid)) (CanceledOrWaits fut) := by
      refine gives_call fun after meets cancels => ?_
      rcases canceled with result | ⟨waiting, stages, token⟩
      · have set := shaped.set (by simp [result_eq_some.mp result])
        refine .inl ?_
        rw [Future.result, ((meets shaped).2 set).waiting.1]
        exact result
      · have next := cancels shaped (stages ▸ quits.quiet) (stages ▸ quits.andThen)
          (token ▸ quits.requested) waiting
        rwa [CanceledOrWaits, stages, token] at next
    have same : CanceledOrWaits fut fut := .inr ⟨quits.waiting, rfl, rfl⟩
    cases js with
    | nil => exact same
    | cons j js =>
      simp only [Future.cancelFutures]
      split
      · rename_i future at_j
        split
        · exact goes_on quits.shaped same
        · rename_i pending
          have shaped' := quits.shaped.futures future (List.mem_of_getElem? at_j)
          refine assuming_bind (gives_call fun _ meets _ => meets shaped') fun after becomes => ?_
          have changes : Gives (fut.change j after) (CanceledOrWaits fut) := by
            rw [Future.change]
            split
            · refine quits.callback fun futures autoCancel eq => ?_
              have all := shaped_setFuture (j := j) quits.shaped.futures becomes.shaped
              rwa [eq] at all
            · exact .inr ⟨quits.waiting, rfl, rfl⟩
          refine assuming_bind (changes.and (gives_of_does
            (change_does quits.shaped at_j (by simpa using pending) becomes.shaped)))
            fun mid given => goes_on given.2.1.shaped given.1
      · exact goes_on quits.shaped same
  · exact assuming_of_forall fun _ shaped quiet andThen requested waiting =>
      absurd ⟨shaped, quiet, andThen, requested, waiting⟩ quits

theorem cancelSource_gives (shaped : Shaped fut) (quiet : Quiet fut)
    (requested : fut.token.isCancelRequested = true) :
    Gives (fut.cancelSource inCatch) MayCancel := by
  cases quiet with
  | inner waiting =>
    have set := shaped.set (by simp [waiting])
    have same {after : Future} (respends : Respends fut after) : MayCancel after :=
      may_of_inner (respends.waiting.1.trans waiting)
    have stays := same (respends_self (shaped.done set))
    have cancels {js : List ℕ} : Gives (call (.cancelFutures inCatch js fut)) MayCancel :=
      gives_call fun _ meets _ => same ((meets shaped).2 set)
    rw [Future.cancelSource]
    cases source : fut.source with
    | async | asyncWait | unstarted | awaiting =>
      rw [source] at set
      exact absurd set id
    | whenAll | whenAny => exact cancels
    | none | ended | destroyed => exact stays
  | source waiting stages passes =>
    have pops :
        Gives (Future.pop { fut with source := .none } inCatch >>= fun fut =>
          call (.set inCatch canceled fut))
          MayCancel := by
      have changed : Shaped { fut with source := .none } :=
        shaped.setSource ⟨trivial, trivial, fun _ member => absurd member List.not_mem_nil⟩
      exact (pop_set_gives changed trivial stages).mono fun _ => may_of_result
    have finishes {caught : Bool} : Gives (fut.finish inCatch caught canceled) MayCancel :=
      (finish_gives shaped stages waiting).mono fun _ => may_of_result
    have cancels (group : fut.source.IsGroup) {js : List ℕ} :
        Gives (call (.cancelFutures inCatch js fut)) MayCancel :=
      gives_call fun _ _ cancels =>
        (cancels shaped stages (passes group) requested waiting).may
    have stays : MayCancel fut := CanceledOrWaits.may (.inr ⟨waiting, rfl, rfl⟩)
    rw [Future.cancelSource]
    cases source : fut.source with
    | async | asyncWait => exact pops
    | unstarted => exact finishes
    | awaiting =>
      dsimp only
      split
      · trivial
      · exact assuming_bind (assuming_of_forall fun _ => trivial) fun _ _ => finishes
    | whenAll | whenAny => exact cancels (by rw [source]; trivial)
    | none | ended | destroyed => exact stays

theorem callTop_cancels : Gives (fut.callTop inCatch) (Cancels (.callTop inCatch fut)) := by
  by_cases given : Shaped fut ∧ Quiet fut ∧ fut.token.isCancelRequested = true
  · obtain ⟨shaped, quiet, requested⟩ := given
    suffices gives : Gives (fut.callTop inCatch) MayCancel from gives.mono fun _ may _ _ _ => may
    have unready {v : Value} : fut.waiting ≠ .ready v := by
      cases quiet with
      | source waiting | inner waiting => simp [waiting]
    have stays : MayCancel fut := fun v eq => absurd (result_eq_some.mp eq) unready
    rw [Future.callTop]
    split
    · exact cancelSource_gives shaped quiet requested
    · rename_i inner _ waiting
      split
      · exact stays
      · cases quiet with
        | source waiting' => cases waiting.symm.trans waiting'
        | inner waiting' stages inside =>
          cases waiting.symm.trans waiting'
          have inner_shaped := shaped.inside waiting
          have gives : Gives (call (.requestCancel inCatch inner)) fun after =>
              Shaped after ∧ MayCancel after := gives_call fun _ meets cancels =>
            ⟨(meets inner_shaped).shaped, cancels inner_shaped inside⟩
          refine assuming_bind gives fun after given => ?_
          exact unwrapInner_gives (shaped.setInner waiting given.1) rfl stages given.2
    · exact stays
  · exact assuming_of_forall fun _ shaped quiet requested =>
      absurd ⟨shaped, quiet, requested⟩ given

theorem requestCancel_cancels :
    Gives (fut.requestCancel inCatch) (Cancels (.requestCancel inCatch fut)) := by
  by_cases given : Shaped fut ∧ Quiet fut
  · obtain ⟨shaped, quiet⟩ := given
    suffices gives : Gives (fut.requestCancel inCatch) MayCancel from
      gives.mono fun _ may _ _ => may
    rw [Future.requestCancel]
    split
    · rename_i ready
      obtain ⟨v, waiting⟩ := Future.isReady_iff.mp ready
      cases quiet with
      | source waiting' | inner waiting' => cases waiting.symm.trans waiting'
    · refine gives_call fun after _ cancels => cancels shaped.request ?_ rfl
      cases quiet with
      | source waiting stages passes => exact .source waiting stages passes
      | inner waiting stages inside => exact .inner waiting stages inside
  · exact assuming_of_forall fun _ shaped quiet => absurd ⟨shaped, quiet⟩ given

theorem cancels (op : Op) : Gives (body op) (Cancels op) := by
  cases op with
  | requestCancel => exact requestCancel_cancels
  | callTop => exact callTop_cancels
  | set => exact set_cancels
  | cancelFutures => exact cancelFutures_cancels
  | start | run | event => exact assuming_of_forall fun _ => trivial

end Tconcurrent.SynchronousCancel
