import Tconcurrent.SynchronousCancelWorkEnds

/-! When a request terminates the program: it has come to the canceler of a suspended coroutine
inside a catch block.  It does not if no such coroutine waits inside a `when_any`, or inside the
future that another one is ready with. -/
namespace Tconcurrent.SynchronousCancel
open Recursion Workload

variable {fut after inner : Future} {v : Value} {source : Source} {inCatch alone : Bool} {α : Type}

def Source.isAny : Source → Bool
  | .whenAny _ _ _ => true
  | _ => false

/-- Where one future sets another inside a catch block, it can cancel no suspended coroutine.  If
it is `alone`, no part of it is one. -/
inductive Apart : Bool → Future → Prop
  | source {alone : Bool} {fut : Future} (waiting : fut.waiting = .source)
      (running : ∀ awaited body results, fut.source = .awaiting awaited body results →
        alone = false)
      (awaited : ∀ awaited body results, fut.source = .awaiting awaited body results →
        Apart false awaited)
      (futures : ∀ future ∈ fut.source.futures, Apart (alone || fut.source.isAny) future) :
      Apart alone fut
  | inner {alone : Bool} {fut inner : Future} (waiting : fut.waiting = .inner inner)
      (inside : Apart alone inner) (futures : ∀ future ∈ fut.source.futures, Apart true future) :
      Apart alone fut
  | ready {alone : Bool} {fut : Future} {v : Value} (waiting : fut.waiting = .ready v)
      (value : ∀ inner, v = .future inner → Apart true inner)
      (futures : ∀ future ∈ fut.source.futures, Apart true future) : Apart alone fut

def Value.Apart (v : Value) : Prop :=
  ∀ inner, v = .future inner → SynchronousCancel.Apart true inner

def Source.Apart (source : Source) : Prop :=
  ∀ future ∈ source.futures, SynchronousCancel.Apart true future

theorem datum_apart {d : Datum} : (Value.datum d).Apart := by
  rintro _ ⟨⟩

theorem Apart.weaken (apart : Apart true fut) : Apart alone fut := by
  generalize eq : true = strict at apart
  induction apart generalizing alone with
  | source waiting running _ _ _ ih =>
    subst eq
    refine .source waiting (fun _ _ _ source => ?_) (fun _ _ _ source => ?_)
      fun future member => ih future member rfl
    · cases running _ _ _ source
    · cases running _ _ _ source
  | inner waiting _ futures ih => exact .inner waiting (ih eq) futures
  | ready waiting value futures => exact .ready waiting value futures

namespace Apart

theorem futures (apart : Apart alone fut) : ∀ future ∈ fut.source.futures, Apart alone future := by
  intro future member
  cases apart with
  | source _ _ _ futures =>
    have apart := futures future member
    cases alone with
    | true => exact apart
    | false =>
      cases any : fut.source.isAny with
      | true =>
        rw [any] at apart
        exact apart.weaken
      | false => rwa [any] at apart
  | inner _ _ futures | ready _ _ futures => exact (futures future member).weaken

theorem futures_of_any (apart : Apart alone fut) (any : fut.source.isAny = true) :
    ∀ future ∈ fut.source.futures, Apart true future := by
  cases apart with
  | source _ _ _ futures =>
    rw [any, Bool.or_true] at futures
    exact futures
  | inner _ _ futures | ready _ _ futures => exact futures

theorem value (apart : Apart alone fut) (result : fut.result = some v) : v.Apart := by
  have waiting := result_eq_some.mp result
  cases apart with
  | source waiting' | inner waiting' => cases waiting.symm.trans waiting'
  | ready waiting' value =>
    cases waiting.symm.trans waiting'
    exact value

theorem of_ready (apart : Apart alone fut) (ready : fut.isReady = true) : Apart true fut := by
  obtain ⟨v, waiting⟩ := Future.isReady_iff.mp ready
  cases apart with
  | source waiting' | inner waiting' => cases waiting.symm.trans waiting'
  | ready waiting value futures => exact .ready waiting value futures

theorem inside (apart : Apart alone fut) (waiting : fut.waiting = .inner inner) :
    Apart alone inner := by
  cases apart with
  | source waiting' | ready waiting' => cases waiting.symm.trans waiting'
  | inner waiting' inside =>
    cases waiting.symm.trans waiting'
    exact inside

/-- What is left of the source of a future that is set, or one that is alone. -/
theorem setSource (apart : Apart true fut) (done : source.Done) (left : source.Apart) :
    Apart true { fut with source } := by
  cases apart with
  | source waiting =>
    exact .source waiting (fun _ _ _ eq => absurd eq done.unawaited)
      (fun _ _ _ eq => absurd eq done.unawaited) left
  | inner waiting inside => exact .inner waiting inside left
  | ready waiting value => exact .ready waiting value left

theorem setToken {token : Token} (apart : Apart alone fut) : Apart alone { fut with token } := by
  cases apart with
  | source waiting running awaited futures => exact .source waiting running awaited futures
  | inner waiting inside futures => exact .inner waiting inside futures
  | ready waiting value futures => exact .ready waiting value futures

theorem setStages {stages : List Stage} (apart : Apart alone fut) :
    Apart alone { fut with stages } := by
  cases apart with
  | source waiting running awaited futures => exact .source waiting running awaited futures
  | inner waiting inside futures => exact .inner waiting inside futures
  | ready waiting value futures => exact .ready waiting value futures

theorem setInner (apart : Apart alone fut) (waiting : fut.waiting = .inner inner)
    (inside : Apart alone after) : Apart alone { fut with waiting := .inner after } := by
  cases apart with
  | source waiting' | ready waiting' => cases waiting.symm.trans waiting'
  | inner _ _ futures => exact .inner rfl inside futures

end Apart

theorem mem_setFutures_futures {futures : List Future} {future : Future}
    (member : future ∈ (source.setFutures futures).futures) : future ∈ futures := by
  cases source with
  | whenAll | whenAny => exact member
  | none | async | asyncWait | unstarted | awaiting | ended | destroyed =>
    exact absurd member List.not_mem_nil

theorem isAny_setFutures {futures : List Future} :
    (source.setFutures futures).isAny = source.isAny := by
  cases source <;> rfl

theorem not_awaiting_of_member {futures : List Future} {future awaited : Future} {j : ℕ}
    {body : Body} {results : List Datum} (at_j : source.futures[j]? = some future) :
    source.setFutures futures ≠ .awaiting awaited body results := by
  rintro eq
  cases source with
  | whenAll | whenAny => cases eq
  | none | async | asyncWait | unstarted | awaiting | ended | destroyed => cases at_j

/-- One of the futures is changed, and is no less apart than before. -/
theorem Apart.setFuture {future : Future} {j : ℕ} (apart : Apart alone fut)
    (at_j : fut.source.futures[j]? = some future)
    (changed : ∀ alone, Apart alone future → Apart alone after) :
    Apart alone (fut.setFuture j after) := by
  have before := List.mem_of_getElem? at_j
  have all {alone : Bool} (futures : ∀ future ∈ fut.source.futures, Apart alone future) :
      ∀ other ∈ (fut.source.setFutures (fut.source.futures.set j after)).futures,
        Apart alone other := by
    intro other member
    refine (List.mem_or_eq_of_mem_set (mem_setFutures_futures member)).elim (futures other) ?_
    rintro rfl
    exact changed alone (futures future before)
  cases apart with
  | source waiting _ _ futures =>
    refine .source waiting (fun _ _ _ eq => absurd eq (not_awaiting_of_member at_j))
      (fun _ _ _ eq => absurd eq (not_awaiting_of_member at_j)) ?_
    show ∀ other ∈ _, Apart (alone || (fut.source.setFutures _).isAny) other
    rw [isAny_setFutures]
    exact all futures
  | inner waiting inside futures => exact .inner waiting inside (all futures)
  | ready waiting value futures => exact .ready waiting value (all futures)

/-! ## Calls that do not terminate the program -/

/-- What a future has to be for a call with it. -/
def Needs : Op → Prop
  | .start _ => True
  | .requestCancel inCatch fut | .callTop inCatch fut | .cancelFutures inCatch _ fut =>
    Shaped fut ∧ Apart inCatch fut
  | .set _ v fut => fut.source.Done ∧ fut.token.Bare ∧ v.Shaped ∧ fut.source.Apart ∧ v.Apart
  | .run _ _ _ | .event _ _ _ => False

/-- What it is after that. -/
def Leaves : Op → Future → Prop
  | .start _, after | .set _ _ _, after => Apart true after
  | .requestCancel _ fut, after | .callTop _ fut, after | .cancelFutures _ _ fut, after =>
    ∀ alone, Apart alone fut → Apart alone after
  | .run _ _ _, _ | .event _ _ _, _ => True

abbrev Clears (code : FutureCode α) (post : α → Prop) : Prop :=
  Safely Needs (fun op after => Returns body (body op) after ∧ Leaves op after) code post

theorem clears_call {op : Op} {post : Future → Prop} (needs : Needs op)
    (leaves : ∀ after, Meets op after → Leaves op after → post after) : Clears (call op) post :=
  safely_call needs fun after called => leaves after (returns_meets called.1) called.2

theorem clears_and_does {code : FutureCode α} {post post' : α → Prop} (clears : Clears code post)
    (does : Does code post') : Clears code fun a => post a ∧ post' a :=
  clears.and (does.of_spec fun _ _ called => ⟨called.1, returns_meets called.1⟩)

/-- It is as much apart as before. -/
theorem clears_stays {code : FutureCode Future} (apart : Apart inCatch fut)
    (clears : ∀ alone, Apart alone fut → Clears code (Apart alone)) :
    Clears code fun after => ∀ alone, Apart alone fut → Apart alone after := by
  by_cases strict : Apart true fut
  · exact (clears true strict).mono fun _ apart' _ _ => apart'.weaken
  · cases inCatch with
    | true => exact absurd apart strict
    | false =>
      refine (clears false apart).mono fun after apart' alone given => ?_
      cases alone with
      | true => exact absurd given strict
      | false => exact apart'

theorem apply_clears {r : Ret} (apart : v.Apart) : Clears (apply r v) Value.Apart := by
  cases r with
  | value | throws => exact datum_apart
  | arg => exact apart
  | future e =>
    refine safely_bind (clears_call trivial fun _ _ leaves => leaves) fun fut apart => ?_
    rintro _ ⟨⟩
    exact apart

/-- The source that is left is done with. -/
theorem pop_clears (shaped : Shaped fut) (set : fut.source.IsSet) (apart : Apart true fut) :
    Clears (fut.pop inCatch) fun after =>
      Apart true after ∧ Respends (fut.setStack fut.token.doCancels.tail) after := by
  have popped : Apart true (fut.setStack fut.token.doCancels.tail) := apart.setToken
  refine clears_and_does ?_ (pop_does shaped set)
  rw [Future.pop]
  split
  · exact clears_call ⟨shaped.popped, popped.weaken⟩ fun _ _ leaves => leaves true popped
  · exact popped

theorem set_clears (done : fut.source.Done) (bare : fut.token.Bare) (shaped : v.Shaped)
    (left : fut.source.Apart) (apart : v.Apart) :
    Clears (call (.set inCatch v fut)) (Apart true) :=
  clears_call ⟨done, bare, shaped, left, apart⟩ fun _ _ leaves => leaves

theorem unwrapInner_clears (shaped : Shaped fut) (waiting : fut.waiting = .inner inner)
    (apart : Apart alone fut) : Clears (fut.unwrapInner inCatch) (Apart alone) := by
  unfold Future.unwrapInner
  simp only [waiting]
  cases result : inner.result with
  | none => exact apart
  | some v =>
    have inside := apart.inside waiting
    have ready : inner.isReady = true := Option.isSome_iff_exists.mpr ⟨v, result⟩
    have apart' : Apart true fut := by
      cases apart with
      | source waiting' | ready waiting' => cases waiting.symm.trans waiting'
      | inner _ _ futures => exact .inner waiting (inside.of_ready ready) futures
    refine safely_bind (pop_clears shaped (shaped.set (by simp [waiting])) apart') ?_
    rintro _ ⟨left, source, done, -, rfl⟩
    refine Safely.mono ?_ fun _ => Apart.weaken
    exact set_clears done shaped.tail (value_shaped (shaped.inside waiting) result)
      left.futures (inside.value result)

theorem unwrapOuter_clears (done : fut.source.Done) (bare : fut.token.Bare)
    (left : fut.source.Apart) (shaped : Shaped inner) (apart : Apart true inner) :
    Clears (fut.unwrapOuter inCatch inner) (Apart true) := by
  have waits {inner' : Future} (given : Shaped inner' ∧ Apart true inner') :
      Clears (Future.unwrapInner { fut with
        token := { fut.token with doCancels := .inner :: fut.token.doCancels }
        waiting := .inner inner' } inCatch) (Apart true) := by
    refine unwrapInner_clears ?_ rfl (.inner rfl given.2 left)
    refine .mk (fun _ => done.set) done.counted (fun other => absurd rfl (other inner')) bare
      ?_ ?_ (fun _ _ _ eq => absurd eq done.unawaited) done.futures
    · rintro _ ⟨⟩
      exact given.1
    · rintro _ ⟨⟩
  rw [Future.unwrapOuter]
  split
  · refine safely_bind (clears_call ⟨shaped, apart.weaken⟩ fun after meets leaves => ?_)
      fun inner' => waits
    exact ⟨(meets shaped).shaped, leaves true apart⟩
  · exact waits ⟨shaped, apart⟩

theorem runStage_clears {stage : Stage} (done : fut.source.Done) (bare : fut.token.Bare)
    (shaped : v.Shaped) (left : fut.source.Apart) (apart : v.Apart) :
    Clears (fut.runStage inCatch v stage) (Apart true) := by
  have plain {c : Bool} {d : Datum} : Clears (call (.set c (.datum d) fut)) (Apart true) :=
    set_clears done bare value_shaped_datum left datum_apart
  have applies {f : Datum → Ret} :
      Clears (apply (f v.view) v >>= fun v' => call (.set (inCatch || v'.isException) v' fut))
        (Apart true) := by
    have both := clears_and_does (apply_clears (r := f v.view) apart) (apply_does shaped)
    refine safely_bind both fun v' applied => ?_
    exact set_clears done bare applied.2.1 left applied.1
  cases stage with
  | «then» f => exact applies
  | andThen f =>
    simp only [Future.runStage]
    split
    · exact plain
    · split
      · exact plain
      · exact applies
  | unwrap =>
    simp only [Future.runStage]
    split
    · exact plain
    · exact unwrapOuter_clears done bare left (shaped _ rfl) (apart _ rfl)

theorem set_leaves (needs : Needs (.set inCatch v fut)) :
    Clears (fut.set inCatch v) (Leaves (.set inCatch v fut)) := by
  obtain ⟨done, bare, shaped, left, apart⟩ := needs
  show Clears (fut.set inCatch v) (Apart true)
  rw [Future.set]
  cases fut.stages with
  | nil => exact .ready rfl apart left
  | cons stage rest =>
    refine runStage_clears ?_ ?_ shaped ?_ apart
    · exact done
    · exact bare
    · exact left

/-- A coroutine is not left of a future. -/
theorem Source.apart_of_plain (plain : source.futures = []) : source.Apart := by
  intro future member
  rw [plain] at member
  exact absurd member List.not_mem_nil

theorem destroy_clears (shaped : Shaped fut) (apart : Apart true fut) :
    Clears (fut.destroy inCatch) (Apart true) := by
  rw [Future.destroy]
  refine Safely.mono (pop_clears (shaped.destroyed _) trivial ?_) fun _ => And.left
  have done : Source.Done .destroyed :=
    ⟨trivial, trivial, fun _ member => absurd member List.not_mem_nil⟩
  exact (apart.setSource done (Source.apart_of_plain rfl)).setToken

theorem finish_clears {caught : Bool} (bare : fut.token.Bare) (shaped : v.Shaped)
    (apart : v.Apart) : Clears (fut.finish inCatch caught v) (Apart true) := by
  have done : Source.Done .ended :=
    ⟨trivial, trivial, fun _ member => absurd member List.not_mem_nil⟩
  have sets : Clears (call (.set (inCatch || caught) v { fut with source := .ended }))
      (Apart true) := set_clears done bare shaped (Source.apart_of_plain rfl) apart
  have settles : Does (call (.set (inCatch || caught) v { fut with source := .ended }))
      (Settles _) := set_does done bare shaped .refl
  refine safely_bind (clears_and_does sets settles) ?_
  rintro after ⟨apart', settles⟩
  split
  · exact apart'
  · exact destroy_clears settles.shaped apart'

/-! ## `when_all` and `when_any` -/

section

variable {futures : List Future} {future : Future} {j : ℕ}

theorem callback_whenAny_clears {autoCancel : Bool} (shaped : Shaped fut)
    (source : fut.source = .whenAny futures autoCancel false)
    (apart : ∀ future ∈ futures, Apart true future) :
    Clears (fut.callback inCatch j) (Apart true) := by
  have waiting : fut.waiting = .source := by
    refine shaped.waiting_of_not_set ?_
    rw [source]
    rintro ⟨⟩
  have bare := shaped.bare_of_source waiting
  have all := shaped.futures
  rw [source] at all
  have done : Source.Done (.whenAny futures autoCancel true) := ⟨rfl, trivial, all⟩
  have sets {source' : Source} {d : Datum} (done' : source'.Done) (left : source'.Apart) :
      Clears (call (.set inCatch (.datum d) { fut with source := source' })) (Apart true) :=
    set_clears done' bare value_shaped_datum left datum_apart
  simp only [Future.callback, source, Bool.false_eq_true, if_false]
  split
  · have shaped' : Shaped { fut with source := .whenAny futures autoCancel true } :=
      shaped.setSource done
    have apart' : Apart true { fut with source := .whenAny futures autoCancel true } :=
      .source waiting (fun _ _ _ eq => by cases eq) (fun _ _ _ eq => by cases eq) apart
    have cancels {js : List ℕ} : Clears
        (call (.cancelFutures inCatch js { fut with source := .whenAny futures autoCancel true }))
        fun after => Apart true after ∧
          Respends { fut with source := .whenAny futures autoCancel true } after :=
      clears_call ⟨shaped', apart'.weaken⟩ fun _ meets leaves =>
        ⟨leaves true apart', (meets shaped').2 rfl⟩
    refine safely_bind cancels ?_
    rintro _ ⟨left, source', done', -, rfl⟩
    exact sets done' left.futures
  · exact sets done apart

/-- One of the futures gets ready. -/
theorem change_whenAll_clears {count : ℕ} (shaped : Shaped fut) (apart : Apart alone fut)
    (source : fut.source = .whenAll futures count) (at_j : futures[j]? = some future)
    (pending : future.isReady = false) (shaped' : Shaped after) (ready : after.isReady = true)
    (changed : ∀ alone, Apart alone future → Apart alone after) :
    Clears (fut.change j after) (Apart alone) := by
  have counted := shaped.counted
  have all := shaped.futures
  have unset : ¬ fut.source.IsSet := by
    rw [source]
    exact not_set_of_pending (source ▸ counted) rfl (List.mem_of_getElem? at_j) pending
  have waiting := shaped.waiting_of_not_set unset
  have bare := shaped.bare_of_source waiting
  have others : ∀ other ∈ futures.set j after, Apart alone other := by
    have changed' := (apart.setFuture (by rwa [source]) changed).futures
    rw [Future.setFuture, source] at changed'
    exact changed'
  rw [source] at counted all
  have counted' : count + 1 = (futures.set j after).countP (·.isReady) := by
    rw [countP_set_ready at_j pending ready]
    exact congrArg (· + 1) counted
  simp only [Future.change, ready, if_true, Future.callback, source, Source.setFutures,
    Source.futures]
  split
  · rename_i complete
    have done : Source.Done (.whenAll (futures.set j after) (count + 1)) :=
      ⟨complete, counted', shaped_set all shaped'⟩
    refine Safely.mono (set_clears done bare value_shaped_datum ?_ datum_apart) fun _ =>
      Apart.weaken
    intro other member
    refine (others other member).of_ready ?_
    exact List.countP_eq_length.mp (counted'.symm.trans complete) other member
  · exact .source waiting (fun _ _ _ eq => by cases eq) (fun _ _ _ eq => by cases eq)
      (by simpa [Source.isAny, Source.futures] using others)

theorem change_clears (shaped : Shaped fut) (apart : Apart alone fut)
    (at_j : fut.source.futures[j]? = some future) (pending : future.isReady = false)
    (shaped' : Shaped after) (changed : ∀ alone, Apart alone future → Apart alone after) :
    Clears (fut.change j after) (Apart alone) := by
  have apart' := apart.setFuture at_j changed
  cases ready : after.isReady with
  | false =>
    simp only [Future.change, ready, Bool.false_eq_true, if_false]
    exact apart'
  | true =>
    cases source : fut.source with
    | whenAll futures count =>
      rw [source] at at_j
      exact change_whenAll_clears shaped apart source at_j pending shaped' ready changed
    | whenAny futures autoCancel triggered =>
      have calls : fut.change j after = (fut.setFuture j after).callback after.inCatch j := by
        simp only [Future.change, ready, if_true]
        rfl
      have changed : (fut.setFuture j after).source =
          .whenAny (futures.set j after) autoCancel triggered := by
        rw [Future.setFuture, source]
        rfl
      rw [calls]
      cases triggered with
      | true =>
        simp only [Future.callback, changed, if_true]
        exact apart'
      | false =>
        have unset : ¬ fut.source.IsSet := by
          rw [source]
          rintro ⟨⟩
        have shaped'' : Shaped (fut.setFuture j after) :=
          shaped.changed (fun set => absurd set unset) (by rw [source]; trivial)
            (fun _ _ _ eq => absurd eq (not_awaiting_of_member at_j))
            (shaped_setFuture shaped.futures shaped')
        have others := apart'.futures_of_any (by rw [changed]; rfl)
        rw [changed] at others
        exact (callback_whenAny_clears shaped'' changed others).mono fun _ => Apart.weaken
    | none | async | asyncWait | unstarted | awaiting | ended | destroyed =>
      rw [source] at at_j
      cases at_j

theorem cancelFutures_leaves {js : List ℕ} (needs : Needs (.cancelFutures inCatch js fut)) :
    Clears (fut.cancelFutures inCatch js) (Leaves (.cancelFutures inCatch js fut)) := by
  obtain ⟨shaped, apart⟩ := needs
  refine clears_stays apart fun alone given => ?_
  have goes_on {js : List ℕ} {mid : Future} (shaped : Shaped mid) (apart : Apart inCatch mid)
      (given : Apart alone mid) : Clears (call (.cancelFutures inCatch js mid)) (Apart alone) :=
    clears_call ⟨shaped, apart⟩ fun _ _ leaves => leaves alone given
  cases js with
  | nil => exact given
  | cons j js =>
    simp only [Future.cancelFutures]
    split
    · rename_i future at_j
      split
      · exact goes_on shaped apart given
      · rename_i pending
        have pending' : future.isReady = false := by simpa using pending
        have member := List.mem_of_getElem? at_j
        have canceled : Clears (call (.requestCancel inCatch future)) fun after =>
            Shaped after ∧ ∀ alone, Apart alone future → Apart alone after :=
          clears_call ⟨shaped.futures future member, apart.futures future member⟩
            fun after meets leaves => ⟨(meets (shaped.futures future member)).shaped, leaves⟩
        refine safely_bind canceled ?_
        rintro after ⟨shaped', changed⟩
        have changes : Clears (fut.change j after) fun mid =>
            ∀ alone, Apart alone fut → Apart alone mid :=
          clears_stays apart fun alone given =>
            change_clears shaped given at_j pending' shaped' changed
        refine safely_bind (clears_and_does changes (change_does shaped at_j pending' shaped')) ?_
        rintro mid ⟨stays, becomes, -⟩
        exact goes_on becomes.shaped (stays inCatch apart) (stays alone given)
    · exact goes_on shaped apart given

end

/-! ## Cancelation -/

theorem cancelSource_clears (shaped : Shaped fut) (apart : Apart inCatch fut)
    (given : Apart alone fut) : Clears (fut.cancelSource inCatch) (Apart alone) := by
  have pops (unset : ¬ fut.source.IsSet) :
      Clears (Future.pop { fut with source := .none } inCatch >>= fun fut =>
        call (.set inCatch canceled fut)) (Apart alone) := by
    have waiting := shaped.waiting_of_not_set unset
    have done : Source.Done .none :=
      ⟨trivial, trivial, fun _ member => absurd member List.not_mem_nil⟩
    have shaped' : Shaped { fut with source := .none } := shaped.setSource done
    have apart' : Apart true { fut with source := .none } :=
      .source waiting (fun _ _ _ eq => by cases eq) (fun _ _ _ eq => by cases eq)
        (Source.apart_of_plain rfl)
    refine safely_bind (pop_clears shaped' trivial apart') ?_
    rintro _ ⟨left, source, done', -, rfl⟩
    refine Safely.mono ?_ fun _ => Apart.weaken
    exact set_clears done' shaped'.tail value_shaped_datum left.futures datum_apart
  have finishes {caught : Bool} (unset : ¬ fut.source.IsSet) :
      Clears (fut.finish inCatch caught canceled) (Apart alone) :=
    (finish_clears (shaped.bare_of_source (shaped.waiting_of_not_set unset)) value_shaped_datum
      datum_apart).mono fun _ => Apart.weaken
  have cancels {js : List ℕ} : Clears (call (.cancelFutures inCatch js fut)) (Apart alone) :=
    clears_call ⟨shaped, apart⟩ fun _ _ leaves => leaves alone given
  rw [Future.cancelSource]
  cases source : fut.source with
  | async | asyncWait => exact pops (by simp [source, Source.IsSet])
  | unstarted => exact finishes (by simp [source, Source.IsSet])
  | awaiting awaited body results =>
    have unset : ¬ fut.source.IsSet := by simp [source, Source.IsSet]
    have awaits : Shaped awaited := by
      cases shaped with
      | mk _ _ _ _ _ _ awaits => exact awaits awaited body results source
    cases apart with
    | source _ running awaited' =>
      cases running _ _ _ source
      refine safely_bind (clears_call ⟨awaits, awaited' _ _ _ source⟩ fun _ _ _ => trivial)
        fun _ _ => finishes unset
    | inner waiting | ready waiting =>
      exact absurd (shaped.set (by simp [waiting])) unset
  | whenAll | whenAny => exact cancels
  | none | ended | destroyed => exact given

theorem callTop_leaves (needs : Needs (.callTop inCatch fut)) :
    Clears (fut.callTop inCatch) (Leaves (.callTop inCatch fut)) := by
  obtain ⟨shaped, apart⟩ := needs
  refine clears_stays apart fun alone given => ?_
  rw [Future.callTop]
  split
  · exact cancelSource_clears shaped apart given
  · rename_i inner _ waiting
    split
    · exact given
    · have inner_shaped := shaped.inside waiting
      have canceled : Clears (call (.requestCancel inCatch inner)) fun after =>
          Shaped after ∧ Apart alone after :=
        clears_call ⟨inner_shaped, apart.inside waiting⟩ fun _ meets leaves =>
          ⟨(meets inner_shaped).shaped, leaves alone (given.inside waiting)⟩
      refine safely_bind canceled ?_
      rintro after ⟨shaped', apart'⟩
      exact unwrapInner_clears (shaped.setInner waiting shaped') rfl
        (given.setInner waiting apart')
  · exact given

theorem requestCancel_leaves (needs : Needs (.requestCancel inCatch fut)) :
    Clears (fut.requestCancel inCatch) (Leaves (.requestCancel inCatch fut)) := by
  obtain ⟨shaped, apart⟩ := needs
  refine clears_stays apart fun alone given => ?_
  rw [Future.requestCancel]
  split
  · exact given
  · exact clears_call ⟨shaped.request, apart.setToken⟩ fun _ _ leaves =>
      leaves alone given.setToken

/-! ## Expressions -/

theorem attach_clears {stage : Stage} (shaped : Shaped fut) (apart : Apart true fut) :
    Clears (fut.attach stage) (Apart true) := by
  rw [Future.attach]
  cases result : fut.result with
  | some v =>
    have waiting := result_eq_some.mp result
    refine set_clears (shaped.done (shaped.set (by simp [waiting])))
      (shaped.bare (by simp [waiting])) (value_shaped shaped result) ?_ (apart.value result)
    exact apart.futures
  | none => exact apart.setStages

theorem callAll_clears {es : List Expr} : Clears (Code.callAll (es.map .start)) fun futures =>
    ∀ future ∈ futures, Apart true future := by
  refine Safely.mono (safely_callAll ?_) fun futures started => ?_
  · intro op member
    obtain ⟨e, -, rfl⟩ := List.mem_map.mp member
    trivial
  · induction es generalizing futures with
    | nil =>
      cases started
      exact fun _ member => absurd member List.not_mem_nil
    | cons e es ih =>
      cases started with
      | cons first started => exact List.forall_mem_cons.mpr ⟨first.2, ih _ started⟩

theorem waitFor_apart
    (awaited : ∀ awaited body results, source ≠ .awaiting awaited body results)
    (futures : source.Apart) : Apart true (waitFor source) :=
  .source rfl (fun _ _ _ eq => absurd eq (awaited _ _ _))
    (fun _ _ _ eq => absurd eq (awaited _ _ _)) futures

theorem waiting_apart
    (awaited : ∀ awaited body results, source ≠ .awaiting awaited body results)
    (plain : source.futures = []) : Apart true (waitFor source) :=
  waitFor_apart awaited (Source.apart_of_plain plain)

theorem ready_apart {d : Datum} : Apart true { source := .none, waiting := .ready (.datum d) } :=
  .ready rfl datum_apart (Source.apart_of_plain rfl)

theorem start_leaves {e : Expr} : Clears (start e) (Leaves (.start e)) := by
  have attaches {e : Expr} {stage : Stage} :
      Clears (call (.start e) >>= fun fut => fut.attach stage) (Apart true) := by
    have starts : Clears (call (.start e)) fun fut => Shaped fut ∧ Apart true fut :=
      clears_call trivial fun _ meets leaves => ⟨meets.1, leaves⟩
    exact safely_bind starts fun fut given => attach_clears given.1 given.2
  cases e with
  | ready d => exact ready_apart
  | async f => exact waiting_apart (by simp) rfl
  | asyncWait => exact waiting_apart (by simp) rfl
  | asyncResumable body kept stackful =>
    exact .source rfl (fun _ _ _ eq => by cases eq) (fun _ _ _ eq => by cases eq)
      (Source.apart_of_plain rfl)
  | «then» | andThen | unwrap => exact attaches
  | whenAll es =>
    refine safely_bind (clears_and_does callAll_clears callAll_does) fun futures given => ?_
    obtain ⟨apart, all, -⟩ := given
    dsimp only
    split
    · exact ready_apart
    · split
      · rename_i complete
        exact set_clears ⟨complete, rfl, all⟩ (.inr rfl) value_shaped_datum apart datum_apart
      · exact waitFor_apart (by simp) apart
  | whenAny es autoCancel =>
    refine safely_bind (clears_and_does callAll_clears callAll_does) fun futures given => ?_
    obtain ⟨apart, all, -⟩ := given
    dsimp only
    split
    · exact ready_apart
    · split
      · refine callback_whenAny_clears ?_ rfl apart
        exact waitFor_shaped trivial (fun _ _ _ eq => by cases eq) all
      · exact waitFor_apart (by simp) apart

/-- **No canceler of a suspended coroutine** is called in a catch block. -/
theorem leaves {op : Op} (needs : Needs op) :
    ¬ Stops body (body op) ∧ ∀ after, Returns body (body op) after → Leaves op after := by
  refine safe_recursive (fun op needs => ?_) op needs
  cases op with
  | start => exact start_leaves
  | requestCancel => exact requestCancel_leaves needs
  | callTop => exact callTop_leaves needs
  | set => exact set_leaves needs
  | cancelFutures => exact cancelFutures_leaves needs
  | run | event => exact absurd needs id

/-! ## Runs -/

theorem Run.meets {condition : Future → Prop} {e : Expr} (run : Run condition e fut) :
    Shaped fut ∧ Within Below fut.work e.work := by
  induction run with
  | start returns => exact @returns_meets (.start e) _ returns
  | @event fut after path event _ returns _ ih =>
    have becomes := (@returns_meets (.event path event fut) _ returns ih.1).1
    exact ⟨becomes.shaped, becomes.within.trans ih.2⟩

/-- A coroutine that waits once. -/
def waitsOnce : Body
  | [] => .await .asyncWait
  | _ => .return (.value 1)

def suspended : Future := waitFor (.awaiting (waitFor .asyncWait) waitsOnce [])

def twoSuspended : Future := waitFor (.whenAny [suspended, suspended] true false)

/-- The coroutine that is aborted first cancels the other one while it handles that. -/
example : Stops body (twoSuspended.requestCancel false) :=
  stops_of_exec 9 (Op.requestCancel false twoSuspended) rfl

end Tconcurrent.SynchronousCancel
