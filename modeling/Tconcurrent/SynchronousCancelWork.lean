import Tconcurrent.SynchronousCancelReady
import Tconcurrent.Workload
import Mathlib.Tactic.Abel

/-! The work that is left of a future: what the executor has still to run for it.

A function of the user, a timer and each piece of a coroutine is an item of it.  Nothing adds to
the work but what does an item, and that puts back smaller ones only. -/
namespace Tconcurrent.SynchronousCancel
open Recursion Workload

inductive Item where
  /-- The function of an `async`. -/
  | async (f : Ret)
  | asyncWait
  /-- The function of a continuation. -/
  | function (f : Datum → Ret)
  /-- A coroutine that goes on with these results, or waits for one more. -/
  | body (body : Body) (results : List Datum)
  | suspended (body : Body) (results : List Datum)

mutual

def Expr.work : Expr → Multiset Item
  | .ready _ => 0
  | .async f => {.async f}
  | .asyncWait => {.asyncWait}
  | .asyncResumable body _ _ => {.body body []}
  | .then e f => e.work + {.function f}
  | .andThen e f => e.work + {.function f}
  | .unwrap e => e.work
  | .whenAll es => exprsWork es
  | .whenAny es _ => exprsWork es

def exprsWork : List Expr → Multiset Item
  | [] => 0
  | e :: es => e.work + exprsWork es

end

def Ret.work : Ret → Multiset Item
  | .future e => e.work
  | _ => 0

def Rest.work (body : Body) (results : List Datum) : Multiset Item :=
  match body results with
  | .await e => {.suspended body results} + e.work
  | .return r => r.work

/-- What may come of an item. -/
inductive Below : Item → Item → Prop
  | async {f item} (member : item ∈ f.work) : Below item (.async f)
  | function {f d item} (member : item ∈ (f d).work) : Below item (.function f)
  | body {body results item} (member : item ∈ Rest.work body results) :
      Below item (.body body results)
  | resumed {body results d} : Below (.body body (results ++ [d])) (.suspended body results)

def Stage.work : Stage → Multiset Item
  | .then f | .andThen f => {.function f}
  | .unwrap => 0

def stagesWork (stages : List Stage) : Multiset Item := (stages.map Stage.work).sum

mutual

def Future.work : Future → Multiset Item
  | ⟨_, source, _, _, stages, waiting, _⟩ => source.work + stagesWork stages + waiting.work

def Source.work : Source → Multiset Item
  | .none => 0
  | .async f => {.async f}
  | .asyncWait => {.asyncWait}
  | .unstarted body => {.body body []}
  | .awaiting awaited body results => {.suspended body results} + awaited.work
  | .ended => 0
  | .destroyed => 0
  | .whenAll futures _ => futuresWork futures
  | .whenAny futures _ _ => futuresWork futures

def Waiting.work : Waiting → Multiset Item
  | .source => 0
  | .inner fut => fut.work
  | .ready v => v.work

def Value.work : Value → Multiset Item
  | .datum _ => 0
  | .future fut => fut.work

def futuresWork : List Future → Multiset Item
  | [] => 0
  | fut :: futures => fut.work + futuresWork futures

end

/-! ## The shape of a future -/

/-- The future that waits for it has been set. -/
def Source.IsSet : Source → Prop
  | .none | .ended | .destroyed => True
  | .whenAll futures count => count = futures.length
  | .whenAny _ _ triggered => triggered = true
  | _ => False

def Source.Counted : Source → Prop
  | .whenAll futures count => count = futures.countP (·.isReady)
  | _ => True

/-- What holds of every future, whether its cancelers are in order or not. -/
inductive Shaped : Future → Prop
  | mk {fut : Future} (set : fut.waiting ≠ .source → fut.source.IsSet)
      (counted : fut.source.Counted)
      (bare : (∀ inner, fut.waiting ≠ .inner inner) → fut.token.Bare)
      (tail : fut.token.doCancels.tail = [] ∨ fut.token.doCancels.tail = [.source])
      (inside : ∀ inner, fut.waiting = .inner inner → Shaped inner)
      (value : ∀ inner, fut.waiting = .ready (.future inner) → Shaped inner)
      (awaited : ∀ awaited body results, fut.source = .awaiting awaited body results →
        Shaped awaited)
      (futures : ∀ future ∈ fut.source.futures, Shaped future) : Shaped fut

def Value.Shaped (v : Value) : Prop :=
  ∀ inner, v = .future inner → SynchronousCancel.Shaped inner

/-- What has been set, with shaped futures. -/
structure Source.Done (source : Source) : Prop where
  set : source.IsSet
  counted : source.Counted
  futures : ∀ future ∈ source.futures, Shaped future

/-- The work that a future waits behind. -/
def Future.rest (fut : Future) : Multiset Item := fut.source.work + stagesWork fut.stages

variable {fut : Future} {v : Value} {source : Source} {s : Multiset Item} {inCatch : Bool}

theorem Future.work_eq : fut.work = fut.rest + fut.waiting.work := by
  cases fut
  rfl

/-! ## What each call keeps -/

/-- What is made of a future. -/
structure Becomes (fut after : Future) : Prop where
  shaped : Shaped after
  within : Within Below after.work fut.work
  ready : fut.isReady = true → after.isReady = true

/-- Nothing is changed but the futures of `when_all` and `when_any`, after they are done. -/
def Respends (fut after : Future) : Prop :=
  ∃ source : Source, source.Done ∧ Within Below source.work fut.source.work ∧
    after = { fut with source }

/-- What continuations make of a future that has so much work left. -/
structure Settles (s : Multiset Item) (after : Future) : Prop where
  shaped : Shaped after
  set : after.source.IsSet
  within : Within Below after.work s

/-- What each of the functions that call each other does. -/
def Meets : Op → Future → Prop
  | .start e, after => Shaped after ∧ Within Below after.work e.work
  | .requestCancel _ fut, after => Shaped fut → Becomes fut after
  | .callTop _ fut, after => Shaped fut →
    Becomes fut after ∧ (fut.token.Bare → fut.source.IsSet → Respends fut after)
  | .set _ v fut, after => fut.source.Done → fut.token.Bare → v.Shaped →
    Settles (v.work + fut.rest) after
  | .cancelFutures _ _ fut, after => Shaped fut →
    Becomes fut after ∧ (fut.source.IsSet → Respends fut after)
  | .run body results fut, after => fut.waiting = .source → fut.token.Bare →
    Shaped after ∧ Less Below after.work ({.body body results} + stagesWork fut.stages)
  | .event _ event fut, after => Shaped fut →
    Becomes fut after ∧ (event = .fire → Less Below after.work fut.work)

abbrev Does {α : Type} (code : FutureCode α) (post : α → Prop) : Prop :=
  Assuming (fun op after => Returns body (body op) after ∧ Meets op after) code post

theorem does_call {op : Op} {post : Future → Prop}
    (meets : ∀ after, Meets op after → post after) : Does (call op) post :=
  fun after called => meets after called.2

theorem respends_self (done : fut.source.Done) : Respends fut fut := by
  refine ⟨fut.source, done, .refl, ?_⟩
  cases fut
  rfl

theorem Token.Bare.tail {token : Token} (bare : token.Bare) :
    token.doCancels.tail = [] ∨ token.doCancels.tail = [.source] := by
  rcases bare with empty | left
  · exact .inl (by rw [empty, List.tail_nil])
  · exact .inl (by rw [left, List.tail_cons])

theorem Shaped.counted (shaped : Shaped fut) : fut.source.Counted := by
  cases shaped with
  | mk _ counted => exact counted

theorem Shaped.futures (shaped : Shaped fut) : ∀ future ∈ fut.source.futures, Shaped future := by
  cases shaped with
  | mk _ _ _ _ _ _ _ futures => exact futures

theorem Shaped.done (shaped : Shaped fut) (set : fut.source.IsSet) : fut.source.Done :=
  ⟨set, shaped.counted, shaped.futures⟩

theorem Source.Done.unawaited (done : source.Done) {awaited : Future} {body : Body}
    {results : List Datum} : source ≠ .awaiting awaited body results := by
  rintro rfl
  exact done.set

/-- What a future waits for at first is changed, once it is set to something that is set, too. -/
theorem Shaped.changed (shaped : Shaped fut) (set : fut.source.IsSet → source.IsSet)
    (counted : source.Counted)
    (awaited : ∀ awaited body results, source = .awaiting awaited body results → Shaped awaited)
    (futures : ∀ future ∈ source.futures, Shaped future) : Shaped { fut with source } := by
  cases shaped with
  | mk set' _ bare tail inside value _ _ =>
    exact .mk (fun waiting => set (set' waiting)) counted bare tail inside value awaited futures

theorem Shaped.setSource (shaped : Shaped fut) (done : source.Done) :
    Shaped { fut with source } :=
  shaped.changed (fun _ => done.set) done.counted (fun _ _ _ eq => absurd eq done.unawaited)
    done.futures

theorem Respends.becomes {after : Future} (shaped : Shaped fut) (changed : Respends fut after) :
    Becomes fut after := by
  obtain ⟨source, done, within, rfl⟩ := changed
  refine ⟨shaped.setSource done, ?_, id⟩
  rw [Future.work_eq, Future.work_eq, Future.rest, Future.rest]
  exact within_add _ (within_add _ within)

theorem Becomes.trans {mid after : Future} (first : Becomes fut mid) (last : Becomes mid after) :
    Becomes fut after :=
  ⟨last.shaped, last.within.trans first.within, fun ready => last.ready (first.ready ready)⟩

theorem Respends.trans {mid after : Future} (first : Respends fut mid)
    (last : Respends mid after) : Respends fut after := by
  obtain ⟨source, _, within, rfl⟩ := first
  obtain ⟨source', done, within', rfl⟩ := last
  exact ⟨source', done, within'.trans within, rfl⟩

theorem Shaped.set (shaped : Shaped fut) (waiting : fut.waiting ≠ .source) :
    fut.source.IsSet := by
  cases shaped with
  | mk set => exact set waiting

theorem Shaped.bare (shaped : Shaped fut) (waiting : ∀ inner, fut.waiting ≠ .inner inner) :
    fut.token.Bare := by
  cases shaped with
  | mk _ _ bare => exact bare waiting

theorem Shaped.bare_of_source (shaped : Shaped fut) (waiting : fut.waiting = .source) :
    fut.token.Bare :=
  shaped.bare (by simp [waiting])

theorem Shaped.waiting_of_not_set (shaped : Shaped fut) (unset : ¬ fut.source.IsSet) :
    fut.waiting = .source :=
  by_contra fun waiting => unset (shaped.set waiting)

/-- A future that waited for its source has been set. -/
theorem Settles.becomes {after : Future} (settles : Settles s after)
    (waiting : fut.waiting = .source) (within : Within Below s fut.work) : Becomes fut after := by
  refine ⟨settles.shaped, settles.within.trans within, fun ready => ?_⟩
  rw [not_ready_of_source waiting] at ready
  cases ready

/-- The stack is bare below its top. -/
theorem Shaped.popped (shaped : Shaped fut) :
    Shaped (fut.setStack fut.token.doCancels.tail) := by
  cases shaped with
  | mk set counted bare tail inside value awaited futures =>
    exact .mk set counted (fun _ => tail) (Token.Bare.tail tail) inside value awaited futures

theorem Shaped.tail (shaped : Shaped fut) :
    (fut.setStack fut.token.doCancels.tail).token.Bare := by
  cases shaped with
  | mk _ _ _ tail => exact tail

theorem pop_does (shaped : Shaped fut) (set : fut.source.IsSet) :
    Does (fut.pop inCatch) (Respends (fut.setStack fut.token.doCancels.tail)) := by
  rw [Future.pop]
  split
  · exact does_call fun after meets => (meets shaped.popped).2 shaped.tail set
  · exact respends_self (shaped.done set)

/-! ## Continuations -/

theorem apply_does {r : Ret} (value : v.Shaped) :
    Does (apply r v) fun v' => v'.Shaped ∧ Within Below v'.work (r.work + v.work) := by
  cases r with
  | value | throws =>
    refine ⟨?_, within_of_le (Multiset.zero_le _)⟩
    rintro inner ⟨⟩
  | arg => exact ⟨value, within_of_eq (zero_add _).symm⟩
  | future e =>
    refine assuming_bind (does_call fun after meets => meets) fun fut started => ⟨?_, ?_⟩
    · rintro inner ⟨⟩
      exact started.1
    · exact started.2.trans (within_of_le (Multiset.le_add_right _ _))

theorem value_work_le {inner : Future} (result : inner.result = some v) :
    v.work ≤ inner.work := by
  rw [Future.work_eq, result_eq_some.mp result]
  exact Multiset.le_add_left _ _

theorem value_shaped {inner : Future} (shaped : Shaped inner) (result : inner.result = some v) :
    v.Shaped := by
  cases shaped with
  | mk _ _ _ _ _ value =>
    rintro g rfl
    exact value g (result_eq_some.mp result)

theorem Settles.mono {s' : Multiset Item} {after : Future} (settles : Settles s' after)
    (within : Within Below s' s) : Settles s after :=
  ⟨settles.shaped, settles.set, settles.within.trans within⟩

/-- The next continuation waits for what is set. -/
theorem set_does (done : fut.source.Done) (bare : fut.token.Bare) (value : v.Shaped)
    (within : Within Below (v.work + fut.rest) s) : Does (call (.set inCatch v fut)) (Settles s) :=
  does_call fun _ meets => (meets done bare value).mono within

theorem unwrapInner_does {inner : Future} (waiting : fut.waiting = .inner inner)
    (shaped : Shaped fut) : Does (fut.unwrapInner inCatch) (Settles fut.work) := by
  cases shaped with
  | mk set counted bare tail inside value awaited futures =>
    have set' : fut.source.IsSet := set (by simp [waiting])
    have shaped : Shaped fut := .mk set counted bare tail inside value awaited futures
    unfold Future.unwrapInner
    simp only [waiting]
    cases result : inner.result with
    | none => exact ⟨shaped, set', .refl⟩
    | some v =>
      refine assuming_bind (pop_does shaped set') ?_
      rintro _ ⟨source, done, within, rfl⟩
      refine set_does done shaped.tail (value_shaped (inside inner waiting) result) ?_
      have less : Within Below v.work inner.work := within_of_le (value_work_le result)
      have rest := within_add_add less (within_add (stagesWork fut.stages) within)
      refine rest.trans (within_of_eq ?_)
      rw [@Future.work_eq fut, waiting]
      exact add_comm _ _

theorem unwrapOuter_does {inner : Future} (done : fut.source.Done) (bare : fut.token.Bare)
    (shaped : Shaped inner) :
    Does (fut.unwrapOuter inCatch inner) (Settles (inner.work + fut.rest)) := by
  have waits {inner' : Future} (shaped' : Shaped inner')
      (within : Within Below inner'.work inner.work) :
      Does (Future.unwrapInner { fut with
        token := { fut.token with doCancels := .inner :: fut.token.doCancels }
        waiting := .inner inner' } inCatch) (Settles (inner.work + fut.rest)) := by
    refine Assuming.mono (unwrapInner_does rfl ?_) fun after settles => settles.mono ?_
    · refine .mk (fun _ => done.set) done.counted (fun other => absurd rfl (other inner')) bare
        ?_ ?_ (fun _ _ _ eq => absurd eq done.unawaited) done.futures
      · rintro _ ⟨⟩
        exact shaped'
      · rintro _ ⟨⟩
    · rw [Future.work_eq]
      exact (within_of_eq (add_comm _ _)).trans (within_add _ within)
  rw [Future.unwrapOuter]
  split
  · refine assuming_bind (does_call fun after meets => meets shaped) fun inner' becomes => ?_
    exact waits becomes.shaped becomes.within
  · exact waits shaped .refl

theorem less_function {f : Datum → Ret} {d : Datum} :
    Less Below (f d).work ({.function f} : Multiset Item) :=
  less_of_puts fun _ member => .function member

theorem runStage_does {stage : Stage} (done : fut.source.Done) (bare : fut.token.Bare)
    (value : v.Shaped) :
    Does (fut.runStage inCatch v stage) (Settles (v.work + stage.work + fut.rest)) := by
  have plain {c : Bool} {d : Datum} :
      Does (call (.set c (.datum d) fut)) (Settles (v.work + stage.work + fut.rest)) := by
    refine set_does done bare ?_ (within_add _ (within_of_le (Multiset.zero_le _)))
    rintro inner ⟨⟩
  have applies {f : Datum → Ret} (work : stage.work = {.function f}) :
      Does (apply (f v.view) v >>= fun v' => call (.set (inCatch || v'.isException) v' fut))
        (Settles (v.work + stage.work + fut.rest)) := by
    refine assuming_bind (apply_does value) fun v' applied => ?_
    refine set_does done bare applied.1 (within_add _ (applied.2.trans ?_))
    rw [work, add_comm]
    exact within_add_add .refl less_function.to_reflTransGen
  cases stage with
  | «then» f => exact applies rfl
  | andThen f =>
    simp only [Future.runStage]
    split
    · exact plain
    · split
      · exact plain
      · exact applies rfl
  | unwrap =>
    simp only [Future.runStage]
    split
    · exact plain
    · refine Assuming.mono (unwrapOuter_does done bare (value _ rfl)) fun after settles =>
        settles.mono (within_of_eq ?_)
      simp [Stage.work, Value.work]

theorem set_meets : Does (fut.set inCatch v) (Meets (.set inCatch v fut)) := by
  by_cases given : fut.source.Done ∧ fut.token.Bare ∧ v.Shaped
  · obtain ⟨done, bare, value⟩ := given
    suffices does : Does (fut.set inCatch v) (Settles (v.work + fut.rest)) from
      Assuming.mono does fun _ settles _ _ _ => settles
    rw [Future.set]
    cases stages : fut.stages with
    | nil =>
      refine ⟨.mk (fun _ => done.set) done.counted (fun _ => bare) bare.tail ?_ ?_ ?_ done.futures,
        done.set, ?_⟩
      · rintro _ ⟨⟩
      · rintro inner ⟨⟩
        exact value inner rfl
      · exact fun _ _ _ eq => absurd eq done.unawaited
      · rw [Future.work_eq, Future.rest, Future.rest, stages]
        exact within_of_eq (add_comm _ _)
    | cons stage rest =>
      refine Assuming.mono (runStage_does done bare value) fun after settles =>
        settles.mono (within_of_eq ?_)
      simp only [Future.rest, stages, stagesWork, List.map_cons, List.sum_cons]
      abel
  · exact assuming_of_forall fun _ done bare value =>
      absurd ⟨done, bare, value⟩ given

/-! ## Coroutines -/

theorem Shaped.destroyed (shaped : Shaped fut) (broken : Bool) :
    Shaped { fut with source := .destroyed, token := { fut.token with broken } } := by
  cases shaped with
  | mk _ _ bare tail inside value _ _ =>
    exact .mk (fun _ => trivial) trivial bare tail inside value (fun _ _ _ eq => by cases eq)
      fun _ member => absurd member List.not_mem_nil

theorem destroy_does (shaped : Shaped fut) : Does (fut.destroy inCatch) fun after =>
    Settles fut.work after ∧ (fut.isReady = true → after.isReady = true) := by
  rw [Future.destroy]
  refine (pop_does (shaped.destroyed _) trivial).mono ?_
  rintro _ ⟨source, done, within, rfl⟩
  refine ⟨⟨(shaped.destroyed _).popped.setSource done, done.set, ?_⟩, id⟩
  rw [Future.work_eq, Future.work_eq, Future.rest, Future.rest]
  refine within_add _ (within_add _ (within.trans ?_))
  exact within_of_le (Multiset.zero_le _)

theorem finish_does {caught : Bool} (bare : fut.token.Bare) (value : v.Shaped) :
    Does (fut.finish inCatch caught v) (Settles (v.work + stagesWork fut.stages)) := by
  have done : Source.Done .ended :=
    ⟨trivial, trivial, fun _ member => absurd member List.not_mem_nil⟩
  have sets : Does (call (.set (inCatch || caught) v { fut with source := .ended }))
      (Settles (v.work + stagesWork fut.stages)) := by
    refine set_does done bare value (within_of_eq ?_)
    simp [Future.rest, Source.work]
  refine assuming_bind sets fun after settles => ?_
  split
  · exact settles
  · exact (destroy_does settles.shaped).mono fun _ destroyed => destroyed.1.mono settles.within

/-! ## `when_all` and `when_any` -/

section

variable {futures : List Future} {future after : Future} {j : ℕ}

theorem futuresWork_set (after : Future) (at_j : futures[j]? = some future) : ∃ others,
    futuresWork futures = future.work + others ∧
      futuresWork (futures.set j after) = after.work + others := by
  induction futures generalizing j with
  | nil => cases at_j
  | cons first futures ih =>
    cases j with
    | zero =>
      cases at_j
      exact ⟨futuresWork futures, rfl, rfl⟩
    | succ j =>
      obtain ⟨others, before, changed⟩ := ih at_j
      refine ⟨first.work + others, ?_, ?_⟩
      · rw [futuresWork, before]
        abel
      · rw [List.set_cons_succ, futuresWork, changed]
        abel

theorem sourceWork_set (after : Future) (at_j : source.futures[j]? = some future) : ∃ others,
    source.work = future.work + others ∧
      (source.setFutures (source.futures.set j after)).work = after.work + others := by
  cases source with
  | whenAll | whenAny => exact futuresWork_set after at_j
  | none | async | asyncWait | unstarted | awaiting | ended | destroyed => cases at_j

theorem shaped_set (all : ∀ future ∈ futures, Shaped future) (shaped : Shaped after) :
    ∀ other ∈ futures.set j after, Shaped other :=
  fun other member => (List.mem_or_eq_of_mem_set member).elim (all other)
    fun same => same ▸ shaped

/-- One of the futures is changed, and is as ready as before. -/
theorem Counted.setFuture (counted : source.Counted) (at_j : source.futures[j]? = some future)
    (same : after.isReady = future.isReady) :
    (source.setFutures (source.futures.set j after)).Counted := by
  cases source with
  | whenAll futures count => exact counted.trans (countP_set_same at_j same).symm
  | whenAny => trivial
  | none | async | asyncWait | unstarted | awaiting | ended | destroyed => cases at_j

theorem isSet_setFuture :
    (source.setFutures (source.futures.set j after)).IsSet ↔ source.IsSet := by
  cases source with
  | whenAll futures count =>
    show count = (futures.set j after).length ↔ _
    rw [List.length_set]
    rfl
  | whenAny | none | async | asyncWait | unstarted | awaiting | ended | destroyed => rfl

theorem shaped_setFuture (all : ∀ future ∈ source.futures, Shaped future)
    (shaped : Shaped after) :
    ∀ other ∈ (source.setFutures (source.futures.set j after)).futures, Shaped other := by
  cases source with
  | whenAll | whenAny => exact shaped_set all shaped
  | none | async | asyncWait | unstarted | awaiting | ended | destroyed => exact all

/-- The `j`th future is now another one, of which nobody has been told. -/
def Future.setFuture (fut : Future) (j : ℕ) (after : Future) : Future :=
  { fut with source := fut.source.setFutures (fut.source.futures.set j after) }

theorem setFuture_within (at_j : fut.source.futures[j]? = some future)
    (within : Within Below after.work future.work) :
    Within Below (fut.setFuture j after).work fut.work := by
  obtain ⟨others, before, changed⟩ := sourceWork_set after at_j
  rw [Future.work_eq, Future.work_eq, Future.rest, Future.rest, Future.setFuture, before, changed]
  exact within_add _ (within_add _ (within_add _ within))

theorem setFuture_less (at_j : fut.source.futures[j]? = some future)
    (less : Less Below after.work future.work) :
    Less Below (fut.setFuture j after).work fut.work := by
  obtain ⟨others, before, changed⟩ := sourceWork_set after at_j
  rw [Future.work_eq, Future.work_eq, Future.rest, Future.rest, Future.setFuture, before, changed]
  exact less_add _ (less_add _ (less_add _ less))

theorem setFuture_respends {fut' : Future} (at_j : fut.source.futures[j]? = some future)
    (within : Within Below after.work future.work)
    (respends : Respends (fut.setFuture j after) fut') : Respends fut fut' := by
  obtain ⟨source, done, within', rfl⟩ := respends
  obtain ⟨others, before, changed⟩ := sourceWork_set after at_j
  refine ⟨source, done, within'.trans ?_, rfl⟩
  rw [Future.setFuture, before, changed]
  exact within_add _ within

theorem setFuture_shaped (shaped : Shaped fut) (at_j : fut.source.futures[j]? = some future)
    (shaped' : Shaped after) (same : after.isReady = future.isReady) :
    Shaped (fut.setFuture j after) := by
  have counted := Counted.setFuture shaped.counted at_j same
  refine shaped.changed isSet_setFuture.mpr counted (fun awaited body results eq => ?_)
    (shaped_setFuture shaped.futures shaped')
  cases source : fut.source with
  | whenAll | whenAny => simp [source, Source.setFutures] at eq
  | none | async | asyncWait | unstarted | awaiting | ended | destroyed =>
    simp [source, Source.futures] at at_j

theorem setFuture_becomes (shaped : Shaped fut) (at_j : fut.source.futures[j]? = some future)
    (shaped' : Shaped after) (same : after.isReady = future.isReady) :
    Becomes (fut.setFuture j after) (fut.setFuture j after) ∧
      (fut.source.IsSet → Respends (fut.setFuture j after) (fut.setFuture j after)) := by
  have changed := setFuture_shaped shaped at_j shaped' same
  exact ⟨⟨changed, .refl, id⟩, fun set =>
    respends_self (changed.done (isSet_setFuture.mpr set))⟩

theorem not_set_of_pending (counted : source.Counted) {futures : List Future} {count : ℕ}
    (eq : source = .whenAll futures count) (member : future ∈ futures)
    (pending : future.isReady = false) : ¬ source.IsSet := by
  subst eq
  intro all
  have complete := List.countP_eq_length.mp (counted.symm.trans all) future member
  rw [pending] at complete
  cases complete

/-- One of the futures gets ready, which sets the future of `when_all` after the last one. -/
theorem change_whenAll_does {futures : List Future} {count : ℕ} (shaped : Shaped fut)
    (source : fut.source = .whenAll futures count) (at_j : futures[j]? = some future)
    (pending : future.isReady = false) (shaped' : Shaped after) (ready : after.isReady = true) :
    Does (fut.change j after) (Becomes (fut.setFuture j after)) := by
  have counted := shaped.counted
  have all := shaped.futures
  rw [source] at counted all
  have counted' : count + 1 = (futures.set j after).countP (·.isReady) := by
    rw [countP_set_ready at_j pending ready]
    exact congrArg (· + 1) counted
  have all' : ∀ other ∈ futures.set j after, Shaped other := shaped_set all shaped'
  have unset : ¬ fut.source.IsSet := by
    rw [source]
    exact not_set_of_pending counted rfl (List.mem_of_getElem? at_j) pending
  have waiting := shaped.waiting_of_not_set unset
  have work : (fut.setFuture j after).work =
      futuresWork (futures.set j after) + stagesWork fut.stages + fut.waiting.work := by
    rw [Future.work_eq, Future.setFuture, source]
    rfl
  simp only [Future.change, ready, if_true, Future.callback, source, Source.setFutures,
    Source.futures]
  split
  · rename_i complete
    refine Assuming.mono (set_does (s := (fut.setFuture j after).work)
      ⟨complete, counted', all'⟩ (shaped.bare_of_source waiting) ?_ (within_of_le ?_))
      fun _ settles => @Settles.becomes (fut.setFuture j after) _ _ settles waiting .refl
    · rintro _ ⟨⟩
    · rw [work]
      simp [Value.work, Future.rest, Source.work]
  · refine ⟨shaped.changed (fun set => absurd set unset) counted' ?_ all', ?_, id⟩
    · rintro _ _ _ ⟨⟩
    · rw [work, Future.work_eq]
      exact .refl

/-- The first future sets that of `when_any`. -/
theorem callback_whenAny_does {futures : List Future} {autoCancel : Bool} (shaped : Shaped fut)
    (source : fut.source = .whenAny futures autoCancel false) :
    Does (fut.callback inCatch j) (Settles fut.rest) := by
  have waiting : fut.waiting = .source := by
    refine shaped.waiting_of_not_set ?_
    rw [source]
    rintro ⟨⟩
  have bare := shaped.bare_of_source waiting
  have rest : fut.rest = futuresWork futures + stagesWork fut.stages := by
    rw [Future.rest, source, Source.work]
  have all := shaped.futures
  rw [source] at all
  have done : Source.Done (.whenAny futures autoCancel true) := ⟨rfl, trivial, all⟩
  have sets {source' : Source} {d : Datum} (done' : source'.Done)
      (within : Within Below source'.work (futuresWork futures)) :
      Does (call (.set inCatch (.datum d) { fut with source := source' })) (Settles fut.rest) := by
    refine set_does done' bare ?_ ?_
    · rintro _ ⟨⟩
    · rw [rest]
      exact (within_of_eq (zero_add _)).trans (within_add _ within)
  simp only [Future.callback, source, Bool.false_eq_true, if_false]
  split
  · refine assuming_bind (does_call fun _ meets => (meets (shaped.setSource done)).2 done.set) ?_
    rintro _ ⟨source', done', within', rfl⟩
    exact sets done' within'
  · exact sets done .refl

theorem change_whenAny_does {futures : List Future} {autoCancel triggered : Bool}
    (shaped : Shaped fut) (source : fut.source = .whenAny futures autoCancel triggered)
    (shaped' : Shaped after) (ready : after.isReady = true) :
    Does (fut.change j after) fun fut' => Becomes (fut.setFuture j after) fut' ∧
      (fut.source.IsSet → Respends (fut.setFuture j after) fut') := by
  have all' := shaped_setFuture (j := j) shaped.futures shaped'
  have same : fut.setFuture j after =
      { fut with source := fut.source.setFutures (fut.source.futures.set j after) } := rfl
  rw [source] at all'
  rw [source] at same
  cases triggered with
  | true =>
    have changed : Shaped (fut.setFuture j after) := by
      rw [same]
      exact shaped.setSource ⟨rfl, trivial, all'⟩
    have respends : Respends (fut.setFuture j after) (fut.setFuture j after) := by
      refine respends_self (changed.done ?_)
      rw [same]
      rfl
    have returns : fut.change j after = pure (fut.setFuture j after) := by
      rw [same]
      simp only [Future.change, ready, if_true, Future.callback, source, Source.setFutures]
    rw [returns]
    exact ⟨respends.becomes changed, fun _ => respends⟩
  | false =>
    have unset : ¬ fut.source.IsSet := by
      rw [source]
      rintro ⟨⟩
    have waiting := shaped.waiting_of_not_set unset
    have changed : Shaped (fut.setFuture j after) := by
      rw [same]
      refine shaped.changed (fun set => absurd set unset) trivial ?_ all'
      rintro _ _ _ ⟨⟩
    have calls : fut.change j after = (fut.setFuture j after).callback after.inCatch j := by
      simp only [Future.change, ready, if_true]
      rfl
    rw [calls]
    refine (callback_whenAny_does changed (by rw [same]; rfl)).mono
      fun fut' settles => ⟨settles.becomes waiting (within_of_le ?_), fun set => absurd set unset⟩
    rw [@Future.work_eq (fut.setFuture j after)]
    exact Multiset.le_add_right _ _

theorem change_does (shaped : Shaped fut) (at_j : fut.source.futures[j]? = some future)
    (pending : future.isReady = false) (shaped' : Shaped after) :
    Does (fut.change j after) fun fut' => Becomes (fut.setFuture j after) fut' ∧
      (fut.source.IsSet → Respends (fut.setFuture j after) fut') := by
  cases ready : after.isReady with
  | false =>
    simp only [Future.change, ready, Bool.false_eq_true, if_false]
    exact setFuture_becomes shaped at_j shaped' (ready.trans pending.symm)
  | true =>
    cases source : fut.source with
    | whenAll futures count =>
      rw [source] at at_j
      have unset := not_set_of_pending shaped.counted source (List.mem_of_getElem? at_j) pending
      rw [source] at unset
      exact (change_whenAll_does shaped source at_j pending shaped' ready).mono
        fun _ becomes => ⟨becomes, fun set => absurd set unset⟩
    | whenAny =>
      have changed := change_whenAny_does (j := j) shaped source shaped' ready
      rw [source] at changed
      exact changed
    | none | async | asyncWait | unstarted | awaiting | ended | destroyed =>
      rw [source] at at_j
      cases at_j

theorem cancelFutures_meets {js : List ℕ} :
    Does (fut.cancelFutures inCatch js) (Meets (.cancelFutures inCatch js fut)) := by
  by_cases shaped : Shaped fut
  · suffices does : Does (fut.cancelFutures inCatch js) fun after =>
        Becomes fut after ∧ (fut.source.IsSet → Respends fut after) from
      does.mono fun _ changed _ => changed
    have goes_on {js : List ℕ} {mid : Future}
        (changed : Becomes fut mid ∧ (fut.source.IsSet → Respends fut mid)) :
        Does (call (.cancelFutures inCatch js mid)) fun after =>
          Becomes fut after ∧ (fut.source.IsSet → Respends fut after) := by
      refine does_call fun after meets => ?_
      obtain ⟨becomes, respends⟩ := meets changed.1.shaped
      refine ⟨changed.1.trans becomes, fun set => ?_⟩
      have first := changed.2 set
      refine first.trans (respends ?_)
      obtain ⟨source, done, -, rfl⟩ := first
      exact done.set
    have same : Becomes fut fut ∧ (fut.source.IsSet → Respends fut fut) :=
      ⟨⟨shaped, .refl, id⟩, fun set => respends_self (shaped.done set)⟩
    cases js with
    | nil => exact same
    | cons j js =>
      simp only [Future.cancelFutures]
      split
      · rename_i future at_j
        split
        · exact goes_on same
        · rename_i pending
          have shaped' := shaped.futures future (List.mem_of_getElem? at_j)
          refine assuming_bind (does_call fun _ meets => meets shaped') fun after becomes => ?_
          have within := becomes.within
          refine assuming_bind (change_does shaped at_j (by simpa using pending) becomes.shaped)
            fun mid changed => goes_on ⟨?_, fun set => ?_⟩
          · exact ⟨changed.1.shaped, changed.1.within.trans (setFuture_within at_j within),
              changed.1.ready⟩
          · exact setFuture_respends at_j within (changed.2 set)
      · exact goes_on same
  · exact assuming_of_forall fun _ shaped' => absurd shaped' shaped

end

end Tconcurrent.SynchronousCancel
