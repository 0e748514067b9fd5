import Tconcurrent.SynchronousCancelInvariant

/-! Every future that is built from the primitives has its cancelers in order, and keeps them in
order unless the state of a coroutine is destroyed with the callback of an inner future on top of
its own. -/
namespace Tconcurrent.SynchronousCancel
open Recursion

variable {fut : Future} {v : Value} {inCatch : Bool}

/-! ## Expressions -/

theorem set_formed (bare : fut.token.Bare) (spent : Spent fut.source)
    (stages : SoundStages fut.stages) (value : v.Sound) :
    Ends (call (.set inCatch v fut)) Formed :=
  ends_call ((set_settled bare spent stages value).mono fun _ => Settled.formed)

theorem attach_formed {stage : Stage} (formed : Formed fut)
    (function : ∀ d, SoundRet (stage.function d)) : Ends (fut.attach stage) Formed := by
  have attached (stages : SoundStages fut.stages) : SoundStages (fut.stages ++ [stage]) := by
    unfold SoundStages
    simp only [List.mem_append, List.mem_singleton]
    rintro other (member | rfl)
    · exact stages other member
    · exact function
  unfold Future.attach
  cases formed with
  | source waiting unrequested stack source stages =>
    simp only [Future.result, waiting]
    exact ends_pure (.source rfl unrequested stack source (attached stages))
  | inner waiting pending unrequested stack bare source inside stages =>
    simp only [Future.result, waiting]
    exact ends_pure
      (.inner rfl pending unrequested stack bare source inside (attached stages))
  | ready waiting bare source value stages =>
    simp only [Future.result, waiting]
    refine set_formed bare source (attached ?_) value
    rw [stages]
    exact soundStages_nil

theorem start_sound {e : Expr} (formed : Ends (start e) Formed) : Ends (body (.start e)) Sound :=
  formed.mono fun _ => Formed.sound

theorem callAll_sound {es : List Expr} (formed : ∀ e ∈ es, Ends (start e) Formed) :
    Ends (Code.callAll (es.map .start)) fun futures => ∀ future ∈ futures, Sound future := by
  refine ends_callAll fun op member => ?_
  obtain ⟨e, of_es, rfl⟩ := List.mem_map.mp member
  exact start_sound (formed e of_es)

theorem whenAll_formed {es : List Expr} (formed : ∀ e ∈ es, Ends (start e) Formed) :
    Ends (start (.whenAll es)) Formed := by
  refine (callAll_sound formed).bind fun futures all => ?_
  dsimp only
  split
  · exact ends_pure (.ready rfl (.inl rfl) .none (datum_sound _) rfl)
  · split
    · rename_i complete
      exact set_formed (.inr rfl) (.whenAll all (List.countP_eq_length.mp complete))
        soundStages_nil (datum_sound _)
    · rename_i incomplete
      have bound := List.countP_le_length (p := (·.isReady)) (l := futures)
      exact ends_pure (.source rfl rfl rfl (.whenAll all rfl (Nat.lt_of_le_of_ne bound incomplete))
        soundStages_nil)

theorem whenAny_formed {es : List Expr} {autoCancel : Bool}
    (formed : ∀ e ∈ es, Ends (start e) Formed) :
    Ends (start (.whenAny es autoCancel)) Formed := by
  refine (callAll_sound formed).bind fun futures all => ?_
  dsimp only
  split
  · exact ends_pure (.ready rfl (.inl rfl) .none (datum_sound _) rfl)
  · rename_i some
    split
    · exact (callback_whenAny rfl all (.inr rfl) soundStages_nil).mono
        fun after => Settled.formed
    · rename_i none
      rw [List.findIdx?_eq_none_iff] at none
      exact ends_pure (.source rfl rfl rfl (.whenAny all none (by simpa using some))
        soundStages_nil)

mutual

/-- **Whatever is built** has its cancelers in order. -/
theorem start_formed : (e : Expr) → Ends (start e) Formed
  | .ready d => ends_pure (.ready rfl (.inl rfl) .none (datum_sound d) rfl)
  | .async f => ends_pure (.source rfl rfl rfl (.async (ret_sound f)) soundStages_nil)
  | .asyncWait => ends_pure (.source rfl rfl rfl .asyncWait soundStages_nil)
  | .asyncResumable _ _ _ =>
    ends_pure (.source rfl rfl rfl .unstarted soundStages_nil)
  | .then e f => (ends_call (start_formed e)).bind fun _ formed =>
      attach_formed formed fun d => ret_sound (f d)
  | .andThen e f => (ends_call (start_formed e)).bind fun _ formed =>
      attach_formed formed fun d => ret_sound (f d)
  | .unwrap e => (ends_call (start_formed e)).bind fun _ formed =>
      attach_formed formed fun _ => .arg
  | .whenAll es => whenAll_formed (starts_formed es)
  | .whenAny es _ => whenAny_formed (starts_formed es)

theorem ret_sound : (r : Ret) → SoundRet r
  | .value v => .value
  | .throws e => .throws
  | .arg => .arg
  | .future e => by
    rcases start_formed e with ⟨fut, returns, formed⟩ | ⟨-, stops⟩
    · exact .future returns formed.sound
    · exact .stops stops

theorem starts_formed : (es : List Expr) → ∀ e ∈ es, Ends (start e) Formed
  | [] => fun _ member => absurd member List.not_mem_nil
  | e :: es => List.forall_mem_cons.mpr ⟨start_formed e, starts_formed es⟩

end

/-! ## Events -/

/-- Some `scope_canceler` has popped a callback that it had not pushed. -/
inductive Broken : Future → Prop
  | here {fut : Future} (broken : fut.token.broken = true) : Broken fut
  | inner {fut inner : Future} (waiting : fut.waiting = .inner inner) (broken : Broken inner) :
      Broken fut
  | value {fut inner : Future} (waiting : fut.waiting = .ready (.future inner))
      (broken : Broken inner) : Broken fut
  | awaited {fut awaited : Future} {body results}
      (source : fut.source = .awaiting awaited body results) (broken : Broken awaited) : Broken fut
  | future {fut future : Future} (member : future ∈ fut.source.futures) (broken : Broken future) :
      Broken fut

/-- The cancelers are kept in order, or one of them is lost for a future that is not ready yet. -/
inductive Kept (fut after : Future) : Prop
  | formed (formed : Formed after) (ready : fut.isReady = true → after.isReady = true)
  | broken (broken : Broken after) (ready : after.isReady = fut.isReady)

abbrev Always {α : Type} (code : FutureCode α) (post : α → Prop) : Prop :=
  Recursion.Always body code post

theorem not_ready_of_source (waiting : fut.waiting = .source) : fut.isReady = false := by
  rw [Future.isReady, Future.result, waiting]
  rfl

theorem not_ready_of_inner {inner : Future} (waiting : fut.waiting = .inner inner) :
    fut.isReady = false := by
  rw [Future.isReady, Future.result, waiting]
  rfl

theorem kept_of_pending {after : Future} (pending : fut.isReady = false) (formed : Formed after) :
    Kept fut after := by
  refine .formed formed fun ready => ?_
  rw [pending] at ready
  cases ready

theorem Pending.not_spent {source : Source} (pending : Pending source) : ¬ Spent source := by
  intro spent
  cases pending with
  | async | asyncWait | unstarted | awaiting => cases spent
  | whenAll _ counted incomplete =>
    cases spent with
    | whenAll _ complete =>
      rw [counted, List.countP_eq_length.mpr complete] at incomplete
      exact Nat.lt_irrefl _ incomplete
  | whenAny => cases spent

/-- The state of a coroutine is destroyed in order when nothing is left to wait for. -/
theorem destroy_kept (formed : Formed fut) (spent : Spent fut.source) :
    Ends (fut.destroy inCatch) (Kept fut) := by
  cases formed with
  | source _ _ _ pending =>
    exact absurd spent pending.not_spent
  | inner waiting _ unrequested stack =>
    have pending := not_ready_of_inner waiting
    rw [Future.destroy, Future.pop]
    simp only [Future.setStack, unrequested, Bool.false_and, Bool.false_eq_true, if_false]
    refine ends_pure (.broken (.here ?_) (not_ready_of_inner waiting |>.trans pending.symm))
    simp [stack]
  | ready waiting bare source value stages =>
    have ready := Future.isReady_iff.mpr ⟨_, waiting⟩
    exact (destroy_settled (.ready waiting bare source value stages) ready).mono
      fun after settled => .formed settled.formed fun _ => settled.ready rfl

theorem finish_kept {caught : Bool} (pending : fut.isReady = false) (bare : fut.token.Bare)
    (stages : SoundStages fut.stages) (value : v.Sound) :
    Ends (fut.finish inCatch caught v) (Kept fut) := by
  have ends : Ends (Future.set { fut with source := .ended } (inCatch || caught) v)
      (Settled fut.token.isCancelRequested) := set_settled bare .ended stages value
  refine (ends_call ends).bind fun after settled => ?_
  split
  · exact ends_pure (kept_of_pending pending settled.formed)
  · cases ready : after.isReady with
    | true =>
      exact (destroy_settled settled.formed ready).mono fun last settled =>
        kept_of_pending pending settled.formed
    | false =>
      refine (destroy_kept settled.formed settled.spent).mono fun last kept => ?_
      cases kept with
      | formed formed => exact kept_of_pending pending formed
      | broken broken still => exact .broken broken (by rw [still, ready, pending])

/-- **A coroutine that is resumed** keeps the cancelers in order until it ends or waits again. -/
theorem run_kept {rest : Body} {results : List Datum} (waiting : fut.waiting = .source)
    (unrequested : fut.token.isCancelRequested = false) (stack : fut.token.doCancels = [.source])
    (stages : SoundStages fut.stages) :
    Always (fut.run rest results) (Kept fut) := by
  have pending := not_ready_of_source waiting
  let spec (op : Op) (after : Future) : Prop :=
    ∀ results, op = .run rest results fut → Kept fut after
  let assumed (op : Op) (after : Future) : Prop := Returns body (body op) after ∧ spec op after
  have step (op : Op) : Assuming assumed (body op) (spec op) := by
    by_cases runs : ∃ results, op = .run rest results fut
    · obtain ⟨results, rfl⟩ := runs
      have meets {after : Future} (kept : Kept fut after) :
          spec (.run rest results fut) after := fun _ _ => kept
      show Assuming assumed (fut.run rest results) _
      unfold Future.run
      cases rest results with
      | «return» r =>
        have ends : Ends (apply r (.datum (.value 0)) >>= fun v => fut.finish false v.isException v)
            (spec (.run rest results fut)) :=
          (apply_sound (ret_sound r) (datum_sound (.value 0))).bind fun v value =>
            (finish_kept pending (.inr stack) stages value).mono fun _ => meets
        exact ends.always.assuming
      | await e =>
        have started : Assuming assumed (call (.start e)) Sound := fun awaited called =>
          (start_sound (start_formed e)).always awaited called.1
        refine assuming_bind started fun awaited sound => ?_
        split
        · exact fun after called => meets (called.2 _ rfl)
        · exact meets (kept_of_pending pending
            (.source waiting unrequested stack (.awaiting sound) stages))
    · have any (after : Future) : spec op after :=
        fun results eq => absurd ⟨results, eq⟩ runs
      exact Always.assuming fun after _ => any after
  exact fun after returns => always_recursive step (.run rest results fut) after returns results rfl

theorem fire_kept (formed : Formed fut) : Always fut.fire (Kept fut) := by
  cases formed with
  | source waiting unrequested stack source stages =>
    have pending := not_ready_of_source waiting
    have tail : fut.token.doCancels.tail = [] := by rw [stack, List.tail_cons]
    have fired {r : Ret} (ret : SoundRet r) : Ends (do
        let fut ← Future.pop { fut with source := .none } false
        let v ← apply r (.datum (.value 0))
        call (.set v.isException v fut)) (Kept fut) := by
      refine Ends.bind (pop_spent ?_ (.inl rfl) .none) ?_
      · exact tail
      rintro _ ⟨source, spent, rfl⟩
      refine (apply_sound ret (datum_sound _)).bind fun v value => ?_
      refine Ends.mono (set_formed ?_ ?_ ?_ value) fun _ => kept_of_pending pending
      · exact .inl rfl
      · exact spent
      · exact stages
    unfold Future.fire
    cases at_source : fut.source with
    | async f => exact (fired (ret_sound _)).always
    | asyncWait => exact (fired (.value (v := 0))).always
    | unstarted body =>
      exact always_call (run_kept waiting unrequested stack stages)
    | awaiting awaited body results =>
      dsimp only
      split
      · exact always_call (run_kept waiting unrequested stack stages)
      · exact always_fail
    | none | ended | destroyed | whenAll | whenAny => exact always_fail
  | inner _ _ _ _ _ spent | ready _ _ spent =>
    unfold Future.fire
    cases source : fut.source with
    | none | ended | destroyed | whenAll | whenAny => exact always_fail
    | async | asyncWait | unstarted | awaiting =>
      rw [source] at spent
      cases spent

theorem Formed.setSource {source : Source} (formed : Formed fut)
    (pending : Pending fut.source → Pending source) (spent : Spent fut.source → Spent source) :
    Formed { fut with source } := by
  cases formed with
  | source waiting unrequested stack before stages =>
    exact .source waiting unrequested stack (pending before) stages
  | inner waiting unready unrequested stack bare before inside stages =>
    exact .inner waiting unready unrequested stack bare (spent before) inside stages
  | ready waiting bare before value stages =>
    exact .ready waiting bare (spent before) value stages

theorem Formed.setHeld {held : Bool} (formed : Formed fut) : Formed { fut with held } := by
  cases formed with
  | source waiting unrequested stack before stages =>
    exact .source waiting unrequested stack before stages
  | inner waiting unready unrequested stack bare before inside stages =>
    exact .inner waiting unready unrequested stack bare before inside stages
  | ready waiting bare before value stages => exact .ready waiting bare before value stages

theorem drop_kept (formed : Formed fut) : Always (fut.drop inCatch) (Kept fut) := by
  unfold Future.drop
  dsimp only
  split
  · rename_i ended
    have spent : Spent ({ fut with held := false } : Future).source := ended ▸ .ended
    refine ((destroy_kept formed.setHeld spent).mono fun after kept => ?_).always
    cases kept with
    | formed formed ready => exact .formed formed ready
    | broken broken ready => exact .broken broken ready
  · exact always_pure (.formed formed.setHeld id)
  · exact always_fail

/-! A future of `when_all` or `when_any` changes. -/

section

variable {future after : Future} {j : ℕ}

theorem countP_set_same {futures : List Future} (at_j : futures[j]? = some future)
    (same : after.isReady = future.isReady) :
    (futures.set j after).countP (·.isReady) = futures.countP (·.isReady) := by
  obtain ⟨bound, rfl⟩ := List.getElem?_eq_some_iff.mp at_j
  rw [List.countP_set bound, same]
  split
  · rename_i ready
    have counted := List.countP_pos_iff (p := (·.isReady)).mpr ⟨_, List.getElem_mem bound, ready⟩
    omega
  · omega

theorem Pending.setFuture {source : Source} (pending : Pending source)
    (at_j : source.futures[j]? = some future) (sound : Sound after)
    (same : after.isReady = future.isReady) :
    Pending (source.setFutures (source.futures.set j after)) := by
  cases pending with
  | async | asyncWait | unstarted | awaiting => cases at_j
  | whenAll all counted incomplete =>
    refine .whenAll (sound_set all sound) (counted.trans (countP_set_same at_j same).symm) ?_
    rwa [Source.futures, List.length_set]
  | whenAny all none some =>
    refine .whenAny (sound_set all sound) (fun other member => ?_) ?_
    · refine (List.mem_or_eq_of_mem_set member).elim (none other) ?_
      rintro rfl
      rw [same, none future (List.mem_of_getElem? at_j)]
    · simpa [Source.futures] using some

theorem Spent.setFuture {source : Source} (spent : Spent source)
    (at_j : source.futures[j]? = some future) (sound : Sound after)
    (ready : future.isReady = true → after.isReady = true) :
    Spent (source.setFutures (source.futures.set j after)) := by
  cases spent with
  | none | ended | destroyed => cases at_j
  | whenAll all complete =>
    refine .whenAll (sound_set all sound) fun other member => ?_
    refine (List.mem_or_eq_of_mem_set member).elim (complete other) ?_
    rintro rfl
    exact ready (complete future (List.mem_of_getElem? at_j))
  | whenAny all => exact .whenAny (sound_set all sound)

theorem mem_setFutures {source : Source} (at_j : source.futures[j]? = some future) :
    after ∈ (source.setFutures (source.futures.set j after)).futures := by
  have bound := (List.getElem?_eq_some_iff.mp at_j).1
  cases source with
  | whenAll | whenAny => exact List.mem_set bound after
  | none | async | asyncWait | unstarted | awaiting | ended | destroyed => cases at_j

theorem Pending.futures {source : Source} (pending : Pending source) :
    ∀ future ∈ source.futures, Sound future := by
  cases pending with
  | async | asyncWait | unstarted | awaiting => simp [Source.futures]
  | whenAll all | whenAny all => exact all

theorem Formed.futures (formed : Formed fut) : ∀ future ∈ fut.source.futures, Sound future := by
  cases formed with
  | source _ _ _ pending => exact pending.futures
  | inner _ _ _ _ _ spent | ready _ _ spent => exact spent.futures

/-- It is not ready yet, or it was ready before. -/
theorem setFuture_kept (formed : Formed fut) (at_j : fut.source.futures[j]? = some future)
    (kept : Kept future after) (same : after.isReady = future.isReady) :
    Kept fut { fut with source := fut.source.setFutures (fut.source.futures.set j after) } := by
  cases kept with
  | formed formed' _ =>
    refine .formed (formed.setSource ?_ ?_) id
    · exact fun pending => pending.setFuture at_j formed'.sound same
    · exact fun spent => spent.setFuture at_j formed'.sound fun ready => same.trans ready
  | broken broken _ => exact .broken (.future (mem_setFutures at_j) broken) rfl

/-- It gets ready. -/
theorem change_kept (formed : Formed fut) (at_j : fut.source.futures[j]? = some future)
    (pending : future.isReady = false) (sound : Sound after) (ready : after.isReady = true) :
    Ends (fut.change j after) (Kept fut) := by
  have changed {source : Source} := @Formed.setSource fut source formed
  cases formed with
  | source waiting unrequested stack unset stages =>
    have not_ready := not_ready_of_source waiting
    cases source : fut.source with
    | whenAll futures count =>
      rw [source] at unset at_j
      cases unset with
      | whenAll all counted incomplete =>
        refine (change_whenAll source at_j pending all counted sound ready (.inr stack)
          stages).mono ?_
        rintro _ (settled | ⟨more, rfl⟩)
        · exact kept_of_pending not_ready settled.formed
        · refine kept_of_pending not_ready (.source waiting unrequested stack ?_ stages)
          refine .whenAll (sound_set all sound) ?_ ?_
          · rw [counted]
            exact (countP_set_ready at_j pending ready).symm
          · rwa [List.length_set]
    | whenAny futures autoCancel triggered =>
      rw [source] at unset
      cases unset with
      | whenAny all none some =>
        exact (change_whenAny source all sound ready (.inr stack) stages).mono
          fun _ settled => kept_of_pending not_ready settled.formed
    | none | async | asyncWait | unstarted | awaiting | ended | destroyed =>
      rw [source] at at_j
      cases at_j
  | inner _ _ _ _ _ spent | ready _ _ spent =>
    obtain ⟨source, spent', eq⟩ := change_spent spent at_j (by simp [pending]) sound ready
    rw [eq]
    refine ends_pure (.formed (changed (fun unset => ?_) fun _ => spent') id)
    exact absurd spent unset.not_spent

end

section

variable {path : List Selector} {event : Event}
  (ih : ∀ {fut : Future}, Sound fut → Always (fut.event path event) (Kept fut))

include ih

theorem inner_kept (formed : Formed fut) :
    Always (fut.event (.inner :: path) event) (Kept fut) := by
  simp only [Future.event]
  cases formed with
  | source waiting | ready waiting =>
    simp only [waiting]
    exact always_fail
  | inner waiting unready unrequested stack bare spent inside stages =>
    have pending := not_ready_of_inner waiting
    simp only [waiting]
    refine (always_call (ih inside)).bind fun after kept => ?_
    cases kept with
    | formed formed _ =>
      have settled : Ends (Future.unwrapInner { fut with waiting := .inner after } after.inCatch)
          (Settled fut.token.isCancelRequested) := by
        refine unwrapInner_settled rfl stack bare spent stages formed.sound ?_ ?_
        · rw [unrequested]
          intro requested
          cases requested
        · intro fut' v left bare' requested spent' value
          exact requested ▸ set_settled bare' spent' (left ▸ stages) value
      exact (settled.mono fun _ settled => kept_of_pending pending settled.formed).always
    | broken broken still =>
      rw [unready, ← result_eq_none] at still
      simp only [Future.unwrapInner, still]
      exact always_pure (.broken (.inner rfl broken) (pending ▸ not_ready_of_inner rfl))

theorem value_kept (formed : Formed fut) :
    Always (fut.event (.value :: path) event) (Kept fut) := by
  simp only [Future.event]
  cases formed with
  | source waiting | inner waiting =>
    simp only [waiting]
    exact always_fail
  | ready waiting bare spent value stages =>
    have ready := Future.isReady_iff.mpr ⟨_, waiting⟩
    rw [waiting]
    split
    · rename_i inner eq
      cases eq
      refine (always_call (ih (value inner rfl))).bind fun after kept => always_pure ?_
      cases kept with
      | formed formed _ =>
        refine .formed (.ready rfl bare spent ?_ stages) fun _ => rfl
        rintro _ ⟨⟩
        exact formed.sound
      | broken broken _ => exact .broken (.value rfl broken) ready.symm
    · exact always_fail

theorem awaited_kept (formed : Formed fut) :
    Always (fut.event (.awaited :: path) event) (Kept fut) := by
  simp only [Future.event]
  split
  · rename_i awaited body results source
    cases formed with
    | source waiting unrequested stack pending stages =>
      rw [source] at pending
      cases pending with
      | awaiting awaits =>
        refine (always_call (ih awaits)).bind fun after kept => always_pure ?_
        cases kept with
        | formed formed _ =>
          exact .formed (.source waiting unrequested stack (.awaiting formed.sound) stages) id
        | broken broken _ => exact .broken (.awaited rfl broken) rfl
    | inner _ _ _ _ _ spent | ready _ _ spent =>
      rw [source] at spent
      cases spent
  · exact always_fail

theorem future_kept {j : ℕ} (formed : Formed fut) :
    Always (fut.event (.future j :: path) event) (Kept fut) := by
  simp only [Future.event]
  split
  · rename_i future at_j
    have sound := formed.futures future (List.mem_of_getElem? at_j)
    refine (always_call (ih sound)).bind fun after kept => ?_
    cases before : future.isReady with
    | true =>
      have ready : after.isReady = true := by
        cases kept with
        | formed _ still => exact still before
        | broken _ same => exact same.trans before
      exact always_pure (setFuture_kept formed at_j kept (ready.trans before.symm))
    | false =>
      simp only [Bool.false_eq_true, if_false]
      cases ready : after.isReady with
      | true =>
        cases kept with
        | formed formed' _ =>
          exact (change_kept formed at_j before formed'.sound ready).always
        | broken _ same => cases (ready.symm.trans same).trans before
      | false =>
        simp only [Future.change, ready, Bool.false_eq_true, if_false]
        exact always_pure (setFuture_kept formed at_j kept (ready.trans before.symm))
  · exact always_fail

end

/-- **What the executor or the user does** keeps the cancelers in order, or loses one. -/
theorem event_kept {path : List Selector} {event : Event} (sound : Sound fut) :
    Always (fut.event path event) (Kept fut) := by
  induction path generalizing fut with
  | nil =>
    cases event with
    | fire => exact fire_kept sound.formed
    | drop => exact drop_kept sound.formed
    | requestCancel inCatch =>
      exact ((sound.requestCancel inCatch).mono fun _ after =>
        .formed after.2.formed fun _ => after.1).always
  | cons selector path ih =>
    cases selector with
    | inner => exact inner_kept ih sound.formed
    | value => exact value_kept ih sound.formed
    | awaited => exact awaited_kept ih sound.formed
    | future => exact future_kept ih sound.formed

/-! ## Runs -/

/-- The states of the future of an expression as long as they meet a condition. -/
inductive Run (condition : Future → Prop) (e : Expr) : Future → Prop
  | start {fut : Future} (returns : Returns body (start e) fut) : Run condition e fut
  | event {fut after : Future} {path : List Selector} {event : Event} (run : Run condition e fut)
      (returns : Returns body (fut.event path event) after) (holds : condition after) :
      Run condition e after

def Waiting.callback : Waiting → Option Callback
  | .source => some .source
  | .inner _ => some .inner
  | .ready _ => none

theorem Run.sound {e : Expr} (run : Run (¬ Broken ·) e fut) : Sound fut := by
  induction run with
  | start returns => exact ((start_formed e).always _ returns).sound
  | event _ returns intact sound =>
    cases event_kept sound _ returns with
    | formed formed _ => exact formed.sound
    | broken broken _ => exact absurd broken intact

/-- A coroutine, then a function that waits, unwrapped. -/
def waitAfterCoroutine (kept : Bool) : Expr :=
  .unwrap (.then (.asyncResumable (fun _ => .return (.value 1)) kept true) fun _ =>
    .future .asyncWait)

def unstarted (kept : Bool) : Future :=
  { waitFor (.unstarted fun _ => .return (.value 1)) with
    held := kept
    stages := [.then fun _ => .future .asyncWait, .unwrap] }

/-- The handle keeps the state of the coroutine. -/
def firedKept : Future :=
  { token := { doCancels := [.inner, .source] }, source := .ended,
    waiting := .inner (waitFor .asyncWait) }

theorem start_waitAfterCoroutine (kept : Bool) :
    Returns body (start (waitAfterCoroutine kept)) (unstarted kept) :=
  returns_of_exec 4 (Op.start (waitAfterCoroutine kept)) rfl

theorem fire_kept_handle : Returns body ((unstarted true).event [] .fire) firedKept :=
  returns_of_exec 6 (Op.event [] .fire (unstarted true)) rfl

end Tconcurrent.SynchronousCancel
