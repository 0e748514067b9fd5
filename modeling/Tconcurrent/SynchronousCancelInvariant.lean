import Tconcurrent.SynchronousCancel
import Mathlib.Data.List.Count

/-! What holds of a future whose token has its cancelers in order: the callback on top is that of
what the future waits for.  Canceling it makes it ready, unless that terminates the program. -/
namespace Tconcurrent.SynchronousCancel
open Recursion

abbrev Ends {α : Type} (code : FutureCode α) (post : α → Prop) : Prop :=
  Recursion.Ends True body code post

/-- What a continuation calls.  `unwrap` calls nothing, and goes on with what it was given. -/
def Stage.function : Stage → Datum → Ret
  | .then f | .andThen f => f
  | .unwrap => fun _ => .arg

/-- Only what the future waits for at first can have left its callback. -/
def Token.Bare (token : Token) : Prop :=
  token.doCancels = [] ∨ token.doCancels = [.source]

mutual

/-- A future that has a sound shape, and that `request_cancel` makes ready. -/
inductive Sound : Future → Prop
  | ready {fut} (formed : Formed fut) (ready : fut.isReady = true) : Sound fut
  | pending {fut} {outcome : Bool → Option Future} (formed : Formed fut)
      (comes : ∀ inCatch, ComesTo body (fut.requestCancel inCatch) (outcome inCatch))
      (ready : ∀ inCatch fut', outcome inCatch = some fut' → fut'.isReady = true)
      (after : ∀ inCatch fut', outcome inCatch = some fut' → Sound fut') : Sound fut

inductive Formed : Future → Prop
  | source {fut} (waiting : fut.waiting = .source)
      (unrequested : fut.token.isCancelRequested = false)
      (stack : fut.token.doCancels = [.source]) (source : Pending fut.source)
      (stages : ∀ stage ∈ fut.stages, ∀ d, SoundRet (stage.function d)) : Formed fut
  | inner {fut inner rest} (waiting : fut.waiting = .inner inner) (pending : inner.isReady = false)
      (unrequested : fut.token.isCancelRequested = false)
      (stack : fut.token.doCancels = .inner :: rest) (bare : rest = [] ∨ rest = [.source])
      (source : Spent fut.source) (inside : Sound inner)
      (stages : ∀ stage ∈ fut.stages, ∀ d, SoundRet (stage.function d)) : Formed fut
  | ready {fut v} (waiting : fut.waiting = .ready v) (bare : fut.token.Bare)
      (source : Spent fut.source) (value : ∀ inner, v = .future inner → Sound inner)
      (stages : fut.stages = []) : Formed fut

/-- What can still set the future. -/
inductive Pending : Source → Prop
  | async {f} (function : SoundRet f) : Pending (.async f)
  | asyncWait : Pending .asyncWait
  | unstarted {body} : Pending (.unstarted body)
  | awaiting {awaited body results} (awaits : Sound awaited) :
      Pending (.awaiting awaited body results)
  | whenAll {futures count} (all : ∀ future ∈ futures, Sound future)
      (counted : count = futures.countP (·.isReady)) (incomplete : count < futures.length) :
      Pending (.whenAll futures count)
  | whenAny {futures autoCancel} (all : ∀ future ∈ futures, Sound future)
      (none : ∀ future ∈ futures, future.isReady = false) (some : futures ≠ []) :
      Pending (.whenAny futures autoCancel false)

/-- What has set the future. -/
inductive Spent : Source → Prop
  | none : Spent .none
  | ended : Spent .ended
  | destroyed : Spent .destroyed
  | whenAll {futures count} (all : ∀ future ∈ futures, Sound future)
      (complete : ∀ future ∈ futures, future.isReady = true) : Spent (.whenAll futures count)
  | whenAny {futures autoCancel} (all : ∀ future ∈ futures, Sound future) :
      Spent (.whenAny futures autoCancel true)

inductive SoundRet : Ret → Prop
  | value {v} : SoundRet (.value v)
  | throws {e} : SoundRet (.throws e)
  | arg : SoundRet .arg
  | future {e fut} (returns : Returns body (start e) fut) (future : Sound fut) :
      SoundRet (.future e)
  | stops {e} (stops : Stops body (start e)) : SoundRet (.future e)

end

variable {fut : Future} {v : Value} {inCatch : Bool}

def Value.Sound (v : Value) : Prop := ∀ inner, v = .future inner → SynchronousCancel.Sound inner

def SoundStages (stages : List Stage) : Prop :=
  ∀ stage ∈ stages, ∀ d, SoundRet (stage.function d)

theorem soundStages_nil : SoundStages [] :=
  fun _ member => absurd member List.not_mem_nil

theorem datum_sound (d : Datum) : (Value.datum d).Sound := by
  rintro inner ⟨⟩

theorem Future.isReady_iff : fut.isReady = true ↔ ∃ v, fut.waiting = .ready v := by
  rw [Future.isReady, Option.isSome_iff_exists]
  refine exists_congr fun v => ?_
  unfold Future.result
  split <;> simp_all

theorem result_eq_some : fut.result = some v ↔ fut.waiting = .ready v := by
  unfold Future.result
  split <;> simp_all

theorem result_eq_none : fut.result = none ↔ fut.isReady = false := by
  rw [Future.isReady, Option.isSome_eq_false_iff, Option.isNone_iff_eq_none]

namespace Sound

theorem formed (sound : Sound fut) : Formed fut := by
  cases sound with
  | ready formed _ | pending formed => exact formed

theorem value (sound : Sound fut) (waiting : fut.waiting = .ready v) : v.Sound := by
  cases sound.formed with
  | source waiting' | inner waiting' => cases waiting.symm.trans waiting'
  | ready waiting' _ _ value =>
    cases waiting.symm.trans waiting'
    exact value

theorem requestCancel (sound : Sound fut) (inCatch : Bool) :
    Ends (fut.requestCancel inCatch) fun after => after.isReady = true ∧ Sound after := by
  cases sound with
  | ready formed ready =>
    rw [Future.requestCancel, if_pos ready]
    exact ends_pure ⟨ready, .ready formed ready⟩
  | @pending _ outcome _ comes ready after =>
    have comes := comes inCatch
    cases canceled : outcome inCatch with
    | some after' =>
      rw [canceled] at comes
      exact .inl ⟨after', comes, ready inCatch after' canceled, after inCatch after' canceled⟩
    | none =>
      rw [canceled] at comes
      exact .inr ⟨trivial, comes⟩

end Sound

theorem apply_sound {r : Ret} (ret : SoundRet r) (value : v.Sound) :
    Ends (apply r v) Value.Sound := by
  cases ret with
  | value | throws => exact ends_pure (datum_sound _)
  | arg => exact ends_pure value
  | future returns sound =>
    refine (ends_call (.inl ⟨_, returns, sound⟩)).bind fun fut sound => ends_pure ?_
    rintro inner ⟨⟩
    exact sound
  | stops stops => exact .inr ⟨trivial, stops_bind.mpr (.inl (stops_call stops))⟩

/-! ## Cancelers of what has been set already -/

theorem Spent.futures {source : Source} (spent : Spent source) :
    ∀ future ∈ source.futures, Sound future := by
  cases spent with
  | none | ended | destroyed => simp [Source.futures]
  | whenAll all | whenAny all => exact all

theorem sound_set {futures : List Future} {future : Future} {j : ℕ}
    (all : ∀ future ∈ futures, Sound future) (sound : Sound future) :
    ∀ other ∈ futures.set j future, Sound other :=
  fun other member => (List.mem_or_eq_of_mem_set member).elim (all other)
    fun same => same ▸ sound

/-- `when_any` has been triggered already. -/
theorem change_spent {future after : Future} {j : ℕ} (spent : Spent fut.source)
    (at_j : fut.source.futures[j]? = some future) (pending : ¬ future.isReady = true)
    (sound : Sound after) (ready : after.isReady = true) :
    ∃ source, Spent source ∧ fut.change j after = pure { fut with source } := by
  rw [Future.change, if_pos ready, Future.callback]
  cases source : fut.source with
  | whenAll futures count =>
    rw [source] at spent at_j
    cases spent with
    | whenAll all complete => exact absurd (complete future (List.mem_of_getElem? at_j)) pending
  | whenAny futures autoCancel triggered =>
    rw [source] at spent
    cases spent with
    | whenAny all => exact ⟨_, .whenAny (sound_set all sound), rfl⟩
  | none | async | asyncWait | unstarted | awaiting | ended | destroyed =>
    rw [source] at at_j
    cases at_j

/-- Nothing is changed but the futures that `when_any` has left. -/
def Respent (fut after : Future) : Prop :=
  ∃ source, Spent source ∧ after = { fut with source }

theorem respent_self (spent : Spent fut.source) : Respent fut fut := by
  refine ⟨fut.source, spent, ?_⟩
  cases fut
  rfl

theorem cancelFutures_spent {js : List ℕ} (spent : Spent fut.source) :
    Ends (fut.cancelFutures inCatch js) (Respent fut) := by
  induction js generalizing fut with
  | nil => exact ends_pure (respent_self spent)
  | cons j js ih =>
    rw [Future.cancelFutures]
    split
    · rename_i future at_j
      split
      · exact ends_call (ih spent)
      · rename_i pending
        have canceled := (spent.futures future (List.mem_of_getElem? at_j)).requestCancel inCatch
        refine (ends_call canceled).bind ?_
        rintro after ⟨ready, sound⟩
        obtain ⟨source, spent', changed⟩ := change_spent spent at_j pending sound ready
        rw [changed]
        exact ends_call (ih spent')
    · exact ends_call (ih spent)

theorem cancelSource_spent (spent : Spent fut.source) :
    Ends (fut.cancelSource inCatch) (Respent fut) := by
  unfold Future.cancelSource
  cases source : fut.source with
  | none | ended | destroyed => exact ends_pure (respent_self spent)
  | whenAll | whenAny => exact ends_call (cancelFutures_spent spent)
  | async | asyncWait | unstarted | awaiting =>
    rw [source] at spent
    cases spent

theorem callTop_spent (bare : fut.token.Bare) (spent : Spent fut.source) :
    Ends (fut.callTop inCatch) (Respent fut) := by
  unfold Future.callTop
  rcases bare with empty | left
  · simp only [empty]
    exact ends_pure (respent_self spent)
  · simp only [left]
    exact cancelSource_spent spent

/-- Where a callback is popped, one that is left is called again. -/
theorem pop_spent {rest : List Callback} (tail : fut.token.doCancels.tail = rest)
    (bare : rest = [] ∨ rest = [.source]) (spent : Spent fut.source) :
    Ends (fut.pop inCatch) (Respent (fut.setStack rest)) := by
  rw [Future.pop, tail]
  split
  · exact ends_call (callTop_spent bare spent)
  · exact ends_pure (respent_self spent)

/-! ## Continuations -/

/-- What the continuations make of a future.  Nothing is left to wait for if a cancelation is
requested. -/
structure Settled (requested : Bool) (fut : Future) : Prop where
  formed : Formed fut
  spent : Spent fut.source
  ready : requested = true → fut.isReady = true

theorem unwrapInner_settled {inner : Future} {rest : List Callback}
    (waiting : fut.waiting = .inner inner) (stack : fut.token.doCancels = .inner :: rest)
    (bare : rest = [] ∨ rest = [.source]) (spent : Spent fut.source)
    (stages : SoundStages fut.stages) (inside : Sound inner)
    (canceled : fut.token.isCancelRequested = true → inner.isReady = true)
    (sets : ∀ (after : Future) (v : Value), after.stages = fut.stages → after.token.Bare →
      after.token.isCancelRequested = fut.token.isCancelRequested → Spent after.source →
      v.Sound → Ends (after.set inCatch v) (Settled fut.token.isCancelRequested)) :
    Ends (fut.unwrapInner inCatch) (Settled fut.token.isCancelRequested) := by
  unfold Future.unwrapInner
  simp only [waiting]
  cases result : inner.result with
  | some v =>
    refine (pop_spent (by rw [stack, List.tail_cons]) bare spent).bind ?_
    rintro _ ⟨source, spent', rfl⟩
    exact ends_call (sets _ v rfl bare rfl spent' (inside.value (result_eq_some.mp result)))
  | none =>
    have pending := result_eq_none.mp result
    have unrequested : fut.token.isCancelRequested = false := by
      by_contra requested
      rw [canceled (by simpa using requested)] at pending
      cases pending
    refine ends_pure ⟨?_, spent, fun requested => ?_⟩
    · exact .inner waiting pending unrequested stack bare spent inside stages
    · rw [unrequested] at requested
      cases requested

/-- **Continuations** run until one of them waits for another future. -/
theorem set_settled (bare : fut.token.Bare) (spent : Spent fut.source)
    (stages : SoundStages fut.stages) (value : v.Sound) :
    Ends (fut.set inCatch v) (Settled fut.token.isCancelRequested) := by
  induction left : fut.stages generalizing fut v inCatch with
  | nil =>
    rw [Future.set, left]
    exact ends_pure ⟨.ready rfl bare spent value rfl, spent, fun _ => rfl⟩
  | cons stage rest ih =>
    rw [left] at stages
    have function := stages stage List.mem_cons_self
    have others := fun other mem => stages other (List.mem_cons_of_mem stage mem)
    -- the next continuation waits for what this one sets
    have goesOn {inCatch : Bool} {v' : Value} (value' : v'.Sound) :
        Ends ({ fut with stages := rest }.set inCatch v') (Settled fut.token.isCancelRequested) :=
      ih bare spent others value' rfl
    rw [Future.set, left]
    show Ends (Future.runStage { fut with stages := rest } inCatch v stage) _
    cases stage with
    | «then» f =>
      exact (apply_sound (function v.view) value).bind fun v' value' => ends_call (goesOn value')
    | andThen f =>
      simp only [Future.runStage]
      split
      · exact ends_call (goesOn (datum_sound _))
      · split
        · exact (ends_pure (datum_sound _)).bind fun v' value' => ends_call (goesOn value')
        · exact (apply_sound (function v.view) value).bind fun v' value' =>
            ends_call (goesOn value')
    | unwrap =>
      simp only [Future.runStage]
      split
      · exact ends_call (goesOn (datum_sound _))
      · rename_i inner
        have inside := value inner rfl
        have waits {inner : Future} (inside : Sound inner)
            (canceled : fut.token.isCancelRequested = true → inner.isReady = true) :
            Ends (Future.unwrapInner { fut with
              stages := rest
              token := { fut.token with doCancels := .inner :: fut.token.doCancels }
              waiting := .inner inner } inCatch) (Settled fut.token.isCancelRequested) :=
          unwrapInner_settled rfl rfl bare spent others inside canceled
            fun after v' left' bare' requested spent' value' =>
              requested ▸ ih bare' spent' (left' ▸ others) value' left'
        rw [Future.unwrapOuter]
        split
        · refine (ends_call (inside.requestCancel inCatch)).bind fun inner after => ?_
          exact waits after.2 fun _ => after.1
        · rename_i unrequested
          exact (ends_pure inside).bind fun inner inside =>
            waits inside fun requested => absurd requested unrequested

theorem Settled.respent {after : Future} (settled : Settled true fut)
    (changed : Respent fut after) : Settled true after := by
  obtain ⟨source, spent, rfl⟩ := changed
  have ready := settled.ready rfl
  cases settled.formed with
  | source waiting | inner waiting => simp [Future.isReady, Future.result, waiting] at ready
  | ready waiting bare _ value stages =>
    exact ⟨.ready waiting bare spent value stages, spent, fun _ => ready⟩

/-- The state of a coroutine is destroyed when no continuation is left. -/
theorem destroy_settled (formed : Formed fut) (ready : fut.isReady = true) :
    Ends (fut.destroy inCatch) (Settled true) := by
  cases formed with
  | source waiting | inner waiting => simp [Future.isReady, Future.result, waiting] at ready
  | ready waiting bare _ value stages =>
    have tail : fut.token.doCancels.tail = [] := by
      rcases bare with empty | left
      · rw [empty, List.tail_nil]
      · rw [left, List.tail_cons]
    refine Ends.mono (pop_spent ?_ (.inl rfl) .destroyed) ?_
    · exact tail
    · rintro _ ⟨source, spent, rfl⟩
      exact ⟨.ready waiting (.inl rfl) spent value stages, spent, fun _ => ready⟩

/-- A coroutine that is canceled, or that ends when nothing waits for it. -/
theorem finish_settled {caught : Bool} (requested : fut.token.isCancelRequested = true)
    (bare : fut.token.Bare) (stages : SoundStages fut.stages) (value : v.Sound) :
    Ends (fut.finish inCatch caught v) (Settled true) := by
  have ends : Ends (Future.set { fut with source := .ended } (inCatch || caught) v)
      (Settled true) :=
    requested ▸ set_settled bare .ended stages value
  refine (ends_call ends).bind fun after settled => ?_
  split
  · exact ends_pure settled
  · exact destroy_settled settled.formed (settled.ready rfl)

/-! ## `when_all` and `when_any` -/

theorem callback_whenAll {futures : List Future} {count j : ℕ}
    (source : fut.source = .whenAll futures count) (all : ∀ future ∈ futures, Sound future)
    (counted : count + 1 = futures.countP (·.isReady)) (bare : fut.token.Bare)
    (stages : SoundStages fut.stages) :
    Ends (fut.callback inCatch j) fun after => Settled fut.token.isCancelRequested after ∨
      count + 1 < futures.length ∧ after = { fut with source := .whenAll futures (count + 1) } := by
  simp only [Future.callback, source]
  split
  · rename_i last
    rw [counted, List.countP_eq_length] at last
    refine Ends.mono (ends_call ?_) fun _ => Or.inl
    exact set_settled bare (.whenAll all last) stages (datum_sound _)
  · rename_i more
    have bound := List.countP_le_length (p := (·.isReady)) (l := futures)
    exact ends_pure (.inr ⟨by omega, rfl⟩)

theorem callback_whenAny {futures : List Future} {autoCancel : Bool} {j : ℕ}
    (source : fut.source = .whenAny futures autoCancel false)
    (all : ∀ future ∈ futures, Sound future) (bare : fut.token.Bare)
    (stages : SoundStages fut.stages) :
    Ends (fut.callback inCatch j) (Settled fut.token.isCancelRequested) := by
  simp only [Future.callback, source]
  have spent : Spent (.whenAny futures autoCancel true) := .whenAny all
  cases autoCancel with
  | false => exact ends_call (set_settled bare spent stages (datum_sound _))
  | true =>
    refine (ends_call (cancelFutures_spent spent)).bind ?_
    rintro _ ⟨source', spent', rfl⟩
    exact ends_call (set_settled bare spent' stages (datum_sound _))

theorem countP_set_ready {futures : List Future} {future after : Future} {j : ℕ}
    (at_j : futures[j]? = some future) (pending : future.isReady = false)
    (ready : after.isReady = true) :
    (futures.set j after).countP (·.isReady) = futures.countP (·.isReady) + 1 := by
  obtain ⟨bound, rfl⟩ := List.getElem?_eq_some_iff.mp at_j
  rw [List.countP_set bound, if_pos ready, pending]
  simp

/-- One more of its futures is ready. -/
theorem change_whenAll {futures : List Future} {future after : Future} {count j : ℕ}
    (source : fut.source = .whenAll futures count) (at_j : futures[j]? = some future)
    (pending : future.isReady = false) (all : ∀ future ∈ futures, Sound future)
    (counted : count = futures.countP (·.isReady)) (sound : Sound after)
    (ready : after.isReady = true) (bare : fut.token.Bare)
    (stages : SoundStages fut.stages) :
    Ends (fut.change j after) fun fut' => Settled fut.token.isCancelRequested fut' ∨
      count + 1 < futures.length ∧
        fut' = { fut with source := .whenAll (futures.set j after) (count + 1) } := by
  simp only [Future.change, source, Source.futures, Source.setFutures, ready, if_true]
  rw [← List.length_set (i := j) (a := after)]
  refine callback_whenAll rfl (sound_set all sound) ?_ bare stages
  rw [countP_set_ready at_j pending ready, counted]

theorem change_whenAny {futures : List Future} {after : Future} {autoCancel : Bool} {j : ℕ}
    (source : fut.source = .whenAny futures autoCancel false)
    (all : ∀ future ∈ futures, Sound future) (sound : Sound after)
    (ready : after.isReady = true) (bare : fut.token.Bare)
    (stages : SoundStages fut.stages) :
    Ends (fut.change j after) (Settled fut.token.isCancelRequested) := by
  simp only [Future.change, source, Source.futures, Source.setFutures, ready, if_true]
  exact callback_whenAny rfl (sound_set all sound) bare stages

/-- The rest of the cancelers is called even though the future is ready. -/
theorem cancelFutures_settled {js : List ℕ} (settled : Settled true fut) :
    Ends (fut.cancelFutures inCatch js) (Settled true) :=
  (cancelFutures_spent settled.spent).mono fun _ => settled.respent

/-- The futures that are not ready are still to be canceled. -/
def Left (futures : List Future) (js : List ℕ) : Prop :=
  ∀ j future, futures[j]? = some future → future.isReady = false → j ∈ js

namespace Left

variable {futures : List Future} {j : ℕ} {js : List ℕ}

theorem tail (left : Left futures (j :: js))
    (ready : ∀ future, futures[j]? = some future → future.isReady = true) : Left futures js := by
  intro i future at_i pending
  refine (List.mem_cons.mp (left i future at_i pending)).resolve_left ?_
  rintro rfl
  rw [ready future at_i] at pending
  cases pending

theorem set {after : Future} (left : Left futures js) (ready : after.isReady = true) :
    Left (futures.set j after) js := by
  intro i future at_i pending
  rw [List.getElem?_set] at at_i
  split at at_i
  · split at at_i
    · cases at_i
      rw [ready] at pending
      cases pending
    · cases at_i
  · exact left i future at_i pending

end Left

/-- The last of the pending futures of `when_all` that is canceled makes it ready. -/
theorem cancelFutures_whenAll {futures : List Future} {count : ℕ} {js : List ℕ}
    (requested : fut.token.isCancelRequested = true)
    (source : fut.source = .whenAll futures count) (all : ∀ future ∈ futures, Sound future)
    (counted : count = futures.countP (·.isReady)) (incomplete : count < futures.length)
    (left : Left futures js) (bare : fut.token.Bare)
    (stages : SoundStages fut.stages) :
    Ends (fut.cancelFutures inCatch js) (Settled true) := by
  induction js generalizing fut futures count with
  | nil =>
    have complete : futures.countP (·.isReady) = futures.length := by
      rw [List.countP_eq_length]
      intro future member
      obtain ⟨j, at_j⟩ := List.mem_iff_getElem?.mp member
      by_contra pending
      cases left j future at_j (by simpa using pending)
    omega
  | cons j js ih =>
    rw [Future.cancelFutures, source]
    simp only [Source.futures]
    cases at_j : futures[j]? with
    | none =>
      refine ends_call (ih requested source all counted incomplete (left.tail ?_) bare stages)
      intro future at_j'
      cases at_j.symm.trans at_j'
    | some future =>
      simp only
      split
      · rename_i ready
        refine ends_call (ih requested source all counted incomplete (left.tail ?_) bare stages)
        intro other at_j'
        cases at_j.symm.trans at_j'
        exact ready
      · rename_i pending
        have pending : future.isReady = false := by simpa using pending
        have sound := all future (List.mem_of_getElem? at_j)
        refine (ends_call (sound.requestCancel inCatch)).bind ?_
        rintro after ⟨ready, sound'⟩
        refine (change_whenAll source at_j pending all counted sound' ready bare stages).bind ?_
        rintro _ (settled | ⟨more, rfl⟩)
        · rw [requested] at settled
          exact ends_call (cancelFutures_settled settled)
        · refine ends_call (ih requested rfl (sound_set all sound') ?_ ?_ ?_ bare stages)
          · rw [countP_set_ready at_j pending ready, counted]
          · rwa [List.length_set]
          · refine (left.set ready).tail fun other at_j' => ?_
            obtain ⟨bound, -⟩ := List.getElem?_eq_some_iff.mp at_j
            rw [List.getElem?_set_self bound] at at_j'
            cases at_j'
            exact ready

/-- The first of the futures of `when_any` that is canceled makes it ready. -/
theorem cancelFutures_whenAny {futures : List Future} {future : Future} {autoCancel : Bool}
    {j : ℕ} {js : List ℕ} (requested : fut.token.isCancelRequested = true)
    (source : fut.source = .whenAny futures autoCancel false) (at_j : futures[j]? = some future)
    (all : ∀ future ∈ futures, Sound future) (pending : future.isReady = false)
    (bare : fut.token.Bare)
    (stages : SoundStages fut.stages) :
    Ends (fut.cancelFutures inCatch (j :: js)) (Settled true) := by
  rw [Future.cancelFutures, source]
  simp only [Source.futures, at_j, pending, Bool.false_eq_true, if_false]
  refine (ends_call ((all future (List.mem_of_getElem? at_j)).requestCancel inCatch)).bind ?_
  rintro after ⟨ready, sound⟩
  refine (change_whenAny source all sound ready bare stages).bind fun fut' settled => ?_
  rw [requested] at settled
  exact ends_call (cancelFutures_settled settled)

/-! ## A future is canceled -/

theorem cancelSource_pending (requested : fut.token.isCancelRequested = true)
    (stack : fut.token.doCancels = [.source]) (pending : Pending fut.source)
    (stages : SoundStages fut.stages) :
    Ends (fut.cancelSource inCatch) (Settled true) := by
  have tail : fut.token.doCancels.tail = [] := by rw [stack, List.tail_cons]
  have fired : Ends (do
      let fut ← Future.pop { fut with source := .none } inCatch
      call (.set inCatch canceled fut)) (Settled true) := by
    refine Ends.bind (pop_spent ?_ (.inl rfl) .none) ?_
    · exact tail
    rintro _ ⟨source, spent, rfl⟩
    refine ends_call ?_
    exact requested ▸ set_settled (.inl rfl) spent stages (datum_sound _)
  unfold Future.cancelSource
  cases source : fut.source with
  | async | asyncWait => exact fired
  | unstarted => exact finish_settled requested (.inr stack) stages (datum_sound _)
  | awaiting awaited body results =>
    rw [source] at pending
    cases pending with
    | awaiting awaits =>
      dsimp only
      split
      · exact ends_stop trivial
      · exact (ends_call (awaits.requestCancel _)).bind fun _ _ =>
          finish_settled requested (.inr stack) stages (datum_sound _)
  | whenAll futures count =>
    rw [source] at pending
    cases pending with
    | whenAll all counted incomplete =>
      refine ends_call (cancelFutures_whenAll requested source all counted incomplete ?_
        (.inr stack) stages)
      intro j future at_j _
      exact List.mem_range.mpr (List.getElem?_eq_some_iff.mp at_j).1
  | whenAny futures autoCancel triggered =>
    rw [source] at pending
    cases pending with
    | whenAny all none some =>
      obtain ⟨future, futures, rfl⟩ := List.exists_cons_of_ne_nil some
      simp only [List.length_cons, List.range_succ_eq_map]
      exact ends_call (cancelFutures_whenAny requested source rfl all
        (none future List.mem_cons_self) (.inr stack) stages)
  | none | ended | destroyed =>
    rw [source] at pending
    cases pending

theorem callTop_settled (formed : Formed fut) (pending : fut.isReady = false) :
    Ends (Future.callTop { fut with token := { fut.token with isCancelRequested := true } } inCatch)
      (Settled true) := by
  unfold Future.callTop
  cases formed with
  | source waiting unrequested stack source stages =>
    simp only [stack]
    exact cancelSource_pending rfl rfl source stages
  | inner waiting unready unrequested stack bare source inside stages =>
    simp only [stack, waiting, unready, Bool.false_eq_true, if_false]
    refine (ends_call (inside.requestCancel inCatch)).bind ?_
    rintro after ⟨ready, sound⟩
    refine unwrapInner_settled rfl rfl bare source stages sound (fun _ => ready) ?_
    intro fut' v left bare' requested spent value
    exact requested ▸ set_settled bare' spent (left ▸ stages) value
  | ready waiting => simp [Future.isReady, Future.result, waiting] at pending

/-- What `request_cancel` makes of a future whose cancelers are in order. -/
theorem Formed.requestCancel (formed : Formed fut) (pending : fut.isReady = false)
    (inCatch : Bool) :
    ∃ outcome, ComesTo body (fut.requestCancel inCatch) outcome ∧
      ∀ after, outcome = some after → after.isReady = true ∧ Sound after := by
  have canceled : fut.requestCancel inCatch = call (.callTop inCatch
      { fut with token := { fut.token with isCancelRequested := true } }) := by
    rw [Future.requestCancel, pending, if_neg Bool.false_ne_true]
  rw [canceled]
  rcases callTop_settled formed pending with ⟨after, returns, settled⟩ | ⟨-, stops⟩
  · refine ⟨some after, returns_call.mpr returns, ?_⟩
    rintro _ ⟨⟩
    have ready := settled.ready rfl
    exact ⟨ready, .ready settled.formed ready⟩
  · refine ⟨none, stops_call stops, ?_⟩
    rintro _ ⟨⟩

/-- **A future whose cancelers are in order** is ready when `request_cancel` returns. -/
theorem Formed.sound (formed : Formed fut) : Sound fut := by
  cases ready : fut.isReady with
  | true => exact .ready formed ready
  | false =>
    choose outcome comes after using formed.requestCancel ready
    exact .pending formed comes (fun inCatch fut' eq => (after inCatch fut' eq).1)
      fun inCatch fut' eq => (after inCatch fut' eq).2

end Tconcurrent.SynchronousCancel
