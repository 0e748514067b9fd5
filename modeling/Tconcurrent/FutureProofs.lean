import Tconcurrent.Future
import Tconcurrent.Interleaving

/-! What the library's own calls do to a heap, for any program built on it.

A program says which states `unwrap` connects and which of its closures it
registers where (`Wiring`).  Then a state that `unwrap` made is resolved only
after the outer future, and unless that one failed only after the inner one. -/
namespace Tconcurrent
open Interleaving

set_option linter.unusedSectionVars false

namespace Heap

variable {N T K : Type} [DecidableEq N] [DecidableEq T]
variable {heap heap' : Heap N T K} {p q : N} {t u : T} {f call : Call N T K}
  {r r' : Result N T} {calls : List (Call N T K)}

@[simp] theorem setState_states_self (state : SharedBase N T K) :
    (heap.setState p state).states p = state := Function.update_self ..

theorem setState_states_ne (state : SharedBase N T K) (other : q ≠ p) :
    (heap.setState p state).states q = heap.states q := Function.update_of_ne other ..

@[simp] theorem setState_tokens (state : SharedBase N T K) :
    (heap.setState p state).tokens = heap.tokens := rfl

@[simp] theorem setToken_states (token : CancelationToken (Call N T K)) :
    (heap.setToken t token).states = heap.states := rfl

@[simp] theorem setToken_tokens_self (token : CancelationToken (Call N T K)) :
    (heap.setToken t token).tokens t = token := Function.update_self ..

theorem setToken_tokens_ne (token : CancelationToken (Call N T K)) (other : u ≠ t) :
    (heap.setToken t token).tokens u = heap.tokens u := Function.update_of_ne other ..

@[simp] theorem onToken_states
    (op : CancelationToken (Call N T K) → CancelationToken (Call N T K) × List (Call N T K)) :
    (heap.onToken t op).1.states = heap.states := rfl

theorem not_ready : ¬ heap.Ready p ↔ (heap.states p).r = none := not_not

theorem ready_of_result (result : (heap.states p).r = some r) : heap.Ready p := by
  simp [Ready, result]

theorem requestCancel_states : (heap.requestCancel p).1.states = heap.states := by
  unfold requestCancel
  split <;> rfl

theorem unwrapOuter_states : (heap.unwrapOuter p q).1.states = heap.states := by
  unfold unwrapOuter
  split
  · rfl
  · split
    · split <;> rfl
    · rfl
  · rfl

theorem unwrapInner_states {token : Option T} :
    (heap.unwrapInner p q token).1.states = heap.states := by
  unfold unwrapInner
  split <;> rfl

/-- Results are never taken back. -/
def Keeps (heap heap' : Heap N T K) : Prop :=
  ∀ p r, (heap.states p).r = some r → (heap'.states p).r = some r

theorem Keeps.refl : heap.Keeps heap := fun _ _ held => held

theorem keeps_of_states (same : heap'.states = heap.states) : heap.Keeps heap' := by
  intro p r held
  rw [same]
  exact held

theorem Keeps.ready (keeps : heap.Keeps heap') (ready : heap.Ready p) : heap'.Ready p := by
  obtain ⟨r, result⟩ := Option.ne_none_iff_exists'.mp ready
  exact ready_of_result (keeps p r result)

theorem keeps_setState {state : SharedBase N T K} (fresh : ¬ heap.Ready p) :
    heap.Keeps (heap.setState p state) := by
  intro q r held
  by_cases same : q = p
  · subst same
    exact absurd (ready_of_result held) fresh
  · rw [setState_states_ne state same]
    exact held

theorem keeps_thenRun : heap.Keeps (heap.thenRun p f).1 := by
  unfold thenRun
  split
  · rename_i unresolved
    exact keeps_setState (not_ready.mpr unresolved)
  · exact .refl

/-- The library resolves no state twice, given that it is asked only once. -/
theorem keeps_exec (once : ∀ p r, call = .finish p r → ¬ heap.Ready p) :
    heap.Keeps (heap.exec call).1 := by
  cases call with
  | finish p r => exact keeps_setState (once p r rfl)
  | thenRun p f => exact keeps_thenRun
  | requestCancel p => exact keeps_of_states requestCancel_states
  | popCancelationCallback t => exact .refl
  | unwrapOuter fut1 sb => exact keeps_of_states unwrapOuter_states
  | unwrapInner fut2 sb token => exact keeps_of_states unwrapInner_states
  | client k => exact .refl

/-- A state that is resolved keeps no continuation. -/
def Drained (heap : Heap N T K) : Prop := ∀ p, heap.Ready p → (heap.states p).thens = []

theorem Drained.setState {state : SharedBase N T K} (drained : heap.Drained)
    (empty : state.r ≠ none → state.thens = []) : (heap.setState p state).Drained := by
  intro q ready
  by_cases same : q = p
  · subst same
    rw [Ready, setState_states_self] at ready
    rw [setState_states_self]
    exact empty ready
  · rw [Ready, setState_states_ne state same] at ready
    rw [setState_states_ne state same]
    exact drained q ready

theorem Drained.of_states (drained : heap.Drained) (same : heap'.states = heap.states) :
    heap'.Drained := by
  intro q ready
  rw [Ready, same] at ready
  rw [same]
  exact drained q ready

theorem Drained.exec (drained : heap.Drained) : (heap.exec call).1.Drained := by
  cases call with
  | finish p r => exact drained.setState fun _ => rfl
  | thenRun p f =>
    simp only [Heap.exec, thenRun]
    split
    · rename_i unresolved
      exact drained.setState fun resolved => absurd unresolved resolved
    · exact drained
  | requestCancel p => exact drained.of_states requestCancel_states
  | popCancelationCallback t => exact drained
  | unwrapOuter fut1 sb => exact drained.of_states unwrapOuter_states
  | unwrapInner fut2 sb token => exact drained.of_states unwrapInner_states
  | client k => exact drained

/-- The token of a state changes only when the state is resolved. -/
theorem exec_cancelationToken (unready : ¬ (heap.exec call).1.Ready p) :
    ((heap.exec call).1.states p).cancelationToken = (heap.states p).cancelationToken := by
  cases call with
  | finish q r =>
    by_cases same : p = q
    · subst same
      simp [Heap.exec, finish, Ready] at unready
    · rw [Heap.exec, finish, setState_states_ne _ same]
  | thenRun q f =>
    simp only [Heap.exec, thenRun]
    split
    · by_cases same : p = q
      · subst same
        rw [setState_states_self]
      · rw [setState_states_ne _ same]
    · rfl
  | requestCancel q => rw [Heap.exec, requestCancel_states]
  | popCancelationCallback t => rfl
  | unwrapOuter fut1 sb => rw [Heap.exec, unwrapOuter_states]
  | unwrapInner fut2 sb token => rw [Heap.exec, unwrapInner_states]
  | client k => rfl

/-- The library gives no state a token. -/
theorem exec_token_of_some (token : ((heap.exec call).1.states p).cancelationToken = some t) :
    (heap.states p).cancelationToken = some t := by
  cases call with
  | finish q r =>
    by_cases same : p = q
    · subst same
      simp [Heap.exec, finish] at token
    · rwa [Heap.exec, finish, setState_states_ne _ same] at token
  | thenRun q f =>
    simp only [Heap.exec, thenRun] at token
    split at token
    · by_cases same : p = q
      · subst same
        rwa [setState_states_self] at token
      · rwa [setState_states_ne _ same] at token
    · exact token
  | requestCancel q => rwa [Heap.exec, requestCancel_states] at token
  | popCancelationCallback u => exact token
  | unwrapOuter fut1 sb => rwa [Heap.exec, unwrapOuter_states] at token
  | unwrapInner fut2 sb u => rwa [Heap.exec, unwrapInner_states] at token
  | client k => exact token

/-- Resolved states stay resolved. -/
theorem ready_exec (ready : heap.Ready p) : (heap.exec call).1.Ready p := by
  cases call with
  | finish q r =>
    by_cases same : p = q
    · subst same
      simp [Heap.exec, finish, Ready]
    · rwa [Ready, Heap.exec, finish, setState_states_ne _ same]
  | thenRun q f => exact keeps_thenRun.ready ready
  | requestCancel q => rwa [Ready, Heap.exec, requestCancel_states]
  | popCancelationCallback t => exact ready
  | unwrapOuter fut1 sb => rwa [Ready, Heap.exec, unwrapOuter_states]
  | unwrapInner fut2 sb token => rwa [Ready, Heap.exec, unwrapInner_states]
  | client k => exact ready

/-- What one call of the library does to a token: nothing, a request, or a change
of its stack. -/
inductive TokenStep (heap : Heap N T K) (call : Call N T K) (t : T) :
    CancelationToken (Call N T K) → Prop where
  | same : TokenStep heap call t (heap.tokens t)
  | request : TokenStep heap call t { heap.tokens t with isCancelRequested := true }
  | pop : call = .popCancelationCallback t →
      TokenStep heap call t { heap.tokens t with doCancels := (heap.tokens t).doCancels.tail }
  | push (fut1 sb : N) (fut2 : Future N T) : call = .unwrapOuter fut1 sb →
      (heap.states fut1).r = some (.value (.future fut2)) →
      (heap.states sb).cancelationToken = some t → some t ≠ fut2.cancelationToken →
      TokenStep heap call t
        { heap.tokens t with doCancels := .requestCancel fut2.p :: (heap.tokens t).doCancels }

theorem exec_tokens : TokenStep heap call t ((heap.exec call).1.tokens t) := by
  cases call with
  | finish q r => exact .same
  | thenRun q f =>
    simp only [Heap.exec, thenRun]
    split <;> exact .same
  | requestCancel q =>
    simp only [Heap.exec, requestCancel]
    split
    · rename_i u token
      by_cases current : t = u
      · subst current
        simp only [onToken, setToken_tokens_self]
        exact .request
      · simp only [onToken, setToken_tokens_ne _ current]
        exact .same
    · exact .same
  | popCancelationCallback u =>
    by_cases current : t = u
    · subst current
      simp only [Heap.exec, onToken, setToken_tokens_self]
      exact .pop rfl
    · simp only [Heap.exec, onToken, setToken_tokens_ne _ current]
      exact .same
  | unwrapOuter fut1 sb =>
    simp only [Heap.exec, unwrapOuter]
    split
    · exact .same
    · rename_i fut2 result
      split
      · rename_i u token
        split
        · rename_i different
          by_cases current : t = u
          · subst current
            simp only [onToken, setToken_tokens_self]
            exact .push fut1 sb fut2 rfl result token different
          · simp only [onToken, setToken_tokens_ne _ current]
            exact .same
        · exact .same
      · exact .same
    · exact .same
  | unwrapInner fut2 sb token =>
    simp only [Heap.exec, unwrapInner]
    split <;> exact .same
  | client k => exact .same

/-- A request is never taken back. -/
theorem exec_isCancelRequested (requested : (heap.tokens t).isCancelRequested = true) :
    ((heap.exec call).1.tokens t).isCancelRequested = true := by
  have step : TokenStep heap call t ((heap.exec call).1.tokens t) := exec_tokens
  generalize (heap.exec call).1.tokens t = token at step ⊢
  cases step with
  | same => exact requested
  | request => rfl
  | pop => exact requested
  | push => exact requested

end Heap

/-! ## What `unwrap` guarantees -/

/-- How a program connects its shared states. -/
structure Wiring (N T K : Type) where
  /-- The outer and the inner future behind a state that `unwrap` made. -/
  link : N → Option (N × N)
  /-- `unwrap` is called on what it did not make itself. -/
  outer_plain : ∀ sb outer inner, link sb = some (outer, inner) → link outer = none
  /-- The closures of the program registered on a state. -/
  continuation : N → K → Prop
  /-- The closures of the program pushed on a token. -/
  canceler : K → Prop
  /-- The calls the program makes itself. -/
  internal : K → Prop

section
variable {N T K : Type} [DecidableEq N] [DecidableEq T] (wiring : Wiring N T K)
variable {heap heap' : Heap N T K} {p : N} {f call : Call N T K} {r : Result N T}

/-- A state made by `unwrap` may be resolved: its outer future is ready and,
unless that failed, so is the inner one. -/
def Justified (heap : Heap N T K) (p : N) : Prop :=
  ∀ outer inner, wiring.link p = some (outer, inner) → heap.Ready outer ∧
    ((∃ e, (heap.states outer).r = some (.exception e)) ∨ heap.Ready inner)

/-- An outer future fails or carries the inner future it is connected with. -/
def Carries (p : N) (r : Result N T) : Prop :=
  ∀ sb inner, wiring.link sb = some (p, inner) →
    (∃ e, r = .exception e) ∨ ∃ fut, r = .value (.future fut) ∧ fut.p = inner

/-- A closure belongs on the state it is registered on. -/
def Registered (heap : Heap N T K) (p : N) : Call N T K → Prop
  | .unwrapOuter fut1 sb => p = fut1 ∧ ∃ inner, wiring.link sb = some (fut1, inner)
  | .unwrapInner fut2 sb _ => p = fut2 ∧ ∃ outer, wiring.link sb = some (outer, fut2) ∧ heap.Ready outer
  | .client k => wiring.continuation p k
  | _ => False

/-- A call of the program is made by itself, by a token or by a ready state. -/
def Called (heap : Heap N T K) (k : K) : Prop :=
  wiring.internal k ∨ wiring.canceler k ∨ ∃ p, wiring.continuation p k ∧ heap.Ready p

/-- A call respects the wiring. -/
def Sound (heap : Heap N T K) : Call N T K → Prop
  | .finish p r => Justified wiring heap p ∧ Carries wiring p r
  | .thenRun p f => Registered wiring heap p f
  | .unwrapOuter fut1 sb => heap.Ready fut1 ∧ ∃ inner, wiring.link sb = some (fut1, inner)
  | .unwrapInner fut2 sb _ =>
    heap.Ready fut2 ∧ ∃ outer, wiring.link sb = some (outer, fut2) ∧ heap.Ready outer
  | .client k => Called wiring heap k
  | _ => True

/-- A canceler is a request or a closure of the program. -/
def Canceling : Call N T K → Prop
  | .requestCancel _ => True
  | .client k => wiring.canceler k
  | _ => False

/-- Everything in the heap respects the wiring. -/
structure SoundHeap (heap : Heap N T K) : Prop where
  resolved : ∀ p r, (heap.states p).r = some r → Justified wiring heap p ∧ Carries wiring p r
  registered : ∀ p, ∀ f ∈ (heap.states p).thens, Registered wiring heap p f
  cancelers : ∀ t, ∀ f ∈ (heap.tokens t).doCancels, Canceling wiring f

variable {wiring}

theorem Justified.keeps (justified : Justified wiring heap p) (keeps : heap.Keeps heap') :
    Justified wiring heap' p := by
  intro outer inner linked
  obtain ⟨ready, failed | inside⟩ := justified outer inner linked
  · obtain ⟨e, result⟩ := failed
    exact ⟨keeps.ready ready, Or.inl ⟨e, keeps _ _ result⟩⟩
  · exact ⟨keeps.ready ready, Or.inr (keeps.ready inside)⟩

theorem Registered.keeps (registered : Registered wiring heap p f) (keeps : heap.Keeps heap') :
    Registered wiring heap' p f := by
  cases f with
  | unwrapInner fut2 sb token =>
    obtain ⟨same, outer, linked, ready⟩ := registered
    exact ⟨same, outer, linked, keeps.ready ready⟩
  | unwrapOuter fut1 sb => exact registered
  | client k => exact registered
  | finish => exact registered
  | thenRun => exact registered
  | requestCancel => exact registered
  | popCancelationCallback => exact registered

theorem Called.keeps {k : K} (called : Called wiring heap k) (keeps : heap.Keeps heap') :
    Called wiring heap' k := by
  obtain inside | pushed | ⟨p, registered, ready⟩ := called
  · exact Or.inl inside
  · exact Or.inr (Or.inl pushed)
  · exact Or.inr (Or.inr ⟨p, registered, keeps.ready ready⟩)

theorem Sound.keeps (sound : Sound wiring heap call) (keeps : heap.Keeps heap') :
    Sound wiring heap' call := by
  cases call with
  | finish p r => exact ⟨sound.1.keeps keeps, sound.2⟩
  | thenRun p f => exact Registered.keeps sound keeps
  | unwrapInner fut2 sb token =>
    obtain ⟨inside, outer, linked, ready⟩ := sound
    exact ⟨keeps.ready inside, outer, linked, keeps.ready ready⟩
  | unwrapOuter fut1 sb => exact ⟨keeps.ready sound.1, sound.2⟩
  | requestCancel => trivial
  | popCancelationCallback => trivial
  | client k => exact Called.keeps sound keeps

/-- A closure registered on a state may be called once the state is ready. -/
theorem Registered.sound (registered : Registered wiring heap p f) (ready : heap.Ready p) :
    Sound wiring heap f := by
  cases f with
  | unwrapOuter fut1 sb => exact ⟨registered.1 ▸ ready, registered.2⟩
  | unwrapInner fut2 sb token => exact ⟨registered.1 ▸ ready, registered.2⟩
  | client k => exact Or.inr (Or.inr ⟨p, registered, ready⟩)
  | finish => exact registered.elim
  | thenRun => exact registered.elim
  | requestCancel => trivial
  | popCancelationCallback => trivial

/-- A state may be set up, or resolved, as long as it was not resolved before. -/
theorem SoundHeap.setState (sound : SoundHeap wiring heap) (fresh : ¬ heap.Ready p)
    {state : SharedBase N T K}
    (result : ∀ r, state.r = some r → Justified wiring heap p ∧ Carries wiring p r)
    (thens : ∀ f ∈ state.thens, Registered wiring heap p f) :
    SoundHeap wiring (heap.setState p state) := by
  have keeps : heap.Keeps (heap.setState p state) := Heap.keeps_setState fresh
  refine ⟨?_, ?_, sound.cancelers⟩
  · intro q r held
    by_cases same : q = p
    · subst same
      rw [Heap.setState_states_self] at held
      exact ⟨(result r held).1.keeps keeps, (result r held).2⟩
    · rw [Heap.setState_states_ne state same] at held
      exact ⟨(sound.resolved q r held).1.keeps keeps, (sound.resolved q r held).2⟩
  · intro q f member
    by_cases same : q = p
    · subst same
      rw [Heap.setState_states_self] at member
      exact (thens f member).keeps keeps
    · rw [Heap.setState_states_ne state same] at member
      exact (sound.registered q f member).keeps keeps

theorem SoundHeap.setToken (sound : SoundHeap wiring heap) {t : T}
    {token : CancelationToken (Call N T K)}
    (cancelers : ∀ f ∈ token.doCancels, Canceling wiring f) :
    SoundHeap wiring (heap.setToken t token) := by
  refine ⟨sound.resolved, sound.registered, ?_⟩
  intro u f member
  by_cases same : u = t
  · subst same
    rw [Heap.setToken_tokens_self] at member
    exact cancelers f member
  · rw [Heap.setToken_tokens_ne token same] at member
    exact sound.cancelers u f member

theorem Canceling.sound (canceling : Canceling wiring f) : Sound wiring heap f := by
  cases f with
  | requestCancel p => trivial
  | client k => exact Or.inr (Or.inl canceling)
  | finish => exact canceling.elim
  | thenRun => exact canceling.elim
  | popCancelationCallback => trivial
  | unwrapOuter => exact canceling.elim
  | unwrapInner => exact canceling.elim

theorem requestCancel_spec (sound : SoundHeap wiring heap) (p : N) :
    SoundHeap wiring (heap.requestCancel p).1 ∧
      ∀ f ∈ (heap.requestCancel p).2, Canceling wiring f := by
  unfold Heap.requestCancel
  split
  · rename_i t token
    refine ⟨sound.setToken (sound.cancelers t), fun f member => ?_⟩
    have member : (heap.tokens t).doCancels.head? = some f := by
      simpa [Heap.onToken, CancelationToken.requestCancel] using member
    exact sound.cancelers t f (List.mem_of_mem_head? member)
  · exact ⟨sound, by simp⟩

theorem popCancelationCallback_spec (sound : SoundHeap wiring heap) (t : T) :
    SoundHeap wiring (heap.onToken t CancelationToken.popCancelationCallback).1 ∧
      ∀ f ∈ (heap.onToken t CancelationToken.popCancelationCallback).2, Canceling wiring f := by
  refine ⟨sound.setToken fun f member => sound.cancelers t f (List.mem_of_mem_tail member), ?_⟩
  intro f member
  simp only [Heap.onToken, CancelationToken.popCancelationCallback] at member
  split at member
  · have member : (heap.tokens t).doCancels.tail.head? = some f := by simpa using member
    exact sound.cancelers t f (List.mem_of_mem_tail (List.mem_of_mem_head? member))
  · simp at member

/-- The first closure of `unwrap` passes an error on, or waits for the inner
future after it has pushed its canceler. -/
theorem unwrapOuter_spec (sound : SoundHeap wiring heap) {fut1 sb inner : N}
    (linked : wiring.link sb = some (fut1, inner)) (ready : heap.Ready fut1) :
    SoundHeap wiring (heap.unwrapOuter fut1 sb).1 ∧
      ∃ cancelers last, (heap.unwrapOuter fut1 sb).2 = cancelers ++ [last] ∧
        (∀ f ∈ cancelers, Canceling wiring f) ∧
        ((∃ e, (heap.states fut1).r = some (.exception e) ∧ last = .finish sb (.exception e)) ∨
        ∃ token, last = .thenRun inner (.unwrapInner inner sb token)) := by
  unfold Heap.unwrapOuter
  split
  · rename_i e failed
    exact ⟨sound, [], _, rfl, by simp, Or.inl ⟨e, failed, rfl⟩⟩
  · rename_i fut2 result
    obtain ⟨e, other⟩ | ⟨fut, same, inside⟩ := (sound.resolved fut1 _ result).2 sb inner linked
    · cases other
    obtain rfl : fut2 = fut := by simpa using same
    split
    · rename_i token _
      split
      · refine ⟨sound.setToken ?_, _, _, rfl, ?_, Or.inr ⟨some token, by rw [inside]⟩⟩
        · intro f member
          rcases List.mem_cons.mp member with rfl | member
          · trivial
          · exact sound.cancelers token f member
        · intro f member
          simp only [Heap.onToken, CancelationToken.pushCancelationCallback] at member
          split at member
          · rw [List.mem_singleton.mp member]
            trivial
          · simp at member
      · exact ⟨sound, [], _, rfl, by simp, Or.inr ⟨none, by rw [inside]⟩⟩
    · exact ⟨sound, [], _, rfl, by simp, Or.inr ⟨none, by rw [inside]⟩⟩
  · rename_i failed value
    obtain ⟨r, result⟩ := Option.ne_none_iff_exists'.mp ready
    obtain ⟨e, rfl⟩ | ⟨fut, rfl, -⟩ := (sound.resolved fut1 r result).2 sb inner linked
    · exact absurd result (failed e)
    · exact absurd result (value fut)

/-- The second closure of `unwrap` passes the result of the inner future on. -/
theorem unwrapInner_spec {fut2 : N} (sb : N) (token : Option T) (ready : heap.Ready fut2) :
    ∃ r, (heap.states fut2).r = some r ∧ heap.unwrapInner fut2 sb token =
      (heap, (token.map .popCancelationCallback).toList ++ [.finish sb r]) := by
  obtain ⟨r, result⟩ := Option.ne_none_iff_exists'.mp ready
  exact ⟨r, result, by simp [Heap.unwrapInner, result]⟩

/-- **Library calls respect the wiring.**  From a sound heap and a sound call
that resolves no state twice come a sound heap and sound calls. -/
theorem exec_sound (sound : SoundHeap wiring heap) (respects : Sound wiring heap call)
    (once : ∀ p r, call = .finish p r → ¬ heap.Ready p) :
    SoundHeap wiring (heap.exec call).1 ∧
      ∀ f ∈ (heap.exec call).2, Sound wiring (heap.exec call).1 f := by
  have keeps := Heap.keeps_exec once
  cases call with
  | finish p r =>
    refine ⟨sound.setState (once p r rfl) ?_ (by simp), ?_⟩
    · rintro r' ⟨⟩
      exact respects
    · intro f member
      have ready : (heap.finish p r).1.Ready p := by simp [Heap.finish, Heap.Ready]
      exact ((sound.registered p f member).keeps keeps).sound ready
  | thenRun p f =>
    simp only [Heap.exec, Heap.thenRun] at keeps ⊢
    split
    · rename_i unresolved
      refine ⟨sound.setState (Heap.not_ready.mpr unresolved) (by simp [unresolved]) ?_, by simp⟩
      intro g member
      rcases List.mem_append.mp member with member | member
      · exact sound.registered p g member
      · rw [List.mem_singleton.mp member]
        exact respects
    · rename_i ready
      exact ⟨sound, by simpa using Registered.sound respects ready⟩
  | requestCancel p =>
    have spec := requestCancel_spec sound p
    exact ⟨spec.1, fun f member => (spec.2 f member).sound⟩
  | popCancelationCallback t =>
    have spec := popCancelationCallback_spec sound t
    exact ⟨spec.1, fun f member => (spec.2 f member).sound⟩
  | unwrapOuter fut1 sb =>
    obtain ⟨ready, inner, linked⟩ := respects
    obtain ⟨kept, cancelers, last, calls, canceling, ends⟩ := unwrapOuter_spec sound linked ready
    refine ⟨kept, fun f member => ?_⟩
    suffices respected : Sound wiring heap f from respected.keeps keeps
    rw [Heap.exec, calls] at member
    rcases List.mem_append.mp member with member | member
    · exact (canceling f member).sound
    rw [List.mem_singleton.mp member]
    rcases ends with ⟨e, failed, rfl⟩ | ⟨token, rfl⟩
    · refine ⟨?_, fun _ _ _ => Or.inl ⟨e, rfl⟩⟩
      intro outer inner' linked'
      obtain ⟨rfl, rfl⟩ : fut1 = outer ∧ inner = inner' := by simpa [linked] using linked'
      exact ⟨ready, Or.inl ⟨e, failed⟩⟩
    · exact ⟨rfl, fut1, linked, ready⟩
  | unwrapInner fut2 sb token =>
    obtain ⟨inside, outer, linked, ready⟩ := respects
    obtain ⟨r, result, calls⟩ := unwrapInner_spec sb token inside
    rw [Heap.exec, calls]
    refine ⟨sound, fun f member => ?_⟩
    rcases List.mem_append.mp member with member | member
    · obtain ⟨t, -, rfl⟩ : ∃ t, token = some t ∧ .popCancelationCallback t = f := by
        simpa using member
      trivial
    · rw [List.mem_singleton.mp member]
      refine ⟨?_, ?_⟩
      · intro outer' inner linked'
        obtain ⟨rfl, rfl⟩ : outer = outer' ∧ fut2 = inner := by simpa [linked] using linked'
        exact ⟨ready, Or.inr inside⟩
      · intro sb' inner linked'
        simp [wiring.outer_plain _ _ _ linked'] at linked
  | client k => exact ⟨sound, by simp [Heap.exec]⟩

/-- How a state ends: its result is on the way or set. -/
def Outcome (heap : Heap N T K) (pending : Multiset (Call N T K)) (p : N) (r : Result N T) : Prop :=
  .finish p r ∈ pending ∨ (heap.states p).r = some r

/-- What a step of the program decides is among the calls it makes. -/
theorem outcome_after (call : Call N T K) {calls : List (Call N T K)}
    {others : Multiset (Call N T K)} (same : (heap'.states p).r = (heap.states p).r)
    (outcome : Outcome heap' (↑calls + others) p r) :
    .finish p r ∈ calls ∨ Outcome heap (call ::ₘ others) p r := by
  rcases outcome with pending | result
  · rcases Multiset.mem_add.mp pending with made | other
    · exact Or.inl (Multiset.mem_coe.mp made)
    · exact Or.inr (Or.inl (Multiset.mem_cons_of_mem other))
  · exact Or.inr (Or.inr (same ▸ result))

/-- A step leaves what others have decided. -/
theorem Outcome.after {calls : List (Call N T K)} {others : Multiset (Call N T K)}
    (keeps : heap.Keeps heap') (outcome : Outcome heap (call ::ₘ others) p r) :
    call = .finish p r ∨ Outcome heap' (↑calls + others) p r := by
  rcases outcome with pending | result
  · rcases Multiset.mem_cons.mp pending with current | other
    · exact Or.inl current.symm
    · exact Or.inr (Or.inl (Multiset.mem_add.mpr (Or.inr other)))
  · exact Or.inr (Or.inr (keeps p r result))

/-- A result is new only where it is set. -/
theorem exec_result (result : ((heap.exec call).1.states p).r = some r) :
    call = .finish p r ∨ (heap.states p).r = some r := by
  cases call with
  | finish q r' =>
    by_cases same : p = q
    · subst same
      simp only [Heap.exec, Heap.finish, Heap.setState_states_self, Option.some.injEq] at result
      exact Or.inl (by rw [result])
    · rw [Heap.exec, Heap.finish, Heap.setState_states_ne _ same] at result
      exact Or.inr result
  | thenRun q f =>
    simp only [Heap.exec, Heap.thenRun] at result
    split at result
    · by_cases same : p = q
      · subst same
        rw [Heap.setState_states_self] at result
        exact Or.inr result
      · rw [Heap.setState_states_ne _ same] at result
        exact Or.inr result
    · exact Or.inr result
  | requestCancel q =>
    rw [Heap.exec, Heap.requestCancel_states] at result
    exact Or.inr result
  | popCancelationCallback t => exact Or.inr result
  | unwrapOuter fut1 sb =>
    rw [Heap.exec, Heap.unwrapOuter_states] at result
    exact Or.inr result
  | unwrapInner fut2 sb token =>
    rw [Heap.exec, Heap.unwrapInner_states] at result
    exact Or.inr result
  | client k => exact Or.inr result

/-- The library itself resolves only what `unwrap` made. -/
theorem exec_finishes (sound : SoundHeap wiring heap) (respects : Sound wiring heap call)
    (member : .finish p r ∈ (heap.exec call).2) : wiring.link p ≠ none := by
  cases call with
  | finish q r' => exact (sound.registered q _ member).elim
  | thenRun q f =>
    simp only [Heap.exec, Heap.thenRun] at member
    split at member
    · simp at member
    · rw [← List.mem_singleton.mp member] at respects
      exact respects.elim
  | requestCancel q => exact ((requestCancel_spec sound q).2 _ member).elim
  | popCancelationCallback t => exact ((popCancelationCallback_spec sound t).2 _ member).elim
  | unwrapOuter fut1 sb =>
    obtain ⟨ready, inner, linked⟩ := respects
    obtain ⟨-, cancelers, last, calls, canceling, ends⟩ := unwrapOuter_spec sound linked ready
    rw [Heap.exec, calls] at member
    rcases List.mem_append.mp member with member | member
    · exact (canceling _ member).elim
    · have same := List.mem_singleton.mp member
      rcases ends with ⟨e, -, rfl⟩ | ⟨token, rfl⟩
      · obtain ⟨rfl, -⟩ : p = sb ∧ r = .exception e := by simpa using same
        simp [linked]
      · cases same
  | unwrapInner fut2 sb token =>
    obtain ⟨inside, outer, linked, -⟩ := respects
    obtain ⟨r', -, calls⟩ := unwrapInner_spec sb token inside
    rw [Heap.exec, calls] at member
    obtain ⟨rfl, -⟩ : p = sb ∧ r = r' := by
      rcases List.mem_append.mp member with member | member
      · simp at member
      · simpa using member
    simp [linked]
  | client k => simp [Heap.exec] at member

/-- The closures of the program that the library calls were registered or pushed. -/
theorem exec_clients {k : K} (sound : SoundHeap wiring heap) (respects : Sound wiring heap call)
    (member : .client k ∈ (heap.exec call).2) :
    wiring.canceler k ∨ ∃ p, wiring.continuation p k := by
  cases call with
  | finish q r' => exact Or.inr ⟨q, sound.registered q _ member⟩
  | thenRun q f =>
    simp only [Heap.exec, Heap.thenRun] at member
    split at member
    · simp at member
    · rw [← List.mem_singleton.mp member] at respects
      exact Or.inr ⟨q, respects⟩
  | requestCancel q => exact Or.inl ((requestCancel_spec sound q).2 _ member)
  | popCancelationCallback t => exact Or.inl ((popCancelationCallback_spec sound t).2 _ member)
  | unwrapOuter fut1 sb =>
    obtain ⟨ready, inner, linked⟩ := respects
    obtain ⟨-, cancelers, last, calls, canceling, ends⟩ := unwrapOuter_spec sound linked ready
    rw [Heap.exec, calls] at member
    rcases List.mem_append.mp member with member | member
    · exact Or.inl (canceling _ member)
    · have same := List.mem_singleton.mp member
      rcases ends with ⟨e, -, rfl⟩ | ⟨token, rfl⟩ <;> cases same
  | unwrapInner fut2 sb token =>
    obtain ⟨r', -, calls⟩ := unwrapInner_spec sb token respects.1
    rw [Heap.exec, calls] at member
    rcases List.mem_append.mp member with member | member
    · simp at member
    · simp at member
  | client k => simp [Heap.exec] at member

/-- The fate of any other state is decided by the program's own steps. -/
theorem exec_outcome {others : Multiset (Call N T K)} (sound : SoundHeap wiring heap)
    (respects : Sound wiring heap call) (plain : wiring.link p = none)
    (outcome : Outcome (heap.exec call).1 (↑(heap.exec call).2 + others) p r) :
    Outcome heap (call ::ₘ others) p r := by
  rcases outcome with pending | result
  · rcases Multiset.mem_add.mp pending with made | other
    · exact absurd plain (exec_finishes sound respects (Multiset.mem_coe.mp made))
    · exact Or.inl (Multiset.mem_cons_of_mem other)
  · rcases exec_result result with rfl | before
    · exact Or.inl (Multiset.mem_cons_self _ _)
    · exact Or.inr before

/-- What is on the way arrives. -/
theorem Outcome.exec {others : Multiset (Call N T K)}
    (once : ∀ p r, call = .finish p r → ¬ heap.Ready p)
    (outcome : Outcome heap (call ::ₘ others) p r) :
    Outcome (heap.exec call).1 (↑(heap.exec call).2 + others) p r := by
  rcases outcome.after (Heap.keeps_exec once) with rfl | after
  · apply Or.inr
    simp [Heap.exec, Heap.finish]
  · exact after

/-! ## Setting states up -/

/-- A state that is not set up yet: it has no result, and nothing waits on it. -/
structure Blank (heap : Heap N T K) (p : N) : Prop where
  unset : (heap.states p).r = none
  alone : (heap.states p).thens = []

theorem Blank.unready (blank : Blank heap p) : ¬ heap.Ready p := Heap.not_ready.mpr blank.unset

/-- Setting up a state changes no result and no continuation. -/
theorem Blank.setState (blank : Blank heap p) (token : Option T) (q : N) :
    ((heap.setState p { cancelationToken := token }).states q).r = (heap.states q).r ∧
      ((heap.setState p { cancelationToken := token }).states q).thens = (heap.states q).thens := by
  by_cases same : q = p
  · subst same
    simp [blank.unset, blank.alone]
  · simp [Heap.setState_states_ne _ same]

theorem Blank.other {q : N} (blank : Blank heap q) (other : q ≠ p) (state : SharedBase N T K) :
    Blank (heap.setState p state) q := by
  constructor
  · rw [Heap.setState_states_ne state other]
    exact blank.unset
  · rw [Heap.setState_states_ne state other]
    exact blank.alone

/-- Two states are set up at once: that of a task and what `unwrap` makes of it. -/
theorem setUp {q : N} (sound : SoundHeap wiring heap) (first : Blank heap p)
    (second : Blank heap q) (other : q ≠ p) (token token' : Option T) :
    let heap' := (heap.setState p { cancelationToken := token }).setState q
      { cancelationToken := token' }
    (∀ x, (heap'.states x).r = (heap.states x).r ∧ (heap'.states x).thens = (heap.states x).thens) ∧
      heap.Keeps heap' ∧ SoundHeap wiring heap' := by
  have after := second.other other { cancelationToken := token }
  refine ⟨fun x => ?_, fun x r result => ?_, ?_⟩
  · have one := first.setState token x
    have two := after.setState token' x
    exact ⟨two.1.trans one.1, two.2.trans one.2⟩
  · exact Heap.keeps_setState after.unready x r (Heap.keeps_setState first.unready x r result)
  · exact (sound.setState first.unready (by simp) (by simp)).setState after.unready
      (by simp) (by simp)

/-- A program that registers and pushes more closures is wired no less. -/
structure Wiring.Extends (wiring' wiring : Wiring N T K) : Prop where
  link : wiring'.link = wiring.link
  continuation : ∀ p k, wiring.continuation p k → wiring'.continuation p k
  canceler : ∀ k, wiring.canceler k → wiring'.canceler k
  internal : ∀ k, wiring.internal k → wiring'.internal k

variable {wiring' : Wiring N T K}

theorem Wiring.Extends.registered (wider : wiring'.Extends wiring)
    (registered : Registered wiring heap p f) : Registered wiring' heap p f := by
  cases f with
  | unwrapOuter fut1 sb => rwa [Registered, wider.link]
  | unwrapInner fut2 sb token => rwa [Registered, wider.link]
  | client k => exact wider.continuation p k registered
  | finish => exact registered
  | thenRun => exact registered
  | requestCancel => exact registered
  | popCancelationCallback => exact registered

theorem Wiring.Extends.sound (wider : wiring'.Extends wiring) (sound : Sound wiring heap call) :
    Sound wiring' heap call := by
  cases call with
  | finish p r => rwa [Sound, Justified, Carries, wider.link]
  | thenRun p f => exact wider.registered sound
  | unwrapOuter fut1 sb => rwa [Sound, wider.link]
  | unwrapInner fut2 sb token => rwa [Sound, wider.link]
  | client k =>
    obtain inside | pushed | ⟨p, registered, ready⟩ := sound
    · exact Or.inl (wider.internal k inside)
    · exact Or.inr (Or.inl (wider.canceler k pushed))
    · exact Or.inr (Or.inr ⟨p, wider.continuation p k registered, ready⟩)
  | requestCancel p => trivial
  | popCancelationCallback t => trivial

theorem Wiring.Extends.soundHeap (wider : wiring'.Extends wiring) (sound : SoundHeap wiring heap) :
    SoundHeap wiring' heap where
  resolved p r result := by
    have respected : Sound wiring heap (.finish p r) := sound.resolved p r result
    exact wider.sound respected
  registered p f member := wider.registered (sound.registered p f member)
  cancelers t f member := by
    have canceling := sound.cancelers t f member
    cases f with
    | client k => exact wider.canceler k canceling
    | requestCancel p => trivial
    | finish => exact canceling
    | thenRun => exact canceling
    | popCancelationCallback => exact canceling
    | unwrapOuter => exact canceling
    | unwrapInner => exact canceling

end

end Tconcurrent
