import Tconcurrent.StackfulCoroutine

/-! Every step of a coroutine keeps its invariant.

Where the coroutine is decides which calls are pending: its own code while it runs,
a canceler only while it is suspended.  What is in the queue of the executor is
aborted or about the await that the coroutine is suspended in. -/
namespace Tconcurrent.StackfulCoroutine
open Interleaving

variable {s s' : State} {others above : Multiset CoroutineCall} {call : CoroutineCall}
  {calls : List CoroutineCall} {choice : Choice} {k : ℕ}

namespace Phase

/-- Whether the coroutine's code, or work that it has dispatched, is executing. -/
def active : Phase → ℕ
  | running => 1
  | dispatched => 1
  | signalling => 1
  | _ => 0

/-- The await whose canceler is installed. -/
def awaiting : Phase → Option ℕ
  | submitting k => some k
  | suspended k => some k
  | _ => none

def finished : Phase → Bool
  | signalling => true
  | deleted => true
  | _ => false

theorem active_le_one (phase : Phase) : phase.active ≤ 1 := by
  cases phase with
  | running | dispatched | signalling => exact Nat.le_refl 1
  | unsubmitted | submitting | suspended | deleted => exact Nat.zero_le 1

end Phase

def activeCall : CoroutineCall → ℕ
  | .body => 1
  | .exitCoroutine => 1
  | .resumeWork => 1
  | _ => 0

def cancelCall : CoroutineCall → ℕ
  | .cancelAwait _ => 1
  | _ => 0

/-- A call is made where the coroutine is. -/
def Fits (s : State) : CoroutineCall → Prop
  | .body => s.phase = .running
  | .exitCoroutine => s.phase = .signalling
  | .resumeWork => s.phase = .dispatched
  | .cancelAwait k => s.phase.awaiting = some k ∧ s.canceled = true
  | .executor => False
  | .crashed => False
  | _ => True

/-- No bad resume, and no await that goes on after a request. -/
structure Watched (s : State) : Prop where
  resumes : s.badResume = false
  history : ∀ e ∈ s.history, e.1 = true → e.2 ≠ .result

/-- What has become of the awaits. -/
structure Awaits (s : State) : Prop where
  awaiting : ∀ k, s.phase.awaiting = some k → s.used k = true ∧ s.aborted k = false ∧ s.resumed k = 0
  fresh : ∀ k, s.used k = false → s.registered k = false ∧ s.aborted k = false ∧ s.resumed k = 0
  posted : ∀ k ∈ s.queue, s.resolved k = true ∧ s.registered k = true
  waits : ∀ k, s.registered k = true → s.resolved k = false →
    s.aborted k = true ∨ s.phase.awaiting = some k
  queue : ∀ k ∈ s.queue, s.aborted k = true ∨ s.phase.awaiting = some k
  distinct : s.queue.Nodup
  resumed : ∀ k, s.resumed k ≤ 1

/-- What has become of the body. -/
structure Ends (s : State) : Prop where
  ended : s.ended.isSome = s.phase.finished
  signals : s.signals = (s.ended.map signalOf).toList
  unwinding : s.unwinding = true → s.canceled = true ∧ (s.phase = .running ∨ s.phase.finished = true)
  aborts : s.ended = some .aborted ↔ s.unwinding = true ∧ s.phase.finished = true

structure Sane (s : State) (above : Multiset CoroutineCall) : Prop where
  watched : Watched s
  awaits : Awaits s
  ends : Ends s
  canceler : s.canceler = s.phase.awaiting
  active : weight activeCall above = s.phase.active
  cancels : weight cancelCall above ≤ 1
  fits : ∀ call ∈ above, Fits s call

/-! ## What is pending -/

/-- Calls that may be made wherever the coroutine is. -/
def Neutral (call : CoroutineCall) : Prop := call = .user ∨ call = .submitted

theorem Neutral.fits (neutral : Neutral call) : Fits s call := by
  rcases neutral with rfl | rfl <;> trivial

theorem weight_neutral {measure : CoroutineCall → ℕ} (plain : measure .user = 0)
    (silent : measure .submitted = 0) (neutral : ∀ call ∈ others, Neutral call) :
    weight measure others = 0 := by
  apply Multiset.sum_eq_zero
  intro value member
  obtain ⟨call, held, rfl⟩ := Multiset.mem_map.mp member
  rcases neutral call held with rfl | rfl
  · exact plain
  · exact silent

/-- Around the code of the coroutine, and around a canceler, there is nothing else. -/
theorem Sane.others_neutral (sane : Sane s (call ::ₘ others))
    (only : activeCall call = 1 ∨ cancelCall call = 1) : ∀ other ∈ others, Neutral other := by
  have total := sane.active
  have one := s.phase.active_le_one
  have few := sane.cancels
  have fit := sane.fits call (Multiset.mem_cons_self _ _)
  intro other member
  have other_fit := sane.fits other (Multiset.mem_cons_of_mem member)
  have active := measure_le_weight activeCall member
  have cancels := measure_le_weight cancelCall member
  rw [weight_cons] at total few
  cases other with
  | user => exact Or.inl rfl
  | submitted => exact Or.inr rfl
  | executor | crashed => exact other_fit.elim
  | cancelAwait k =>
    simp only [cancelCall] at cancels
    rcases only with executing | canceling
    · have suspended := other_fit.1
      cases call with
      | body | exitCoroutine | resumeWork =>
        rw [show s.phase = _ from fit] at suspended
        cases suspended
      | _ => cases executing
    · omega
  | body | exitCoroutine | resumeWork =>
    simp only [activeCall] at active
    rcases only with executing | canceling
    · omega
    · cases call with
      | cancelAwait k =>
        have phase : s.phase.awaiting = some k := fit.1
        have idle : s.phase.active = 0 := by
          cases at_phase : s.phase with
          | submitting | suspended => rfl
          | _ => rw [at_phase] at phase; cases phase
        omega
      | _ => cases canceling

theorem Sane.neutral (sane : Sane s above) (apart : s.phase.awaiting = none)
    (idle : s.phase.active = 0) : ∀ call ∈ above, Neutral call := by
  intro call member
  have fit := sane.fits call member
  have quiet := measure_le_weight activeCall member
  rw [sane.active, idle] at quiet
  cases call with
  | user => exact Or.inl rfl
  | submitted => exact Or.inr rfl
  | executor | crashed => exact fit.elim
  | cancelAwait k =>
    have awaits := fit.1
    rw [apart] at awaits
    cases awaits
  | body | exitCoroutine | resumeWork => exact absurd quiet (by simp [activeCall])

/-- The calls of a step around calls that fit everywhere. -/
theorem Sane.of_neutral (watched : Watched s') (awaits : Awaits s') (ends : Ends s')
    (canceler : s'.canceler = s'.phase.awaiting)
    (active : weight activeCall (calls : Multiset CoroutineCall) = s'.phase.active)
    (cancels : weight cancelCall (calls : Multiset CoroutineCall) ≤ 1)
    (fits : ∀ call ∈ calls, Fits s' call) (neutral : ∀ other ∈ others, Neutral other) :
    Sane s' (↑calls + others) where
  watched := watched
  awaits := awaits
  ends := ends
  canceler := canceler
  active := by rw [weight_add, weight_neutral rfl rfl neutral, add_zero, active]
  cancels := by rw [weight_add, weight_neutral rfl rfl neutral, add_zero]; exact cancels
  fits := mem_after fits fun _ member => (neutral _ member).fits

/-! ## Steps that stay where they are -/

/-- Neutral calls come and go. -/
theorem Sane.user (sane : Sane s above) : Sane s (.user ::ₘ above) :=
  { sane with
    active := by simpa [activeCall] using sane.active
    cancels := by simpa [cancelCall] using sane.cancels
    fits := by
      intro call member
      rcases Multiset.mem_cons.mp member with rfl | old
      · trivial
      · exact sane.fits call old }

theorem Sane.drop (sane : Sane s (call ::ₘ others)) (idle : activeCall call = 0) : Sane s others :=
  { sane with
    active := by simpa [idle] using sane.active
    cancels := by
      have few := sane.cancels
      rw [weight_cons] at few
      omega
    fits := fun call member => sane.fits call (Multiset.mem_cons_of_mem member) }

/-- Cancelation is requested. -/
theorem Sane.request (sane : Sane s above) :
    Sane (requestCancel s).1 (↑(requestCancel s).2 + above) := by
  unfold requestCancel
  split
  · simpa using sane
  · rename_i first
    have uncanceled : s.canceled = false := by simpa using first
    have none_pending : ∀ k, .cancelAwait k ∉ above := fun k member => by
      have flagged := (sane.fits _ member).2
      rw [uncanceled] at flagged
      cases flagged
    have quiet : weight cancelCall above = 0 := by
      apply Multiset.sum_eq_zero
      intro value member
      obtain ⟨call, held, rfl⟩ := Multiset.mem_map.mp member
      cases call with
      | cancelAwait k => exact absurd held (none_pending k)
      | _ => rfl
    have base : Sane { s with canceled := true } above :=
      { watched := ⟨sane.watched.resumes, sane.watched.history⟩
        awaits := ⟨sane.awaits.awaiting, sane.awaits.fresh, sane.awaits.posted, sane.awaits.waits,
          sane.awaits.queue, sane.awaits.distinct, sane.awaits.resumed⟩
        ends := ⟨sane.ends.ended, sane.ends.signals,
          fun unwinding => ⟨rfl, (sane.ends.unwinding unwinding).2⟩, sane.ends.aborts⟩
        canceler := sane.canceler
        active := sane.active
        cancels := sane.cancels
        fits := by
          intro call member
          have fit := sane.fits call member
          cases call with
          | cancelAwait k => exact absurd member (none_pending k)
          | _ => exact fit }
    split
    · simpa using base
    · rename_i k installed
      have awaits : s.phase.awaiting = some k := by rw [← sane.canceler, installed]
      rw [← Multiset.cons_coe, Multiset.cons_add]
      apply Sane.user
      exact { base with
        active := by simpa [activeCall] using base.active
        cancels := by simp [cancelCall, quiet]
        fits := mem_after (by simpa [Fits] using awaits) base.fits }

/-- Something gets ready, or signals. -/
theorem Sane.resolve (sane : Sane s above) (resolves : resolve k s = some s') : Sane s' above := by
  unfold StackfulCoroutine.resolve at resolves
  split at resolves
  · cases resolves
  · rename_i able
    have unresolved : s.resolved k = false := by simpa using fun ready => able (Or.inl ready)
    have absent : k ∉ s.queue := fun listed => by
      have posted := (sane.awaits.posted k listed).1
      rw [unresolved] at posted
      cases posted
    have more (j : ℕ) (ready : s.resolved j = true) :
        Function.update s.resolved k true j = true := by
      by_cases same : j = k
      · rw [same, Function.update_self]
      · rwa [Function.update_of_ne same]
    have fits (s' : State) (phase : s'.phase = s.phase) (canceled : s'.canceled = s.canceled) :
        ∀ call ∈ above, Fits s' call := by
      intro call member
      have fit := sane.fits call member
      cases call with
      | body | exitCoroutine | resumeWork => exact phase.trans fit
      | cancelAwait j => exact ⟨by rw [phase]; exact fit.1, by rw [canceled]; exact fit.2⟩
      | _ => exact fit
    have still (j : ℕ) (pending : Function.update s.resolved k true j = false) :
        s.resolved j = false := by
      by_contra ready
      rw [more j (by simpa using ready)] at pending
      cases pending
    cases resolves
    split
    · rename_i registered
      exact {
        watched := ⟨sane.watched.resumes, sane.watched.history⟩
        awaits := {
          awaiting := sane.awaits.awaiting
          fresh := sane.awaits.fresh
          posted := by
            intro j listed
            rcases List.mem_append.mp listed with old | new
            · exact ⟨more j (sane.awaits.posted j old).1, (sane.awaits.posted j old).2⟩
            · rw [List.mem_singleton.mp new]
              exact ⟨Function.update_self .., registered⟩
          waits := fun j waits pending => sane.awaits.waits j waits (still j pending)
          queue := by
            intro j listed
            rcases List.mem_append.mp listed with old | new
            · exact sane.awaits.queue j old
            · rw [List.mem_singleton.mp new]
              exact sane.awaits.waits k registered unresolved
          distinct := by
            apply List.nodup_append.mpr
            refine ⟨sane.awaits.distinct, List.nodup_singleton _, ?_⟩
            intro j old i new same
            rw [List.mem_singleton.mp new] at same
            exact absent (same ▸ old)
          resumed := sane.awaits.resumed }
        ends := ⟨sane.ends.ended, sane.ends.signals, sane.ends.unwinding, sane.ends.aborts⟩
        canceler := sane.canceler
        active := sane.active
        cancels := sane.cancels
        fits := fits _ rfl rfl }
    · exact {
        watched := ⟨sane.watched.resumes, sane.watched.history⟩
        awaits := ⟨sane.awaits.awaiting, sane.awaits.fresh,
          fun j listed => ⟨more j (sane.awaits.posted j listed).1, (sane.awaits.posted j listed).2⟩,
          fun j waits pending => sane.awaits.waits j waits (still j pending),
          sane.awaits.queue, sane.awaits.distinct, sane.awaits.resumed⟩
        ends := ⟨sane.ends.ended, sane.ends.signals, sane.ends.unwinding, sane.ends.aborts⟩
        canceler := sane.canceler
        active := sane.active
        cancels := sane.cancels
        fits := fits _ rfl rfl }

/-! ## Into the coroutine and out of it -/

/-- What the coroutine finds when it is resumed in an await: either the await was
aborted and everything in the queue is, or its result is there. -/
structure Resumed (s : State) (k : ℕ) (aborted : ℕ → Bool) (queue : List ℕ) : Prop where
  awaits : s.phase.awaiting = some k
  others : ∀ j ≠ k, aborted j = s.aborted j
  sublist : queue.Sublist s.queue
  done : ∀ j ∈ queue, aborted j = true
  canceled : aborted k = true → s.canceled = true
  resolved : aborted k = false → s.resolved k = true

theorem awaitReturns_history (sane : Watched s) : Watched (awaitReturns k s) := by
  unfold awaitReturns
  dsimp only
  have more {e : Bool × Outcome} (fine : e.1 = true → e.2 ≠ .result) :
      ∀ e' ∈ s.history ++ [e], e'.1 = true → e'.2 ≠ .result := by
    intro e' member
    rcases List.mem_append.mp member with old | new
    · exact sane.history e' old
    · rw [List.mem_singleton.mp new]
      exact fine
  split
  · exact ⟨sane.resumes, more (by simp)⟩
  · split
    · exact ⟨sane.resumes, more (by simp)⟩
    · rename_i _ uncanceled
      exact ⟨sane.resumes, more fun canceled => absurd canceled uncanceled⟩

/-- The parts of the state that the end of an await leaves alone. -/
theorem awaitReturns_frame (k : ℕ) (s : State) :
    (awaitReturns k s).phase = s.phase ∧ (awaitReturns k s).canceled = s.canceled ∧
      (awaitReturns k s).canceler = none ∧ (awaitReturns k s).used = s.used ∧
      (awaitReturns k s).resolved = s.resolved ∧ (awaitReturns k s).registered = s.registered ∧
      (awaitReturns k s).aborted = s.aborted ∧ (awaitReturns k s).queue = s.queue ∧
      (awaitReturns k s).resumed = s.resumed ∧ (awaitReturns k s).ended = s.ended ∧
      (awaitReturns k s).signals = s.signals ∧
      (awaitReturns k s).unwinding = (s.unwinding || s.aborted k) := by
  unfold awaitReturns
  dsimp only
  split
  · rename_i aborted
    simp [aborted]
  · rename_i unaborted
    split <;> simp [unaborted]

/-- An await ends in code that runs. -/
theorem Awaits.returns (awaits : Awaits s) (running : s.phase = .running) :
    Awaits (awaitReturns k s) := by
  obtain ⟨phase, -, -, used, resolved, registered, aborted, queue, resumed, -⟩ :=
    awaitReturns_frame k s
  constructor
  · intro j suspended
    rw [phase, running] at suspended
    cases suspended
  · rw [used, registered, aborted, resumed]
    exact awaits.fresh
  · rw [queue, resolved, registered]
    exact awaits.posted
  · rw [registered, resolved, aborted, phase]
    exact awaits.waits
  · rw [queue, aborted, phase]
    exact awaits.queue
  · rw [queue]
    exact awaits.distinct
  · rw [resumed]
    exact awaits.resumed

theorem Ends.returns (ends : Ends s) (running : s.phase = .running)
    (canceled : s.aborted k = true → s.canceled = true) : Ends (awaitReturns k s) := by
  obtain ⟨phase, flagged, -, -, -, -, -, -, -, ended, signals, unwinding⟩ := awaitReturns_frame k s
  constructor
  · rw [ended, phase]
    exact ends.ended
  · rw [signals, ended]
    exact ends.signals
  · rw [unwinding, flagged, phase]
    intro either
    rcases Bool.or_eq_true_iff.mp either with before | aborted
    · exact ends.unwinding before
    · exact ⟨canceled aborted, Or.inl running⟩
  · rw [ended, phase]
    have open_ : s.ended ≠ some .aborted := by
      intro finished
      have closed := ends.ended
      rw [finished, running] at closed
      cases closed
    simp [open_, running, Phase.finished]

theorem Sane.awaits_resumed {aborted : ℕ → Bool} {queue : List ℕ} (sane : Sane s above)
    (resumed : Resumed s k aborted queue) : Awaits { s with
      aborted, queue, phase := .running
      resumed := Function.update s.resumed k (s.resumed k + 1) } := by
  obtain ⟨used, -, unresumed⟩ := sane.awaits.awaiting k resumed.awaits
  constructor
  · intro j suspended
    cases suspended
  · intro j unused
    have other : j ≠ k := by
      rintro rfl
      rw [used] at unused
      cases unused
    obtain ⟨unregistered, unaborted, never⟩ := sane.awaits.fresh j unused
    refine ⟨unregistered, ?_, ?_⟩
    · change aborted j = false
      rw [resumed.others j other, unaborted]
    · change Function.update s.resumed k _ j = 0
      rw [Function.update_of_ne other, never]
  · exact fun j listed => sane.awaits.posted j (resumed.sublist.subset listed)
  · intro j registered pending
    left
    by_cases same : j = k
    · subst same
      by_contra unaborted
      have ready := resumed.resolved (by simpa using unaborted)
      change s.resolved j = false at pending
      rw [ready] at pending
      cases pending
    · change aborted j = true
      rw [resumed.others j same]
      rcases sane.awaits.waits j registered pending with dead | waiting
      · exact dead
      · rw [resumed.awaits] at waiting
        exact absurd (Option.some.inj waiting).symm same
  · exact fun j listed => Or.inl (resumed.done j listed)
  · exact resumed.sublist.nodup sane.awaits.distinct
  · intro j
    change Function.update s.resumed k _ j ≤ 1
    by_cases same : j = k
    · subst same
      rw [Function.update_self, unresumed]
    · rw [Function.update_of_ne same]
      exact sane.awaits.resumed j

/-- **Resuming.**  The coroutine's code runs on, unless the assertion of
`run_coroutine` fails. -/
theorem Sane.resume {aborted : ℕ → Bool} {queue : List ℕ} (sane : Sane s above)
    (resumed : Resumed s k aborted queue) (neutral : ∀ other ∈ above, Neutral other)
    (ran : runCoroutine { s with aborted, queue } = (s', calls)) :
    (s.previous = false ∧ Sane s' (↑calls + above)) ∨
      (s.previous = true ∧ calls = [.crashed] ∧ Watched s') := by
  have phase : s.phase = .suspended k ∨ s.phase = .submitting k := by
    have awaits := resumed.awaits
    cases at_phase : s.phase with
    | suspended j =>
      rw [at_phase] at awaits
      cases awaits
      exact Or.inl rfl
    | submitting j =>
      rw [at_phase] at awaits
      cases awaits
      exact Or.inr rfl
    | _ => rw [at_phase] at awaits; cases awaits
  have step : runCoroutine { s with aborted, queue } =
      if s.previous then ({ s with aborted, queue, assertFailed := true }, [.crashed])
      else (awaitReturns k { s with
        aborted, queue, phase := .running
        resumed := Function.update s.resumed k (s.resumed k + 1) }, [.body]) := by
    unfold runCoroutine
    rcases phase with at_phase | at_phase <;> simp only [at_phase]
  rw [step] at ran
  split at ran
  · rename_i nested
    cases ran
    exact Or.inr ⟨nested, rfl, sane.watched.resumes, sane.watched.history⟩
  · rename_i alone
    cases ran
    refine Or.inl ⟨by simpa using alone, ?_⟩
    have finished : s.phase.finished = false := by
      rcases phase with at_phase | at_phase <;> rw [at_phase] <;> rfl
    have awaits := sane.awaits_resumed resumed
    have ends : Ends { s with
        aborted, queue, phase := .running
        resumed := Function.update s.resumed k (s.resumed k + 1) } := by
      have closed := sane.ends.ended
      rw [finished] at closed
      constructor
      · exact closed
      · exact sane.ends.signals
      · exact fun unwinding => ⟨(sane.ends.unwinding unwinding).1, Or.inl rfl⟩
      · have aborts := sane.ends.aborts
        rw [finished] at aborts
        change s.ended = _ ↔ _ ∧ Phase.finished .running = true
        exact aborts
    obtain ⟨running, -, uninstalled, -⟩ := awaitReturns_frame k { s with
        aborted, queue, phase := .running
        resumed := Function.update s.resumed k (s.resumed k + 1) }
    apply Sane.of_neutral
    · exact awaitReturns_history ⟨sane.watched.resumes, sane.watched.history⟩
    · exact awaits.returns rfl
    · exact ends.returns rfl resumed.canceled
    · rw [uninstalled, running]
      rfl
    · rw [running]
      rfl
    · simp [cancelCall]
    · intro call member
      rw [List.mem_singleton.mp member]
      exact running
    · exact neutral

/-- The awaits in any state that has switched out in the await of `k`. -/
theorem Sane.awaits_switchedBack (sane : Sane s (.body ::ₘ others)) (unused : s.used k = false)
    (phase : s'.phase.awaiting = some k) (used : s'.used = Function.update s.used k true)
    (resolved : s'.resolved = s.resolved)
    (registered : s'.registered = Function.update s.registered k true)
    (aborted : s'.aborted = s.aborted) (resumed : s'.resumed = s.resumed)
    (queue : s'.queue = s.queue ∨ s'.queue = s.queue ++ [k] ∧ s.resolved k = true) :
    Awaits s' := by
  have running : s.phase = .running := sane.fits .body (Multiset.mem_cons_self _ _)
  obtain ⟨unregistered, unaborted, unresumed⟩ := sane.awaits.fresh k unused
  have idle (j : ℕ) : s.phase.awaiting ≠ some j := by rw [running]; exact nofun
  have dead (j : ℕ) (either : s.aborted j = true ∨ s.phase.awaiting = some j) :
      s.aborted j = true := either.resolve_right (idle j)
  have listed (j : ℕ) (member : j ∈ s'.queue) : j ∈ s.queue ∨ j = k ∧ s.resolved k = true := by
    rcases queue with same | ⟨same, ready⟩
    · exact Or.inl (same ▸ member)
    · rw [same] at member
      rcases List.mem_append.mp member with old | new
      · exact Or.inl old
      · exact Or.inr ⟨List.mem_singleton.mp new, ready⟩
  constructor
  · intro j suspended
    rw [phase] at suspended
    obtain rfl := Option.some.inj suspended
    rw [used, aborted, resumed]
    exact ⟨Function.update_self .., unaborted, unresumed⟩
  · intro j fresh
    rw [used] at fresh
    have other : j ≠ k := by
      rintro rfl
      rw [Function.update_self] at fresh
      cases fresh
    rw [Function.update_of_ne other] at fresh
    rw [registered, aborted, resumed, Function.update_of_ne other]
    exact sane.awaits.fresh j fresh
  · intro j member
    rw [resolved, registered]
    rcases listed j member with old | ⟨rfl, ready⟩
    · have posted := sane.awaits.posted j old
      have other : j ≠ k := by
        rintro rfl
        rw [unregistered] at posted
        cases posted.2
      rw [Function.update_of_ne other]
      exact posted
    · exact ⟨ready, Function.update_self ..⟩
  · intro j waits pending
    rw [registered] at waits
    rw [resolved] at pending
    rw [aborted, phase]
    by_cases same : j = k
    · exact Or.inr (by rw [same])
    · rw [Function.update_of_ne same] at waits
      exact Or.inl (dead j (sane.awaits.waits j waits pending))
  · intro j member
    rw [aborted, phase]
    rcases listed j member with old | ⟨rfl, -⟩
    · exact Or.inl (dead j (sane.awaits.queue j old))
    · exact Or.inr rfl
  · rcases queue with same | ⟨same, -⟩
    · rw [same]
      exact sane.awaits.distinct
    · rw [same]
      apply List.nodup_append.mpr
      refine ⟨sane.awaits.distinct, List.nodup_singleton _, ?_⟩
      intro j old i new equal
      rw [List.mem_singleton.mp new] at equal
      have posted := (sane.awaits.posted j old).2
      rw [equal, unregistered] at posted
      cases posted
  · rw [resumed]
    exact sane.awaits.resumed

/-- The coroutine is in an await from now on. -/
theorem Sane.switchedBack (sane : Sane s (.body ::ₘ others)) (unused : s.used k = false)
    (sound : s.unwinding = false) :
    Sane (StackfulCoroutine.switchedBack k
        (setCanceler k { s with used := Function.update s.used k true })).1
      (↑(StackfulCoroutine.switchedBack k
        (setCanceler k { s with used := Function.update s.used k true })).2 + others) := by
  have running : s.phase = .running := sane.fits .body (Multiset.mem_cons_self _ _)
  have neutral := sane.others_neutral (Or.inl rfl)
  have open_ : s.ended = none := by
    have ended := sane.ends.ended
    rw [running] at ended
    exact Option.isNone_iff_eq_none.mp (by simpa [Phase.finished] using ended)
  have ends (s' : State) (finished : s'.phase.finished = false) (ended : s'.ended = s.ended)
      (signals : s'.signals = s.signals) (unwinding : s'.unwinding = s.unwinding) : Ends s' :=
    ⟨by rw [ended, finished, open_]; rfl, by rw [signals, ended]; exact sane.ends.signals,
      fun unwound => (by rw [unwinding, sound] at unwound; cases unwound),
      by rw [ended, open_, finished]; simp⟩
  unfold StackfulCoroutine.switchedBack setCanceler
  dsimp only
  split
  · apply Sane.of_neutral _ _ _ rfl rfl _ _ neutral
    · exact ⟨sane.watched.resumes, sane.watched.history⟩
    · exact sane.awaits_switchedBack unused rfl rfl rfl rfl rfl rfl (Or.inl rfl)
    · exact ends _ rfl rfl rfl rfl
    · simp [cancelCall]
    · simp [Fits]
  · split
    · rename_i ready
      apply Sane.of_neutral _ _ _ rfl rfl _ _ neutral
      · exact ⟨sane.watched.resumes, sane.watched.history⟩
      · exact sane.awaits_switchedBack unused rfl rfl rfl rfl rfl rfl (Or.inr ⟨rfl, ready⟩)
      · exact ends _ rfl rfl rfl rfl
      · simp
      · simp
    · apply Sane.of_neutral _ _ _ rfl rfl _ _ neutral
      · exact ⟨sane.watched.resumes, sane.watched.history⟩
      · exact sane.awaits_switchedBack unused rfl rfl rfl rfl rfl rfl (Or.inl rfl)
      · exact ends _ rfl rfl rfl rfl
      · simp
      · simp

theorem Sane.suspend (sane : Sane s (.body ::ₘ others)) (unused : s.used k = false)
    (sound : s.unwinding = false) (uncanceled : s.canceled = false) :
    Sane (StackfulCoroutine.suspend k s).1 (↑(StackfulCoroutine.suspend k s).2 + others) := by
  have step : StackfulCoroutine.suspend k s =
      StackfulCoroutine.switchedBack k (setCanceler k { s with used := Function.update s.used k true }) :=
    if_neg (by simp [setCanceler, uncanceled])
  rw [step]
  exact sane.switchedBack unused sound

/-- An await of what is ready does not leave the coroutine. -/
theorem Sane.earlyReturn (sane : Sane s (.body ::ₘ others)) (unused : s.used k = false) :
    Sane (awaitReturns k { s with used := Function.update s.used k true }) (.body ::ₘ others) := by
  have running : s.phase = .running := sane.fits .body (Multiset.mem_cons_self _ _)
  have neutral := sane.others_neutral (Or.inl rfl)
  have awaits : Awaits { s with used := Function.update s.used k true } := by
    refine ⟨fun j suspended => ?_, fun j fresh => ?_, sane.awaits.posted, sane.awaits.waits,
      sane.awaits.queue, sane.awaits.distinct, sane.awaits.resumed⟩
    · change s.phase.awaiting = some j at suspended
      rw [running] at suspended
      cases suspended
    · change Function.update s.used k true j = false at fresh
      have other : j ≠ k := by
        rintro rfl
        rw [Function.update_self] at fresh
        cases fresh
      rw [Function.update_of_ne other] at fresh
      exact sane.awaits.fresh j fresh
  have ends : Ends { s with used := Function.update s.used k true } :=
    ⟨sane.ends.ended, sane.ends.signals, sane.ends.unwinding, sane.ends.aborts⟩
  obtain ⟨phase, -, canceler, -⟩ :=
    awaitReturns_frame k { s with used := Function.update s.used k true }
  have still : (awaitReturns k { s with used := Function.update s.used k true }).phase = .running :=
    phase.trans running
  have unaborted := (sane.awaits.fresh k unused).2.1
  rw [← Multiset.singleton_add, ← Multiset.coe_singleton]
  refine Sane.of_neutral ?_ (awaits.returns running) (ends.returns running ?_)
    ?_ ?_ ?_ ?_ neutral
  · exact awaitReturns_history ⟨sane.watched.resumes, sane.watched.history⟩
  · intro aborted
    change s.aborted k = true at aborted
    rw [unaborted] at aborted
    cases aborted
  · rw [canceler, still]
    rfl
  · rw [still]
    rfl
  · simp [cancelCall]
  · intro call member
    rw [List.mem_singleton.mp member]
    exact still

/-- The coroutine moves on between two pieces of its own. -/
theorem Sane.move {phase : Phase} (sane : Sane s (call ::ₘ others)) (active : activeCall call = 1)
    (next : phase.active = weight activeCall (calls : Multiset CoroutineCall))
    (apart : phase.awaiting = none) (before : s.phase.awaiting = none)
    (finished : phase.finished = s.phase.finished) (alive : s.unwinding = true → phase = s.phase ∨ phase.finished = true)
    (cancels : weight cancelCall (calls : Multiset CoroutineCall) = 0)
    (fits : ∀ made ∈ calls, Fits { s with phase } made) : Sane { s with phase } (↑calls + others) := by
  have neutral := sane.others_neutral (Or.inl active)
  refine Sane.of_neutral ⟨sane.watched.resumes, sane.watched.history⟩ ?_ ?_ ?_ next.symm
    (by rw [cancels]; exact Nat.zero_le 1) fits neutral
  · refine ⟨fun j suspended => ?_, sane.awaits.fresh, sane.awaits.posted, fun j waits pending => ?_,
      fun j listed => ?_, sane.awaits.distinct, sane.awaits.resumed⟩
    · change phase.awaiting = some j at suspended
      rw [apart] at suspended
      cases suspended
    · refine Or.inl ((sane.awaits.waits j waits pending).resolve_right fun suspended => ?_)
      rw [before] at suspended
      cases suspended
    · refine Or.inl ((sane.awaits.queue j listed).resolve_right fun suspended => ?_)
      rw [before] at suspended
      cases suspended
  · refine ⟨sane.ends.ended.trans finished.symm, sane.ends.signals, fun unwinding => ?_, ?_⟩
    · obtain ⟨canceled, running | ended⟩ := sane.ends.unwinding unwinding
      · rcases alive unwinding with same | closed
        · exact ⟨canceled, Or.inl (same.trans running)⟩
        · exact ⟨canceled, Or.inr closed⟩
      · exact ⟨canceled, Or.inr (finished.trans ended)⟩
    · change s.ended = _ ↔ _ ∧ phase.finished = true
      rw [finished]
      exact sane.ends.aborts
  · change s.canceler = phase.awaiting
    rw [sane.canceler, apart, before]

/-- The body ends, and the receiver is signalled. -/
theorem Sane.finish {ending : Ending} (sane : Sane s (.body ::ₘ others))
    (how : s.unwinding = true ↔ ending = .aborted) :
    Sane (finishBody ending s).1 (↑(finishBody ending s).2 + others) := by
  have running : s.phase = .running := sane.fits .body (Multiset.mem_cons_self _ _)
  have neutral := sane.others_neutral (Or.inl rfl)
  have open_ : s.ended = none := by
    have ended := sane.ends.ended
    rw [running] at ended
    exact Option.isNone_iff_eq_none.mp (by simpa [Phase.finished] using ended)
  have dead (j : ℕ) (either : s.aborted j = true ∨ s.phase.awaiting = some j) :
      s.aborted j = true := either.resolve_right (by rw [running]; exact nofun)
  apply Sane.of_neutral _ _ _ _ rfl _ _ neutral
  · exact ⟨sane.watched.resumes, sane.watched.history⟩
  · refine ⟨fun j suspended => ?_, sane.awaits.fresh, sane.awaits.posted,
      fun j waits pending => Or.inl (dead j (sane.awaits.waits j waits pending)),
      fun j listed => Or.inl (dead j (sane.awaits.queue j listed)),
      sane.awaits.distinct, sane.awaits.resumed⟩
    cases suspended
  · refine ⟨rfl, ?_, fun unwinding => ⟨(sane.ends.unwinding unwinding).1, Or.inr rfl⟩, ?_⟩
    · have silent := sane.ends.signals
      rw [open_] at silent
      simp [finishBody, silent]
    · simp [finishBody, how, Phase.finished]
  · change s.canceler = none
    rw [sane.canceler, running]
    rfl
  · exact Nat.zero_le 1
  · simp [Fits, finishBody]

/-! ## Steps -/

/-- An await of something that is not ready is not entered once cancelation was
requested. -/
def AwaitsUncanceled (s : State) : CoroutineCall → Choice → Prop
  | .body, .awaitFuture k => s.canceled = true → s.resolved k = true
  | .body, .awaitSender _ => s.canceled = false
  | _, _ => True

/-- The coroutine's own code goes on behind a call. -/
theorem body_again (sane : Sane s (↑calls + CoroutineCall.body ::ₘ others)) :
    Sane s (↑(calls ++ [CoroutineCall.body]) + others) := by
  rwa [← Multiset.coe_add, Multiset.coe_singleton, add_assoc, Multiset.singleton_add]

theorem user_again (sane : Sane s (↑calls + others)) :
    Sane s (↑(calls ++ [CoroutineCall.user]) + others) := by
  have later := sane.user
  rwa [← Multiset.coe_add, Multiset.coe_singleton, add_assoc, Multiset.singleton_add,
    Multiset.add_cons]

theorem body_step (sane : Sane s (.body ::ₘ others)) (clean : AwaitsUncanceled s .body choice)
    (ran : body s choice = some (s', calls)) : Sane s' (↑calls + others) := by
  have running : s.phase = .running := sane.fits .body (Multiset.mem_cons_self _ _)
  have one (sane' : Sane s' (.body ::ₘ others)) (made : calls = [.body]) :
      Sane s' (↑calls + others) := by
    rw [made]
    exact sane'
  cases choice with
  | resolve k =>
    obtain ⟨after, resolved, same⟩ := Option.map_eq_some_iff.mp ran
    cases same
    exact one (sane.resolve resolved) rfl
  | requestCancel =>
    cases ran
    exact body_again sane.request
  | awaitFuture k =>
    simp only [body] at ran
    split at ran
    · cases ran
    · rename_i able
      push Not at able
      obtain ⟨sound, unused, -⟩ := able
      split at ran
      · cases ran
        exact one (sane.earlyReturn (by simpa using unused)) rfl
      · rename_i unready
        have made : suspend k s = (s', calls) := Option.some.inj ran
        have uncanceled : s.canceled = false := by
          simpa using fun canceled => unready (clean canceled)
        have stepped := sane.suspend (by simpa using unused) (by simpa using sound) uncanceled
        rwa [made] at stepped
  | awaitSender k =>
    simp only [body] at ran
    split at ran
    · cases ran
    · rename_i able
      push Not at able
      obtain ⟨sound, unused, -⟩ := able
      have made : suspend k s = (s', calls) := Option.some.inj ran
      have stepped := sane.suspend (by simpa using unused) (by simpa using sound) clean
      rwa [made] at stepped
  | yield k =>
    simp only [body] at ran
    split at ran
    · cases ran
    · rename_i able
      push Not at able
      obtain ⟨sound, unused, future, unready⟩ := able
      split at ran
      · cases ran
        refine one { sane with watched := ⟨sane.watched.resumes, ?_⟩, awaits := ?_, ends := ?_ } rfl
        · intro e member
          rcases List.mem_append.mp member with old | new
          · exact sane.watched.history e old
          · rw [List.mem_singleton.mp new]
            simp
        · exact ⟨sane.awaits.awaiting, sane.awaits.fresh, sane.awaits.posted, sane.awaits.waits,
            sane.awaits.queue, sane.awaits.distinct, sane.awaits.resumed⟩
        · exact ⟨sane.ends.ended, sane.ends.signals, sane.ends.unwinding, sane.ends.aborts⟩
      · rename_i uncanceled
        have fresh : s.used k = false := by simpa using unused
        have ready : resolve k s = some { s with resolved := Function.update s.resolved k true } := by
          simp [resolve, unready, future, (sane.awaits.fresh k fresh).1]
        have made : suspend k { s with resolved := Function.update s.resolved k true } =
            (s', calls) := Option.some.inj ran
        have stepped := (sane.resolve ready).suspend fresh (by simpa using sound)
          (by simpa using uncanceled)
        rwa [made] at stepped
  | dispatch =>
    simp only [body] at ran
    split at ran
    · cases ran
    · rename_i sound
      cases ran
      refine sane.move rfl (by simp [Phase.active, activeCall]) rfl (by rw [running]; rfl)
        (by rw [running]; rfl) (fun unwinding => absurd unwinding sound) (by simp [cancelCall]) ?_
      simp [Fits]
  | finish ending =>
    simp only [body] at ran
    split at ran
    · rename_i how
      have made : finishBody ending s = (s', calls) := Option.some.inj ran
      have stepped := sane.finish how
      rwa [made] at stepped
    · cases ran
  | _ => cases ran

theorem user_step (sane : Sane s (.user ::ₘ others)) (ran : user s choice = some (s', calls)) :
    Sane s' (↑calls + others) := by
  have rest := sane.drop rfl
  cases choice with
  | «return» =>
    cases ran
    simpa using rest
  | submit nested =>
    simp only [user] at ran
    split at ran
    · rename_i fresh
      cases ran
      have neutral := rest.neutral (by rw [fresh]; rfl) (by rw [fresh]; rfl)
      have finished : s.unwinding = false := by
        by_contra unwinding
        have where_ := (rest.ends.unwinding (by simpa using unwinding)).2
        rw [fresh] at where_
        simp [Phase.finished] at where_
      refine Sane.of_neutral
        ⟨rest.watched.resumes, rest.watched.history⟩ ?_ ?_ ?_ rfl ?_ ?_ neutral
      · refine ⟨fun j suspended => ?_, rest.awaits.fresh, rest.awaits.posted,
          fun j waits pending => ?_, fun j listed => ?_, rest.awaits.distinct, rest.awaits.resumed⟩
        · cases suspended
        · refine Or.inl ((rest.awaits.waits j waits pending).resolve_right ?_)
          rw [fresh]
          exact nofun
        · refine Or.inl ((rest.awaits.queue j listed).resolve_right ?_)
          rw [fresh]
          exact nofun
      · have ended := rest.ends.ended
        rw [fresh] at ended
        have aborts := rest.ends.aborts
        rw [fresh] at aborts
        exact ⟨ended, rest.ends.signals, fun unwinding => (by rw [finished] at unwinding; cases unwinding),
          aborts⟩
      · change s.canceler = none
        rw [rest.canceler, fresh]
        rfl
      · simp [cancelCall]
      · simp [Fits]
    · cases ran
  | resolve k =>
    obtain ⟨after, resolved, same⟩ := Option.map_eq_some_iff.mp ran
    cases same
    exact (rest.resolve resolved).user
  | requestCancel =>
    cases ran
    exact user_again rest.request
  | _ => cases ran

theorem exitCoroutine_step (sane : Sane s (.exitCoroutine ::ₘ others)) :
    Sane { s with phase := .deleted, previous := false } others := by
  have signalling : s.phase = .signalling := sane.fits _ (Multiset.mem_cons_self _ _)
  have moved : Sane { s with phase := .deleted } (↑([] : List CoroutineCall) + others) :=
    sane.move rfl rfl rfl (by rw [signalling]; rfl) (by rw [signalling]; rfl) (fun _ => Or.inr rfl)
      rfl (by simp)
  have stepped : Sane { s with phase := .deleted } others := by simpa using moved
  exact {
    watched := ⟨stepped.watched.resumes, stepped.watched.history⟩
    awaits := ⟨stepped.awaits.awaiting, stepped.awaits.fresh, stepped.awaits.posted,
      stepped.awaits.waits, stepped.awaits.queue, stepped.awaits.distinct, stepped.awaits.resumed⟩
    ends := ⟨stepped.ends.ended, stepped.ends.signals, stepped.ends.unwinding, stepped.ends.aborts⟩
    canceler := stepped.canceler
    active := stepped.active
    cancels := stepped.cancels
    fits := fun call member => by
      have fit := stepped.fits call member
      cases call <;> exact fit }

theorem resumeWork_step (sane : Sane s (.resumeWork ::ₘ others)) :
    Sane { s with phase := .running } (.body ::ₘ others) := by
  have dispatched : s.phase = .dispatched := sane.fits _ (Multiset.mem_cons_self _ _)
  rw [← Multiset.singleton_add, ← Multiset.coe_singleton]
  refine sane.move rfl rfl rfl (by rw [dispatched]; rfl)
    (by rw [dispatched]; rfl) (fun unwinding => ?_) rfl (by simp [Fits])
  have where_ := (sane.ends.unwinding unwinding).2
  rw [dispatched] at where_
  simp [Phase.finished] at where_

/-- `run_coroutine` returns after a sender was submitted. -/
theorem submitted_step (sane : Sane s (.submitted ::ₘ others)) : Sane (submitted s) others := by
  have rest := sane.drop rfl
  unfold submitted
  split
  · rename_i k submitting
    have fits : ∀ call ∈ others, Fits { s with phase := .suspended k, previous := false } call := by
      intro call member
      have fit := rest.fits call member
      cases call with
      | body | exitCoroutine | resumeWork =>
        rw [show s.phase = _ from fit] at submitting
        cases submitting
      | cancelAwait j =>
        have awaits := fit.1
        rw [submitting] at awaits
        exact ⟨awaits, fit.2⟩
      | _ => exact fit
    have awaiting (j : ℕ) : (Phase.suspended k).awaiting = some j ↔ s.phase.awaiting = some j := by
      rw [submitting]
      rfl
    have ended := rest.ends.ended
    have aborts := rest.ends.aborts
    have unwinding := rest.ends.unwinding
    rw [submitting] at ended aborts unwinding
    exact {
      watched := ⟨rest.watched.resumes, rest.watched.history⟩
      awaits := ⟨fun j suspended => rest.awaits.awaiting j ((awaiting j).mp suspended),
        rest.awaits.fresh, rest.awaits.posted,
        fun j waits pending => (rest.awaits.waits j waits pending).imp id (awaiting j).mpr,
        fun j listed => (rest.awaits.queue j listed).imp id (awaiting j).mpr,
        rest.awaits.distinct, rest.awaits.resumed⟩
      ends := ⟨ended, rest.ends.signals, fun unwound => ⟨(unwinding unwound).1,
        Or.inr ((unwinding unwound).2.resolve_left nofun)⟩, aborts⟩
      canceler := by
        rw [rest.canceler, submitting]
        rfl
      active := by
        rw [rest.active, submitting]
        rfl
      cancels := rest.cancels
      fits }
  · exact {
      watched := ⟨rest.watched.resumes, rest.watched.history⟩
      awaits := ⟨rest.awaits.awaiting, rest.awaits.fresh, rest.awaits.posted, rest.awaits.waits,
        rest.awaits.queue, rest.awaits.distinct, rest.awaits.resumed⟩
      ends := ⟨rest.ends.ended, rest.ends.signals, rest.ends.unwinding, rest.ends.aborts⟩
      canceler := rest.canceler
      active := rest.active
      cancels := rest.cancels
      fits := fun call member => by
        have fit := rest.fits call member
        cases call <;> exact fit }

/-- The canceler runs the coroutine one last time. -/
theorem cancelAwait_step (sane : Sane s (.cancelAwait k ::ₘ others))
    (ran : cancelAwait k s = (s', calls)) :
    (s.previous = false ∧ Sane s' (↑calls + others)) ∨
      (s.previous = true ∧ calls = [.crashed] ∧ Watched s') := by
  obtain ⟨awaits, canceled⟩ := sane.fits _ (Multiset.mem_cons_self _ _)
  apply (sane.drop rfl).resume (k := k) _ (sane.others_neutral (Or.inr rfl)) ran
  constructor
  · exact awaits
  · exact fun j other => Function.update_of_ne other _ _
  · exact List.Sublist.refl _
  · intro j listed
    by_cases same : j = k
    · rw [same, Function.update_self]
    · rw [Function.update_of_ne same]
      rcases sane.awaits.queue j listed with dead | waiting
      · exact dead
      · rw [awaits] at waiting
        exact absurd (Option.some.inj waiting).symm same
  · exact fun _ => canceled
  · intro unaborted
    rw [Function.update_self] at unaborted
    cases unaborted

/-- The executor runs what was posted: nothing else is going on. -/
theorem continuation_step (sane : Sane s 0) (listed : k ∈ s.queue)
    (ran : continuation k { s with queue := s.queue.erase k } = (s', calls)) :
    Sane s' ↑calls ∨ (s.previous = true ∧ calls = [.crashed] ∧ Watched s') := by
  have sublist : (s.queue.erase k).Sublist s.queue := List.erase_sublist
  unfold continuation at ran
  split at ran
  · cases ran
    refine Or.inl ?_
    exact {
      watched := ⟨sane.watched.resumes, sane.watched.history⟩
      awaits := ⟨sane.awaits.awaiting, sane.awaits.fresh,
        fun j old => sane.awaits.posted j (sublist.subset old), sane.awaits.waits,
        fun j old => sane.awaits.queue j (sublist.subset old),
        sublist.nodup sane.awaits.distinct, sane.awaits.resumed⟩
      ends := ⟨sane.ends.ended, sane.ends.signals, sane.ends.unwinding, sane.ends.aborts⟩
      canceler := sane.canceler
      active := sane.active
      cancels := Nat.zero_le 1
      fits := by simp }
  · rename_i alive
    have unaborted : s.aborted k = false := by simpa using alive
    have awaits : s.phase.awaiting = some k :=
      (sane.awaits.queue k listed).resolve_left fun dead => by rw [unaborted] at dead; cases dead
    have phase : s.phase = .suspended k ∨ s.phase = .submitting k := by
      cases at_phase : s.phase with
      | suspended j | submitting j =>
        rw [at_phase] at awaits
        cases awaits
        first | exact Or.inl rfl | exact Or.inr rfl
      | _ => rw [at_phase] at awaits; cases awaits
    rw [if_pos phase] at ran
    have resumed : Resumed s k s.aborted (s.queue.erase k) := by
      constructor
      · exact awaits
      · exact fun _ _ => rfl
      · exact sublist
      · intro j old
        have other : j ≠ k := by
          rintro rfl
          exact sane.awaits.distinct.not_mem_erase old
        rcases sane.awaits.queue j (sublist.subset old) with dead | waiting
        · exact dead
        · rw [awaits] at waiting
          exact absurd (Option.some.inj waiting).symm other
      · intro dead
        rw [unaborted] at dead
        cases dead
      · exact fun _ => (sane.awaits.posted k listed).1
    rcases sane.resume resumed (by simp) ran with ⟨-, stepped⟩ | crashed
    · exact Or.inl (by simpa using stepped)
    · exact Or.inr crashed

end Tconcurrent.StackfulCoroutine
