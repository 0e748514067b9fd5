import Tconcurrent.StacklessCoroutine

/-! A stackless coroutine is destroyed while it is suspended, unless its own code, or its
receiver, requests that after it has been suspended once.

The canceler is installed when `submit` returns and stays until the receiver resets the
token, so where the coroutine is decides what a request finds. -/
namespace Tconcurrent.StacklessCoroutine
open Interleaving

variable {s s' : State} {calls above rest : List CoroutineCall} {call : CoroutineCall}
  {choice : Choice} {k : ℕ}

namespace Phase

/-- The await that all frames are suspended in. -/
def awaiting : Phase → Option ℕ
  | suspending k => some k
  | suspended k => some k
  | _ => none

/-- The call of the coroutine that is being made. -/
def frame : Phase → List CoroutineCall
  | running => [.body]
  | suspending k => [.suspending k]
  | signalling => [.signalling]
  | destroying => [.destroying]
  | reporting => [.reporting]
  | _ => []

/-- `keep_alive` is set. -/
def live : Phase → Bool
  | unsubmitted => false
  | ended => false
  | _ => true

/-- There is a frame, which `coroutine_holder::coro` refers to. -/
def attached : Phase → Bool
  | running | suspending _ | suspended _ | signalling | destroying => true
  | _ => false

/-- The receiver is being signalled, or was. -/
def signaled : Phase → Bool
  | signalling | reporting | ended => true
  | _ => false

/-- The frames are being destroyed, or are gone. -/
def gone : Phase → Bool
  | destroying | reporting | ended => true
  | _ => false

theorem awaiting_cases {phase : Phase} (current : phase.awaiting = some k) :
    phase = .suspending k ∨ phase = .suspended k := by
  cases phase with
  | suspending j =>
    obtain rfl := Option.some.inj current
    exact Or.inl rfl
  | suspended j =>
    obtain rfl := Option.some.inj current
    exact Or.inr rfl
  | _ => cases current

/-- While the frames are suspended they are there, and nothing was signaled. -/
theorem of_awaiting {phase : Phase} (current : phase.awaiting = some k) :
    phase.attached = true ∧ phase.live = true ∧ phase.signaled = false ∧ phase.gone = false := by
  rcases awaiting_cases current with rfl | rfl
  · exact ⟨rfl, rfl, rfl, rfl⟩
  · exact ⟨rfl, rfl, rfl, rfl⟩

end Phase

/-- The frames are used while they may be, and the receiver is signalled once. -/
structure DestroysSuspended (s : State) : Prop where
  done : s.badDone = false
  destroy : s.badDestroy = false
  resume : s.badResume = false
  once : s.signals.length ≤ 1
  reports : s.phase = .ended → s.signals.length = 1
  assertFailed : s.assertFailed = false

/-- No cancelation is requested while the coroutine's code runs after it has been
suspended once, and none after that until the receiver has reset its token. -/
def RequestsSuspended (s : State) (_ : CoroutineCall) (choice : Choice) : Prop :=
  choice = .requestCancel →
    s.canceled = true ∨ s.wasSuspended = false ∨ s.tokenReset = true ∨ s.phase.awaiting.isSome = true

structure Sane (s : State) : Prop where
  canceler : s.canceler = true → s.wasSuspended = true ∧ s.tokenReset = false
  fresh_token : s.tokenReset = true → s.phase.signaled = true
  keepAlive : s.keepAlive = s.phase.live
  attached : s.phase.attached = true → s.coro = true
  ended : s.phase = .ended → s.canceled = false → s.coro = true
  destroyed : s.phase = .destroying ∨ s.phase = .reporting → s.canceled = true
  unsubmitted : s.phase = .unsubmitted → s.wasSuspended = false
  suspended : ∀ k, s.phase = .suspended k → s.wasSuspended = true
  awaiting : ∀ k, s.phase.awaiting = some k →
    s.used k = true ∧ s.registered k = true ∧ s.dead k = false
  fresh : ∀ k, s.used k = false → s.registered k = false ∧ s.dead k = false
  waits : ∀ k, s.registered k = true → s.dead k = false → s.phase.awaiting = some k
  queue : ∀ k ∈ s.queue, s.registered k = true
  signals : s.signals.length = s.phase.signaled.toNat
  done : s.badDone = false
  destroy : s.badDestroy = false
  resume : s.badResume = false
  assertFailed : s.assertFailed = false

/-! ## What is on the agenda -/

/-- What may be left under the coroutine's own call: the end of `submit`, or the
`await_suspend` in which it was destroyed, and where that may end. -/
inductive Below (s : State) : List CoroutineCall → Prop where
  | nothing : Below s []
  | resumed (uninstalled : s.canceler = false) (submitted : s.phase ≠ .unsubmitted)
      (first : s.wasSuspended = true → ∃ k, s.phase = .suspended k) : Below s [.resumed]
  | suspending (k : ℕ) (gone : s.phase.gone = true) : Below s [.suspending k]
  | crashed (gone : s.phase.gone = true) : Below s [.crashed]

/-- Above the loop of the executor there is user code and the coroutine. -/
def Above (s : State) (above : List CoroutineCall) : Prop :=
  ∃ below, Below s below ∧ above.filter (· ≠ .user) = s.phase.frame ++ below

theorem Above.user (placed : Above s (.user :: above)) : Above s above := by
  obtain ⟨below, left, split⟩ := placed
  exact ⟨below, left, by simpa using split⟩

theorem Phase.frame_short {phase : Phase} :
    phase.frame = [] ∨ ∃ call, phase.frame = [call] := by
  cases phase with
  | unsubmitted | suspended | ended => exact Or.inl rfl
  | running | suspending | signalling | destroying | reporting => exact Or.inr ⟨_, rfl⟩

/-- A call of the coroutine is what it is doing, or is left from before. -/
theorem Above.own (placed : Above s (call :: above)) (own : call ≠ .user) :
    (s.phase.frame = [call] ∧ Below s (above.filter (· ≠ .user))) ∨
      (s.phase.frame = [] ∧ Below s [call] ∧ above.filter (· ≠ .user) = []) := by
  obtain ⟨below, left, split⟩ := placed
  rw [List.filter_cons_of_pos (by simpa using own)] at split
  rcases s.phase.frame_short with empty | ⟨current, only⟩
  · rw [empty, List.nil_append] at split
    refine Or.inr ⟨empty, ?_⟩
    cases below with
    | nil => cases split
    | cons next tail =>
      obtain ⟨rfl, same⟩ := List.cons.inj split
      have alone : tail = [] := by cases left <;> rfl
      subst alone
      exact ⟨left, same⟩
  · rw [only] at split
    obtain ⟨rfl, same⟩ := List.cons.inj split
    exact Or.inl ⟨only, same ▸ left⟩

/-- What decides where calls may be is the same. -/
def Agree (s s' : State) : Prop :=
  s'.phase = s.phase ∧ s'.canceler = s.canceler ∧ s'.wasSuspended = s.wasSuspended

theorem Below.agree (left : Below s rest) (agree : Agree s s') : Below s' rest := by
  obtain ⟨phase, canceler, suspended⟩ := agree
  cases left with
  | nothing => exact .nothing
  | resumed uninstalled submitted first =>
    exact .resumed (by rw [canceler, uninstalled]) (by rwa [phase]) (by rwa [phase, suspended])
  | suspending k gone => exact .suspending k (by rwa [phase])
  | crashed gone => exact .crashed (by rwa [phase])

/-- The coroutine goes on to something else. -/
theorem Below.move (left : Below s rest) (canceler : s'.canceler = true → s.canceler = true)
    (going : s'.phase ≠ .unsubmitted) (gone : s.phase.gone = true → s'.phase.gone = true)
    (first : s'.wasSuspended = true → (∃ k, s'.phase = .suspended k) ∨
      (s.wasSuspended = true ∧ ∀ k, s.phase ≠ .suspended k)) : Below s' rest := by
  cases left with
  | nothing => exact .nothing
  | resumed uninstalled submitted before =>
    refine .resumed ?_ going fun suspended => ?_
    · cases installed : s'.canceler with
      | false => rfl
      | true =>
        rw [canceler installed] at uninstalled
        cases uninstalled
    · rcases first suspended with now | ⟨then_too, other⟩
      · exact now
      · obtain ⟨k, phase⟩ := before then_too
        exact absurd phase (other k)
  | suspending k was_gone => exact .suspending k (gone was_gone)
  | crashed was_gone => exact .crashed (gone was_gone)

theorem Above.agree (placed : Above s above) (agree : Agree s s') : Above s' above := by
  obtain ⟨below, left, split⟩ := placed
  exact ⟨below, left.agree agree, by rwa [agree.1]⟩

/-! ## Requests and signals -/

theorem Sane.resolve (sane : Sane s) (ran : resolve k s = some s') : Sane s' ∧ Agree s s' := by
  unfold StacklessCoroutine.resolve at ran
  split at ran
  · cases ran
  · obtain rfl := Option.some.inj ran
    split
    · rename_i posted
      refine ⟨{ sane with queue := fun j member => ?_ }, rfl, rfl, rfl⟩
      rcases List.mem_append.mp member with member | member
      · exact sane.queue j member
      · obtain rfl := List.mem_singleton.mp member
        exact posted.1
    · exact ⟨{ sane with }, rfl, rfl, rfl⟩

/-- Once the continuation of what is awaited is dead, no other one is left that waits. -/
theorem Sane.dead_awaited (sane : Sane s) (awaited : s.phase.awaiting = some k) :
    (∀ j, s.used j = false →
      s.registered j = false ∧ Function.update s.dead k true j = false) ∧
    ∀ j, s.registered j = true → Function.update s.dead k true j ≠ false := by
  constructor
  · intro j untouched
    have other : j ≠ k := by
      rintro rfl
      rw [(sane.awaiting j awaited).1] at untouched
      cases untouched
    obtain ⟨silent, alive⟩ := sane.fresh j untouched
    exact ⟨silent, (Function.update_of_ne other _ _).trans alive⟩
  · intro j registered alive
    by_cases same : j = k
    · simp [same] at alive
    · have before := sane.waits j registered (by simpa [same] using alive)
      rw [awaited] at before
      exact absurd (Option.some.inj before).symm same

/-- The canceler finds the coroutine suspended. -/
theorem Sane.cancel (sane : Sane s) (current : s.phase.awaiting = some k)
    (canceled : s.canceled = true) :
    ∃ s', cancel s = (s', [.destroying]) ∧ Sane s' ∧ s'.phase = .destroying := by
  obtain ⟨attachment, living, unsignaled, -⟩ := Phase.of_awaiting current
  have attached := sane.attached attachment
  have live : s.keepAlive = true := by rw [sane.keepAlive, living]
  refine ⟨{ s with
    phase := .destroying, frames := 0, dead := Function.update s.dead k true }, ?_, ?_, rfl⟩
  · unfold StacklessCoroutine.cancel
    rw [if_pos attached]
    rcases Phase.awaiting_cases current with phase | phase
    · rw [phase]
    · rw [phase]
  · refine { sane with
      fresh_token := ?_, keepAlive := live, attached := fun _ => attached
      ended := fun bad => (by cases bad), destroyed := fun _ => canceled
      unsubmitted := fun bad => (by cases bad), suspended := fun j bad => (by cases bad)
      awaiting := fun j bad => (by cases bad), fresh := ?_, waits := ?_, signals := ?_ }
    · intro reset
      rw [sane.fresh_token reset] at unsignaled
      cases unsignaled
    · exact (sane.dead_awaited current).1
    · exact fun j registered alive => absurd alive ((sane.dead_awaited current).2 j registered)
    · rw [sane.signals, unsignaled]
      rfl

/-- A request does nothing but set the flag, or it destroys a coroutine that is suspended. -/
theorem Sane.requestCancel (sane : Sane s)
    (permitted : s.canceled = true ∨ s.wasSuspended = false ∨ s.tokenReset = true ∨
      s.phase.awaiting.isSome = true) (ran : requestCancel s = (s', calls)) :
    Sane s' ∧ ((calls = [] ∧ Agree s s') ∨
      (calls = [.destroying] ∧ s'.phase = .destroying ∧ s.canceler = true ∧
        s.phase.awaiting.isSome = true)) := by
  unfold StacklessCoroutine.requestCancel at ran
  split at ran
  · obtain ⟨rfl, rfl⟩ := Prod.mk.inj ran
    exact ⟨sane, Or.inl ⟨rfl, rfl, rfl, rfl⟩⟩
  · rename_i uncanceled
    have requested : Sane { s with canceled := true } :=
      { sane with ended := fun _ bad => (by cases bad), destroyed := fun _ => rfl }
    split at ran
    · rename_i installed
      have waiting : s.phase.awaiting.isSome = true := by
        obtain ⟨suspended, used⟩ := sane.canceler installed
        rcases permitted with bad | bad | bad | waiting
        · exact absurd bad uncanceled
        · rw [suspended] at bad
          cases bad
        · rw [used] at bad
          cases bad
        · exact waiting
      obtain ⟨k, current⟩ := Option.isSome_iff_exists.mp waiting
      obtain ⟨next, canceled, after, phase⟩ := requested.cancel current rfl
      rw [canceled] at ran
      obtain ⟨rfl, rfl⟩ := Prod.mk.inj ran
      exact ⟨after, Or.inr ⟨rfl, phase, installed, waiting⟩⟩
    · obtain ⟨rfl, rfl⟩ := Prod.mk.inj ran
      exact ⟨requested, Or.inl ⟨rfl, rfl, rfl, rfl⟩⟩

/-- Wherever it is called from. -/
theorem request_step (sane : Sane s) (placed : Above s above)
    (permitted : RequestsSuspended s call .requestCancel)
    (ran : requestCancel s = (s', calls)) : Sane s' ∧ Above s' (calls ++ above) := by
  obtain ⟨after, ⟨rfl, agree⟩ | ⟨rfl, phase, installed, waiting⟩⟩ :=
    sane.requestCancel (permitted rfl) ran
  · exact ⟨after, placed.agree agree⟩
  · refine ⟨after, s.phase.frame, ?_, ?_⟩
    · cases current : s.phase with
      | suspending k => exact .suspending k (by rw [phase]; rfl)
      | suspended k => exact .nothing
      | _ => simp [current, Phase.awaiting] at waiting
    · obtain ⟨below, left, split⟩ := placed
      have nothing : below = [] := by
        cases left with
        | nothing => rfl
        | resumed uninstalled =>
          rw [uninstalled] at installed
          cases installed
        | suspending | crashed =>
          cases current : s.phase <;> simp_all [Phase.awaiting, Phase.gone]
      rw [List.singleton_append, List.filter_cons_of_pos (by simp), split, nothing, phase]
      simp [Phase.frame]

/-- The call that has made the request goes on after it. -/
theorem request_again (sane : Sane s) (placed : Above s (call :: above))
    (permitted : RequestsSuspended s call .requestCancel)
    (ran : some ((requestCancel s).1, (requestCancel s).2 ++ [call]) = some (s', calls)) :
    Sane s' ∧ Above s' (calls ++ above) := by
  obtain ⟨rfl, rfl⟩ := Prod.mk.inj (Option.some.inj ran)
  rw [List.append_assoc]
  exact request_step sane placed permitted rfl

theorem resolve_again (sane : Sane s) (placed : Above s (call :: above))
    (ran : (resolve k s).map (fun s => (s, [call])) = some (s', calls)) :
    Sane s' ∧ Above s' (calls ++ above) := by
  obtain ⟨next, signaled, same⟩ := Option.map_eq_some_iff.mp ran
  cases same
  obtain ⟨after, agree⟩ := sane.resolve signaled
  exact ⟨after, placed.agree agree⟩

/-! ## The coroutine's own steps -/

/-- What is awaited is ready. -/
theorem Sane.earlyReturn (sane : Sane s) (current : s.phase = .running) :
    Sane { s with awaited := true, used := Function.update s.used k true } := by
  refine { sane with awaiting := ?_, fresh := ?_ }
  · intro j bad
    rw [current] at bad
    cases bad
  · intro j untouched
    have other : j ≠ k := by
      rintro rfl
      simp at untouched
    exact sane.fresh j (by simpa [other] using untouched)

theorem Sane.await (sane : Sane s) (current : s.phase = .running) (unused : s.used k = false)
    (queue : List ℕ) (posted : queue = s.queue ∨ queue = s.queue ++ [k]) :
    Sane { s with
      phase := .suspending k, awaited := true, used := Function.update s.used k true
      registered := Function.update s.registered k true, queue } := by
  obtain ⟨silent, alive⟩ := sane.fresh k unused
  refine { sane with
    fresh_token := ?_, keepAlive := ?_, attached := fun _ => sane.attached (by rw [current]; rfl)
    ended := fun bad => (by cases bad), destroyed := ?_, unsubmitted := fun bad => (by cases bad)
    suspended := fun j bad => (by cases bad), awaiting := ?_, fresh := ?_, waits := ?_
    queue := ?_, signals := ?_ }
  · intro reset
    have signaled := sane.fresh_token reset
    rw [current] at signaled
    cases signaled
  · rw [sane.keepAlive, current]
    rfl
  · rintro (bad | bad)
    · cases bad
    · cases bad
  · intro j awaited
    obtain rfl := Option.some.inj awaited
    exact ⟨Function.update_self .., Function.update_self .., alive⟩
  · intro j untouched
    have other : j ≠ k := by
      rintro rfl
      simp at untouched
    obtain ⟨unregistered, living⟩ := sane.fresh j (by simpa [other] using untouched)
    exact ⟨(Function.update_of_ne other _ _).trans unregistered, living⟩
  · intro j registered living
    by_cases same : j = k
    · rw [same]
      rfl
    · have before := sane.waits j (by simpa [same] using registered) living
      rw [current] at before
      cases before
  · intro j member
    by_cases same : j = k
    · simp [same]
    · refine (Function.update_of_ne same _ _).trans (sane.queue j ?_)
      rcases posted with rfl | rfl
      · exact member
      · simpa [same] using member
  · rw [sane.signals, current]
    rfl

/-- The innermost frame goes on, and the awaiter is destroyed. -/
theorem Sane.goOn (sane : Sane s) (awaited : s.phase.awaiting = some k) :
    Sane { s with phase := .running, dead := Function.update s.dead k true } := by
  obtain ⟨attached, living, unsignaled, -⟩ := Phase.of_awaiting awaited
  refine { sane with
    fresh_token := ?_, keepAlive := ?_, attached := fun _ => sane.attached attached
    ended := fun bad => (by cases bad), destroyed := ?_, unsubmitted := fun bad => (by cases bad)
    suspended := fun j bad => (by cases bad), awaiting := fun j bad => (by cases bad)
    fresh := ?_, waits := ?_, signals := ?_ }
  · intro reset
    rw [sane.fresh_token reset] at unsignaled
    cases unsignaled
  · rw [sane.keepAlive, living]
    rfl
  · rintro (bad | bad)
    · cases bad
    · cases bad
  · exact (sane.dead_awaited awaited).1
  · exact fun j registered alive => absurd alive ((sane.dead_awaited awaited).2 j registered)
  · rw [sane.signals, unsignaled]
    rfl

theorem Sane.suspend (sane : Sane s) (current : s.phase = .suspending k) :
    Sane { s with phase := .suspended k, starts := 0, wasSuspended := true } := by
  have same : s.phase.awaiting = (Phase.suspended k).awaiting := by rw [current]; rfl
  refine { sane with
    canceler := fun installed => ⟨rfl, (sane.canceler installed).2⟩
    fresh_token := ?_, keepAlive := ?_, attached := fun _ => sane.attached (by rw [current]; rfl)
    ended := fun bad => (by cases bad), destroyed := ?_, unsubmitted := fun bad => (by cases bad)
    suspended := fun _ _ => rfl, awaiting := ?_, waits := ?_, signals := ?_ }
  · intro reset
    have signaled := sane.fresh_token reset
    rw [current] at signaled
    cases signaled
  · rw [sane.keepAlive, current]
    rfl
  · rintro (bad | bad)
    · cases bad
    · cases bad
  · rw [← same]
    exact sane.awaiting
  · rw [← same]
    exact sane.waits
  · rw [sane.signals, current]
    rfl

/-- No frame is suspended, neither before nor after. -/
theorem Sane.move (sane : Sane s) {phase : Phase} {frames : ℕ} {coro keepAlive : Bool}
    {signals : List Signal}
    (idle : s.phase.awaiting = none) (still : phase.awaiting = none)
    (submitted : phase ≠ .unsubmitted) (living : keepAlive = phase.live)
    (attached : phase.attached = true → coro = true)
    (ended : phase = .ended → s.canceled = false → coro = true)
    (destroyed : phase = .destroying ∨ phase = .reporting → s.canceled = true)
    (signaled : phase.signaled = true) (once : signals.length = 1) :
    Sane { s with phase, frames, coro, keepAlive, signals } := by
  refine { sane with
    fresh_token := fun _ => signaled, keepAlive := living, attached, ended, destroyed
    unsubmitted := fun bad => absurd bad submitted, suspended := ?_, awaiting := ?_, waits := ?_
    signals := ?_ }
  · rintro k rfl
    cases still
  · intro k awaited
    rw [still] at awaited
    cases awaited
  · intro k registered alive
    have before := sane.waits k registered alive
    rw [idle] at before
    cases before
  · rw [once, signaled]
    rfl

/-- The receiver is signalled by the outermost frame. -/
theorem Sane.signal (sane : Sane s) (current : s.phase = .running) (signal : Signal) :
    Sane { s with phase := .signalling, signals := s.signals ++ [signal] } := by
  apply sane.move
  case idle => rw [current]; rfl
  case still => rfl
  case submitted => simp
  case living => rw [sane.keepAlive, current]; rfl
  case attached => exact fun _ => sane.attached (by rw [current]; rfl)
  case ended => simp
  case destroyed => simp
  case signaled => rfl
  case once =>
    rw [List.length_append, sane.signals, current]
    rfl

theorem body_step (sane : Sane s) (placed : Above s (.body :: above))
    (permitted : RequestsSuspended s .body choice) (ran : body s choice = some (s', calls)) :
    Sane s' ∧ Above s' (calls ++ above) := by
  obtain ⟨framed, left⟩ | ⟨-, left, -⟩ := placed.own (by simp)
  · have current : s.phase = .running := by
      cases phase : s.phase with
      | running => rfl
      | _ => simp [phase, Phase.frame] at framed
    have moves : ∀ {next : State}, next.canceler = s.canceler →
        next.wasSuspended = s.wasSuspended → next.phase ≠ .unsubmitted →
        Below next (above.filter (· ≠ .user)) := by
      intro next canceler suspended going
      refine left.move (by rw [canceler]; exact id) going (by simp [current, Phase.gone]) fun was => ?_
      exact Or.inr ⟨by rw [← suspended, was], by simp [current]⟩
    cases choice with
    | resolve k =>
      simp only [body] at ran
      split at ran
      · cases ran
      · exact resolve_again sane placed ran
    | requestCancel =>
      simp only [body] at ran
      split at ran
      · cases ran
      · exact request_again sane placed permitted ran
    | call =>
      simp only [body] at ran
      split at ran
      · cases ran
      · obtain ⟨rfl, rfl⟩ := Prod.mk.inj (Option.some.inj ran)
        exact ⟨{ sane with }, placed.agree ⟨rfl, rfl, rfl⟩⟩
    | await k early =>
      simp only [body] at ran
      split at ran
      · cases ran
      · rename_i fits
        push Not at fits
        have unused : s.used k = false := by simpa using fits.2
        simp only [await] at ran
        split at ran
        · obtain ⟨rfl, rfl⟩ := Prod.mk.inj (Option.some.inj ran)
          exact ⟨sane.earlyReturn current, placed.agree ⟨rfl, rfl, rfl⟩⟩
        · split at ran
          · obtain ⟨rfl, rfl⟩ := Prod.mk.inj (Option.some.inj ran)
            refine ⟨sane.await current unused _ (Or.inr rfl), above.filter (· ≠ .user),
              moves rfl rfl (by simp), ?_⟩
            simp [Phase.frame]
          · obtain ⟨rfl, rfl⟩ := Prod.mk.inj (Option.some.inj ran)
            refine ⟨sane.await current unused _ (Or.inl rfl), above.filter (· ≠ .user),
              moves rfl rfl (by simp), ?_⟩
            simp [Phase.frame]
    | finish ending =>
      simp only [body] at ran
      split at ran
      · cases ran
      · simp only [finish] at ran
        split at ran
        · obtain ⟨rfl, rfl⟩ := Prod.mk.inj (Option.some.inj ran)
          exact ⟨{ sane with }, placed.agree ⟨rfl, rfl, rfl⟩⟩
        · obtain ⟨rfl, rfl⟩ := Prod.mk.inj (Option.some.inj ran)
          refine ⟨sane.signal current _, above.filter (· ≠ .user), moves rfl rfl (by simp), ?_⟩
          simp [Phase.frame]
    | «return» | throw | task | continuation | submit | reset => cases ran
  · cases left

theorem suspending_step (sane : Sane s) (placed : Above s (.suspending k :: above))
    (permitted : RequestsSuspended s (.suspending k) choice)
    (ran : suspending k s choice = some (s', calls)) : Sane s' ∧ Above s' (calls ++ above) := by
  cases choice with
  | resolve j => exact resolve_again sane placed ran
  | requestCancel => exact request_again sane placed permitted ran
  | «return» =>
    simp only [suspending] at ran
    split at ran
    · rename_i current
      obtain ⟨rfl, rfl⟩ := Prod.mk.inj (Option.some.inj ran)
      refine ⟨sane.suspend current, above.filter (· ≠ .user), ?_, rfl⟩
      obtain ⟨-, left⟩ | ⟨framed, -, -⟩ := placed.own (by simp)
      · exact left.move id (by simp) (by simp [current, Phase.gone]) fun _ => Or.inl ⟨k, rfl⟩
      · simp [current, Phase.frame] at framed
    · rename_i destroyed
      obtain ⟨framed, -⟩ | ⟨framed, left, alone⟩ := placed.own (by simp)
      · cases phase : s.phase <;> simp_all [Phase.frame]
      · split at ran
        · obtain ⟨rfl, rfl⟩ := Prod.mk.inj (Option.some.inj ran)
          exact ⟨sane, [], .nothing, by rw [framed]; exact alone⟩
        · obtain ⟨rfl, rfl⟩ := Prod.mk.inj (Option.some.inj ran)
          cases left with
          | suspending k gone =>
            refine ⟨{ sane with }, [.crashed], .crashed gone, ?_⟩
            rw [List.singleton_append, List.filter_cons_of_pos (by simp), alone]
            simp [framed]
  | throw =>
    simp only [suspending] at ran
    split at ran
    · cases ran
    · split at ran
      · rename_i current
        obtain ⟨rfl, rfl⟩ := Prod.mk.inj (Option.some.inj ran)
        refine ⟨sane.goOn (by rw [current]; rfl), above.filter (· ≠ .user), ?_, by simp [Phase.frame]⟩
        obtain ⟨-, left⟩ | ⟨framed, -, -⟩ := placed.own (by simp)
        · exact left.move id (by simp) (by simp [current, Phase.gone]) fun was =>
            Or.inr ⟨was, by simp [current]⟩
        · simp [current, Phase.frame] at framed
      · obtain ⟨rfl, rfl⟩ := Prod.mk.inj (Option.some.inj ran)
        obtain ⟨framed, -⟩ | ⟨framed, left, alone⟩ := placed.own (by simp)
        · cases phase : s.phase <;> simp_all [Phase.frame]
        · cases left with
          | suspending k gone =>
            refine ⟨{ sane with }, [.crashed], .crashed gone, ?_⟩
            rw [List.singleton_append, List.filter_cons_of_pos (by simp), alone]
            simp [framed]
  | task | continuation | submit | reset | call | await | finish => cases ran

/-- The receiver resets its token while it is signalled. -/
theorem Sane.reset (sane : Sane s) (signaled : s.phase.signaled = true) :
    Sane { s with canceler := false, tokenReset := true } :=
  { sane with canceler := fun bad => (by cases bad), fresh_token := fun _ => signaled }

theorem signalling_step (sane : Sane s) (placed : Above s (.signalling :: above))
    (permitted : RequestsSuspended s .signalling choice)
    (ran : signalling s choice = some (s', calls)) : Sane s' ∧ Above s' (calls ++ above) := by
  obtain ⟨framed, left⟩ | ⟨-, left, -⟩ := placed.own (by simp)
  · have current : s.phase = .signalling := by
      cases phase : s.phase with
      | signalling => rfl
      | _ => simp [phase, Phase.frame] at framed
    cases choice with
    | resolve k => exact resolve_again sane placed ran
    | requestCancel => exact request_again sane placed permitted ran
    | reset =>
      obtain ⟨rfl, rfl⟩ := Prod.mk.inj (Option.some.inj ran)
      refine ⟨sane.reset (by rw [current]; rfl), above.filter (· ≠ .user), ?_, ?_⟩
      · exact left.move (fun bad => by cases bad) (by simp [current]) id fun was =>
          Or.inr ⟨was, by simp [current]⟩
      · simp [current, Phase.frame]
    | «return» =>
      obtain ⟨rfl, rfl⟩ := Prod.mk.inj (Option.some.inj ran)
      refine ⟨?_, above.filter (· ≠ .user), ?_, rfl⟩
      · apply sane.move
        case idle => rw [current]; rfl
        case still => rfl
        case submitted => simp
        case living => rfl
        case attached => exact fun bad => by cases bad
        case ended => exact fun _ _ => sane.attached (by rw [current]; rfl)
        case destroyed => simp
        case signaled => rfl
        case once => rw [sane.signals, current]; rfl
      · exact left.move id (by simp) (fun _ => rfl) fun was => Or.inr ⟨was, by simp [current]⟩
    | throw | task | continuation | submit | call | await | finish => cases ran
  · cases left

theorem destroying_step (sane : Sane s) (placed : Above s (.destroying :: above))
    (permitted : RequestsSuspended s .destroying choice)
    (ran : destroying s choice = some (s', calls)) : Sane s' ∧ Above s' (calls ++ above) := by
  obtain ⟨framed, left⟩ | ⟨-, left, -⟩ := placed.own (by simp)
  · have current : s.phase = .destroying := by
      cases phase : s.phase with
      | destroying => rfl
      | _ => simp [phase, Phase.frame] at framed
    cases choice with
    | resolve k => exact resolve_again sane placed ran
    | requestCancel => exact request_again sane placed permitted ran
    | «return» =>
      obtain ⟨rfl, rfl⟩ := Prod.mk.inj (Option.some.inj ran)
      refine ⟨?_, above.filter (· ≠ .user), ?_, by simp [Phase.frame]⟩
      · apply sane.move
        case idle => rw [current]; rfl
        case still => rfl
        case submitted => simp
        case living => rw [sane.keepAlive, current]; rfl
        case attached => exact fun bad => by cases bad
        case ended => simp
        case destroyed => exact fun _ => sane.destroyed (Or.inl current)
        case signaled => rfl
        case once =>
          rw [List.length_append, sane.signals, current]
          rfl
      · exact left.move id (by simp) (fun _ => rfl) fun was => Or.inr ⟨was, by simp [current]⟩
    | throw | task | continuation | submit | reset | call | await | finish => cases ran
  · cases left

theorem reporting_step (sane : Sane s) (placed : Above s (.reporting :: above))
    (permitted : RequestsSuspended s .reporting choice)
    (ran : reporting s choice = some (s', calls)) : Sane s' ∧ Above s' (calls ++ above) := by
  obtain ⟨framed, left⟩ | ⟨-, left, -⟩ := placed.own (by simp)
  · have current : s.phase = .reporting := by
      cases phase : s.phase with
      | reporting => rfl
      | _ => simp [phase, Phase.frame] at framed
    have canceled := sane.destroyed (Or.inr current)
    cases choice with
    | resolve k => exact resolve_again sane placed ran
    | requestCancel => exact request_again sane placed permitted ran
    | reset =>
      obtain ⟨rfl, rfl⟩ := Prod.mk.inj (Option.some.inj ran)
      refine ⟨sane.reset (by rw [current]; rfl), above.filter (· ≠ .user), ?_, ?_⟩
      · exact left.move (fun bad => by cases bad) (by simp [current]) id fun was =>
          Or.inr ⟨was, by simp [current]⟩
      · simp [current, Phase.frame]
    | «return» =>
      obtain ⟨rfl, rfl⟩ := Prod.mk.inj (Option.some.inj ran)
      refine ⟨?_, above.filter (· ≠ .user), ?_, rfl⟩
      · apply sane.move
        case idle => rw [current]; rfl
        case still => rfl
        case submitted => simp
        case living => rfl
        case attached => exact fun bad => by cases bad
        case ended =>
          intro _ uncanceled
          rw [canceled] at uncanceled
          cases uncanceled
        case destroyed => simp
        case signaled => rfl
        case once => rw [sane.signals, current]; rfl
      · exact left.move id (by simp) (fun _ => rfl) fun was => Or.inr ⟨was, by simp [current]⟩
    | throw | task | continuation | submit | call | await | finish => cases ran
  · cases left

/-! ## Every step -/

/-- `submit` installs the canceler, which destroys the coroutine at once if cancelation
was requested before. -/
theorem resumed_step (sane : Sane s) (placed : Above s (.resumed :: above))
    (ran : resumed s = (s', calls)) : Sane s' ∧ Above s' (calls ++ above) := by
  obtain ⟨framed, -⟩ | ⟨framed, left, alone⟩ := placed.own (by simp)
  · cases phase : s.phase <;> simp [phase, Phase.frame] at framed
  · cases left with
    | resumed uninstalled submitted first =>
      unfold resumed at ran
      split at ran
      · rename_i live
        rw [sane.keepAlive] at live
        obtain ⟨k, current⟩ : ∃ k, s.phase = .suspended k := by
          cases phase : s.phase <;> simp_all [Phase.frame, Phase.live]
        have unused : s.tokenReset = false := by
          cases reset : s.tokenReset with
          | false => rfl
          | true =>
            have signaled := sane.fresh_token reset
            rw [current] at signaled
            cases signaled
        have installed : Sane { s with
            canceler := true, assertFailed := s.assertFailed || s.canceler } :=
          { sane with
            canceler := fun _ => ⟨sane.suspended k current, unused⟩
            assertFailed := by simp [uninstalled, sane.assertFailed] }
        simp only [setCanceler] at ran
        split at ran
        · rename_i canceled
          obtain ⟨next, destroyed, after, phase⟩ :=
            installed.cancel (k := k) (by simp [current, Phase.awaiting]) canceled
          rw [destroyed] at ran
          obtain ⟨rfl, rfl⟩ := Prod.mk.inj ran
          refine ⟨after, [], .nothing, ?_⟩
          rw [List.singleton_append, List.filter_cons_of_pos (by simp), alone, phase]
          rfl
        · obtain ⟨rfl, rfl⟩ := Prod.mk.inj ran
          exact ⟨installed, [], .nothing, by simpa [current, Phase.frame] using alone⟩
      · obtain ⟨rfl, rfl⟩ := Prod.mk.inj ran
        exact ⟨sane, [], .nothing, by rw [framed]; exact alone⟩

theorem user_step (sane : Sane s) (placed : Above s (.user :: above))
    (permitted : RequestsSuspended s .user choice) (ran : user s choice = some (s', calls)) :
    Sane s' ∧ Above s' (calls ++ above) := by
  cases choice with
  | «return» =>
    obtain ⟨rfl, rfl⟩ := Prod.mk.inj (Option.some.inj ran)
    exact ⟨sane, placed.user⟩
  | submit =>
    simp only [user] at ran
    split at ran
    · rename_i unsubmitted
      obtain ⟨rfl, rfl⟩ := Prod.mk.inj (Option.some.inj ran)
      have never := sane.unsubmitted unsubmitted
      refine ⟨?_, [.resumed], ?_, ?_⟩
      · refine { sane with
          fresh_token := ?_, keepAlive := rfl, attached := fun _ => rfl
          ended := fun bad => (by cases bad), destroyed := ?_
          unsubmitted := fun bad => (by cases bad), suspended := fun j bad => (by cases bad)
          awaiting := fun j bad => (by cases bad), waits := ?_, signals := ?_ }
        · intro reset
          have signaled := sane.fresh_token reset
          rw [unsubmitted] at signaled
          cases signaled
        · rintro (bad | bad)
          · cases bad
          · cases bad
        · intro j registered alive
          have before := sane.waits j registered alive
          rw [unsubmitted] at before
          cases before
        · rw [sane.signals, unsubmitted]
          rfl
      · refine .resumed ?_ (by simp) fun bad => ?_
        · cases installed : s.canceler with
          | false => rfl
          | true =>
            rw [(sane.canceler installed).1] at never
            cases never
        · rw [never] at bad
          cases bad
      · obtain ⟨below, left, split⟩ := placed.user
        have nothing : below = [] := by
          cases left with
          | nothing => rfl
          | resumed uninstalled submitted => exact absurd unsubmitted submitted
          | suspending k gone | crashed gone =>
            rw [unsubmitted] at gone
            cases gone
        rw [nothing, unsubmitted] at split
        simpa [Phase.frame] using split
    · cases ran
  | resolve k => exact resolve_again sane placed ran
  | requestCancel => exact request_again sane placed permitted ran
  | throw | task | continuation | reset | call | await | finish => cases ran

theorem executor_step (sane : Sane s) (placed : Above s [])
    (ran : executor s choice = some (s', calls)) :
    Sane s' ∧ ∃ above, calls = above ++ [.executor] ∧ Above s' above := by
  obtain ⟨below, left, split⟩ := placed
  obtain ⟨framed, rfl⟩ := List.append_eq_nil_iff.mp split.symm
  cases choice with
  | task =>
    obtain ⟨rfl, rfl⟩ := Prod.mk.inj (Option.some.inj ran)
    exact ⟨sane, [.user], rfl, [], .nothing, by simp [framed]⟩
  | continuation k =>
    simp only [executor, continuation] at ran
    split at ran
    · rename_i posted
      have taken : Sane { s with queue := s.queue.erase k } :=
        { sane with queue := fun j member => sane.queue j (List.mem_of_mem_erase member) }
      split at ran
      · obtain ⟨rfl, rfl⟩ := Prod.mk.inj (Option.some.inj ran)
        exact ⟨taken, [], rfl, [], .nothing, by simp [framed]⟩
      · rename_i alive
        have awaited := sane.waits k (sane.queue k posted) (by simpa using alive)
        have current : s.phase = .suspended k := by
          rcases Phase.awaiting_cases awaited with phase | phase
          · rw [phase] at framed
            cases framed
          · exact phase
        rw [if_pos current] at ran
        obtain ⟨rfl, rfl⟩ := Prod.mk.inj (Option.some.inj ran)
        exact ⟨taken.goOn awaited, [.body], rfl, [], .nothing, by simp [Phase.frame]⟩
    · cases ran
  | «return» | throw | submit | resolve | requestCancel | reset | call | await | finish => cases ran

theorem above_step (sane : Sane s) (placed : Above s (call :: above))
    (permitted : RequestsSuspended s call choice) {thread : ℕ}
    (ran : exec thread choice s call = some (s', calls)) :
    Sane s' ∧ Above s' (calls ++ above) := by
  cases call with
  | user => exact user_step sane placed permitted ran
  | body => exact body_step sane placed permitted ran
  | suspending k => exact suspending_step sane placed permitted ran
  | signalling => exact signalling_step sane placed permitted ran
  | destroying => exact destroying_step sane placed permitted ran
  | reporting => exact reporting_step sane placed permitted ran
  | resumed => exact resumed_step sane placed (Option.some.inj ran)
  | executor =>
    obtain ⟨framed, -⟩ | ⟨-, left, -⟩ := placed.own (by simp)
    · cases phase : s.phase <;> simp [phase, Phase.frame] at framed
    · cases left
  | crashed => cases ran

/-- The agenda of the thread ends with the loop of the executor. -/
def Placed (s : State) (agenda : List CoroutineCall) : Prop :=
  Sane s ∧ ∃ above, agenda = above ++ [.executor] ∧ Above s above

theorem exec_step {thread : ℕ} (placed : Placed s (call :: rest))
    (permitted : RequestsSuspended s call choice)
    (ran : exec thread choice s call = some (s', calls)) : Placed s' (calls ++ rest) := by
  obtain ⟨sane, above, split, inside⟩ := placed
  cases above with
  | nil =>
    obtain ⟨rfl, rfl⟩ := List.cons.inj split
    obtain ⟨after, above, made, placed⟩ := executor_step sane inside ran
    exact ⟨after, above, by rw [made, List.append_nil], placed⟩
  | cons next above =>
    obtain ⟨rfl, rfl⟩ := List.cons.inj split
    obtain ⟨after, placed⟩ := above_step sane inside permitted ran
    exact ⟨after, calls ++ above, (List.append_assoc _ _ _).symm, placed⟩

/-! ## Every run -/

theorem placed_start (isSender : ℕ → Bool) : Placed { isSender } [.executor] := by
  refine ⟨?_, [], rfl, [], .nothing, rfl⟩
  exact {
    canceler := fun bad => by cases bad
    fresh_token := fun bad => by cases bad
    keepAlive := rfl
    attached := fun bad => by cases bad
    ended := fun bad => by cases bad
    destroyed := fun bad => by rcases bad with bad | bad <;> cases bad
    unsubmitted := fun _ => rfl
    suspended := fun _ bad => by cases bad
    awaiting := fun _ bad => by cases bad
    fresh := fun _ _ => ⟨rfl, rfl⟩
    waits := fun _ bad => by cases bad
    queue := fun _ bad => by cases bad
    signals := rfl
    done := rfl
    destroy := rfl
    resume := rfl
    assertFailed := rfl }

theorem placed_of_reachable {isSender : ℕ → Bool} {config : Config State CoroutineCall}
    (reached : Reachable exec RequestsSuspended (start isSender) config) :
    ∃ agenda, config.threads = [agenda] ∧ Placed config.state agenda :=
  reached.invariant_agenda Placed (placed_start isSender)
    fun _ _ _ _ _ _ _ placed permitted ran => exec_step placed permitted ran

theorem Sane.destroysSuspended (sane : Sane s) : DestroysSuspended s where
  done := sane.done
  destroy := sane.destroy
  resume := sane.resume
  once := sane.signals.trans_le (Bool.toNat_le _)
  reports ended := by
    rw [sane.signals, ended]
    rfl
  assertFailed := sane.assertFailed

/-- **A stackless coroutine is destroyed only while it is suspended**, and its receiver
gets one signal, on every run on which no request comes from its own code after it has
been suspended, or from its receiver before that has reset the token. -/
theorem destroysSuspended_of_requestsSuspended (isSender : ℕ → Bool)
    (config : Config State CoroutineCall)
    (reached : Reachable exec RequestsSuspended (start isSender) config) :
    DestroysSuspended config.state := by
  obtain ⟨agenda, -, sane, -⟩ := placed_of_reachable reached
  exact sane.destroysSuspended

/-- A check of `RequestsSuspended`. -/
def requestsSuspended (s : State) (_ : CoroutineCall) (choice : Choice) : Bool :=
  choice != .requestCancel || s.canceled || !s.wasSuspended || s.tokenReset ||
    s.phase.awaiting.isSome

theorem requestsSuspended_sound (s : State) (call : CoroutineCall) (choice : Choice)
    (checked : requestsSuspended s call choice = true) : RequestsSuspended s call choice := by
  rintro rfl
  simpa [requestsSuspended, or_assoc] using checked

/-- It awaits twice, in a `cotask`, and is canceled when the future it awaits is ready: the
continuation that was posted does nothing. -/
theorem destroysSuspended_posted : ∃ config : Config State CoroutineCall,
    DestroysSuspended config.state ∧ config.state.phase = .ended ∧
      config.state.signals = [.done] ∧ config.state.queue = [] := by
  have ran : ((start fun _ => false).runWithin exec requestsSuspended
      [(0, .task), (0, .submit), (0, .call), (0, .await 0 true), (0, .return), (0, .return),
        (0, .resolve 0), (0, .return), (0, .continuation 0), (0, .await 1 true), (0, .return),
        (0, .task), (0, .resolve 1), (0, .requestCancel), (0, .return), (0, .reset), (0, .return),
        (0, .return), (0, .continuation 1)]).map (fun config =>
      decide (config.state.phase = .ended ∧ config.state.signals = [.done] ∧
        config.state.queue = [])) = some true := by decide
  obtain ⟨config, reached, holds⟩ := reachable_of_replay_within requestsSuspended_sound _ _ ran
  exact ⟨config, destroysSuspended_of_requestsSuspended _ config reached, of_decide_eq_true holds⟩

/-! ## Requests at other moments -/

/-- A request that finds the canceler while the coroutine is not suspended uses a frame
that is running or gone. -/
theorem Sane.misused (sane : Sane s) (installed : s.canceler = true)
    (uncanceled : s.canceled = false) (unsuspended : s.phase.awaiting = none) :
    ¬ DestroysSuspended (StacklessCoroutine.requestCancel s).1 := by
  have coro : s.coro = true := by
    cases phase : s.phase with
    | unsubmitted =>
      have never := sane.unsubmitted phase
      rw [(sane.canceler installed).1] at never
      cases never
    | reporting =>
      rw [sane.destroyed (Or.inr phase)] at uncanceled
      cases uncanceled
    | ended => exact sane.ended phase uncanceled
    | running | suspending | suspended | signalling | destroying =>
      exact sane.attached (by rw [phase]; rfl)
  intro right
  have intact := right.done
  have kept := right.destroy
  simp only [StacklessCoroutine.requestCancel, uncanceled, installed, StacklessCoroutine.cancel,
    coro, Bool.false_eq_true, if_false, if_true] at intact kept
  cases phase : s.phase with
  | suspending | suspended => simp [phase, Phase.awaiting] at unsuspended
  | running =>
    simp only [phase] at intact kept
    split at kept
    · rename_i outermost
      simp [outermost] at intact
    · cases kept
  | unsubmitted | signalling | destroying | reporting | ended => simp [phase] at intact

/-- The code of a `cotask` cancels its own coroutine after its first suspension: the frame
that runs is destroyed. -/
theorem request_destroys_running_frame : ∃ config : Config State CoroutineCall,
    Reachable exec Anything (start fun _ => false) config ∧
      config.state.badDestroy = true ∧ ¬ DestroysSuspended config.state := by
  have ran : ((start fun _ => false).run exec
      [(0, .task), (0, .submit), (0, .call), (0, .await 0 true), (0, .return), (0, .return),
        (0, .resolve 0), (0, .return), (0, .continuation 0), (0, .requestCancel)]).map
      (fun config => decide (config.state.badDestroy = true)) = some true := by decide
  obtain ⟨config, reached, holds⟩ := reachable_of_replay _ _ ran
  have destroyed := of_decide_eq_true holds
  refine ⟨config, reached, destroyed, fun right => ?_⟩
  rw [right.destroy] at destroyed
  cases destroyed

/-- The canceler stays when the coroutine has ended, and asks the freed frame whether it
is done, if the receiver has not reset its token. -/
theorem request_reads_freed_frame : ∃ config : Config State CoroutineCall,
    Reachable exec Anything (start fun _ => false) config ∧ config.state.frames = 0 ∧
      config.state.badDone = true ∧ ¬ DestroysSuspended config.state := by
  have ran : ((start fun _ => false).run exec
      [(0, .task), (0, .submit), (0, .call), (0, .await 0 true), (0, .return), (0, .return),
        (0, .resolve 0), (0, .return), (0, .continuation 0), (0, .finish .returned),
        (0, .finish .returned), (0, .return), (0, .task), (0, .requestCancel)]).map
      (fun config => decide (config.state.frames = 0 ∧ config.state.badDone = true)) =
        some true := by decide
  obtain ⟨config, reached, holds⟩ := reachable_of_replay _ _ ran
  obtain ⟨freed, used⟩ := of_decide_eq_true holds
  refine ⟨config, reached, freed, used, fun right => ?_⟩
  rw [right.done] at used
  cases used

end Tconcurrent.StacklessCoroutine
