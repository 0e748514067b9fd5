import Mathlib.Data.List.Infix
import Tconcurrent.TaskCanceler

/-! `task_canceler` registers exactly the outstanding senders, and misses none.

A loop of `terminate` that still has tokens ahead of it walks over the vector it began
with, as long as nothing is erased and the vector does not move; what was registered since
stands behind its end. -/
namespace Tconcurrent.TaskCanceler
open Interleaving

/-- The wrapped sender `k` has neither completed nor failed to submit. -/
def Outstanding (s : State) (k : ℕ) : Prop := s.status k = .outstanding

instance (s : State) (k : ℕ) : Decidable (Outstanding s k) := inferInstanceAs (Decidable (_ = _))

/-- No loop has tokens ahead of it. -/
def Settled (s : State) : Prop := ∀ loop ∈ s.loops, loop.registered.length ≤ loop.position

instance (s : State) : Decidable (Settled s) := inferInstanceAs (Decidable (∀ _ ∈ _, _))

/-- No other sender that is outstanding has the token of `k`. -/
def Alone (s : State) (k : ℕ) : Prop :=
  ∀ other < s.count, other ≠ k → Outstanding s other → s.token other ≠ s.token k

instance (s : State) (k : ℕ) : Decidable (Alone s k) :=
  inferInstanceAs (Decidable (∀ _ < _, _ → _ → _))

/-- A sender completes when no other one has its token; a `submit` throws only after the
sender has completed, or when another one has its token; and while a loop of `terminate`
has tokens ahead, no sender completes and no registration moves the vector. -/
def Careful (s : State) (call : CancelerCall) : Choice → Prop
  | .complete k => Alone s k ∧ Settled s
  | .submit _ reallocates => reallocates = true → Settled s
  | .throw => ∀ k, call = .submitted k → Outstanding s k → ¬ Alone s k
  | _ => True

/-- What the registry promises. -/
structure Exact (config : Config State CancelerCall) : Prop where
  registered : ∀ token, token ∈ config.state.tokens ↔
    ∃ k, Outstanding config.state k ∧ config.state.token k = token
  missesNone : ∀ loop ∈ config.state.loops, loop.finished = true →
    ∀ token ∈ loop.registered, token ∈ loop.asked
  /-- What was asked is canceled, or about to be. -/
  requests : ∀ loop ∈ config.state.loops, ∀ token ∈ loop.asked,
    config.state.canceled token = true ∨ .requestCancel token ∈ config.pending
  inRange : config.state.outOfRange = false

variable {s s' : State} {call : CancelerCall} {calls : List CancelerCall} {choice : Choice}
variable {thread k token i : ℕ} {loop : Loop}

/-- A loop has asked the tokens behind it, and those ahead are where they were. -/
structure Walks (s : State) (loop : Loop) : Prop where
  asked : loop.asked = loop.registered.take loop.position
  bounded : loop.position ≤ loop.registered.length
  ahead : loop.position < loop.registered.length →
    loop.buffer = s.buffer ∧ loop.registered <+: s.tokens
  finished : loop.finished = true → loop.position = loop.registered.length

structure Sane (s : State) : Prop where
  registered : ∀ token, token ∈ s.tokens ↔ ∃ k, Outstanding s k ∧ s.token k = token
  fresh : ∀ k, s.count ≤ k → ¬ Outstanding s k
  walks : ∀ loop ∈ s.loops, Walks s loop
  inRange : s.outOfRange = false

theorem Sane.below (sane : Sane s) (outstanding : Outstanding s k) : k < s.count :=
  Nat.lt_of_not_le fun beyond => sane.fresh k beyond outstanding

/-- What neither registers nor completes a sender, and moves no loop. -/
theorem Sane.keep (sane : Sane s) (tokens : s'.tokens = s.tokens) (buffer : s'.buffer = s.buffer)
    (token : s'.token = s.token) (status : s'.status = s.status) (count : s'.count = s.count)
    (loops : s'.loops = s.loops) (inRange : s'.outOfRange = s.outOfRange) : Sane s' := by
  constructor
  · intro t
    simpa only [Outstanding, tokens, status, token] using sane.registered t
  · intro k beyond
    rw [Outstanding, status]
    exact sane.fresh k (count ▸ beyond)
  · intro loop listed
    obtain ⟨asked, bounded, ahead, finished⟩ := sane.walks loop (loops ▸ listed)
    exact ⟨asked, bounded, by rwa [buffer, tokens], finished⟩
  · rw [inRange, sane.inRange]

/-- A loop walks on when the vector only grows where it is. -/
theorem Walks.grow (walks : Walks s loop)
    (grows : loop.position < loop.registered.length →
      s'.buffer = s.buffer ∧ s.tokens <+: s'.tokens) : Walks s' loop := by
  refine ⟨walks.asked, walks.bounded, fun more => ?_, walks.finished⟩
  obtain ⟨buffer, inside⟩ := walks.ahead more
  obtain ⟨still, longer⟩ := grows more
  exact ⟨buffer.trans still.symm, inside.trans longer⟩

theorem Settled.not_ahead (settled : Settled s) (listed : loop ∈ s.loops) :
    ¬ loop.position < loop.registered.length := Nat.not_lt.mpr (settled loop listed)

theorem submit_sane {reallocates : Bool} (sane : Sane s)
    (careful : reallocates = true → Settled s) : Sane (submit token reallocates s).1 := by
  unfold submit
  split
  · exact sane
  · have unsubmitted := sane.fresh s.count (Nat.le_refl _)
    constructor
    · intro t
      simp only [List.mem_append, List.mem_singleton, sane.registered t, Outstanding]
      constructor
      · rintro (⟨k, outstanding, same⟩ | rfl)
        · have other : k ≠ s.count := (sane.below outstanding).ne
          exact ⟨k, by simpa [Function.update_of_ne other] using outstanding,
            by simpa [Function.update_of_ne other] using same⟩
        · exact ⟨s.count, by simp, by simp⟩
      · rintro ⟨k, outstanding, same⟩
        by_cases new : k = s.count
        · subst new
          exact Or.inr (by simpa using same.symm)
        · rw [Function.update_of_ne new] at outstanding same
          exact Or.inl ⟨k, outstanding, same⟩
    · intro k beyond
      have other : k ≠ s.count := (Nat.lt_of_succ_le beyond).ne'
      have before : s.status k ≠ .outstanding := sane.fresh k (Nat.le_of_succ_le beyond)
      simpa [Outstanding, Function.update_of_ne other] using before
    · intro loop listed
      refine (sane.walks loop listed).grow fun more => ⟨?_, List.prefix_append _ _⟩
      cases reallocates with
      | false => rfl
      | true => exact absurd more ((careful rfl).not_ahead listed)
    · exact sane.inRange

/-- With the token of a sender that has it alone, no other one is erased. -/
theorem complete_sane (sane : Sane s) (outstanding : Outstanding s k) (alone : Alone s k)
    (settled : Settled s) : Sane (complete k s).1 := by
  constructor
  · intro t
    simp only [complete, State.setStatus, List.mem_filter, sane.registered t, Outstanding,
      decide_eq_true_eq]
    constructor
    · rintro ⟨⟨other, still, same⟩, different⟩
      have distinct : other ≠ k := by
        rintro rfl
        exact different same.symm
      exact ⟨other, by rwa [Function.update_of_ne distinct], same⟩
    · rintro ⟨other, still, same⟩
      by_cases same' : other = k
      · subst same'
        simp at still
      · rw [Function.update_of_ne same'] at still
        refine ⟨⟨other, still, same⟩, ?_⟩
        rw [← same]
        exact alone other (sane.below still) same' still
  · intro other beyond
    by_cases same : other = k
    · subst same
      exact absurd outstanding (sane.fresh other beyond)
    · simpa [complete, State.setStatus, Outstanding, Function.update_of_ne same] using
        sane.fresh other beyond
  · intro loop listed
    exact (sane.walks loop listed).grow fun more => absurd more (settled.not_ahead listed)
  · exact sane.inRange

theorem terminate_sane {terminating : Bool} (sane : Sane s) :
    Sane (terminate thread terminating s).1 := by
  refine ⟨sane.registered, sane.fresh, ?_, sane.inRange⟩
  intro loop listed
  rcases List.mem_append.mp listed with old | new
  · exact (sane.walks loop old).grow fun _ => ⟨rfl, List.prefix_refl _⟩
  · rw [List.mem_singleton.mp new]
    exact ⟨rfl, Nat.zero_le _, fun _ => ⟨rfl, List.prefix_refl _⟩, by simp⟩

theorem Sane.setLoop (sane : Sane s) (walks : Walks s loop) : Sane (s.setLoop i loop) := by
  refine ⟨sane.registered, sane.fresh, ?_, sane.inRange⟩
  intro other listed
  rcases List.mem_or_eq_of_mem_set listed with old | rfl
  · exact (sane.walks other old).grow fun _ => ⟨rfl, List.prefix_refl _⟩
  · exact walks.grow fun _ => ⟨rfl, List.prefix_refl _⟩

/-- A loop that goes on finds the token that stood there when it began. -/
theorem iterate_sane (sane : Sane s) (ran : iterate i s = some (s', calls)) : Sane s' := by
  unfold iterate at ran
  split at ran
  · cases ran
  · rename_i loop held
    have walks := sane.walks loop (List.mem_of_getElem? held)
    split at ran
    · rename_i ended
      cases ran
      have ends : Walks s { loop with finished := true } :=
        ⟨walks.asked, walks.bounded, walks.ahead, fun _ => ended⟩
      exact (sane.setLoop ends).keep rfl rfl rfl rfl rfl rfl rfl
    · rename_i going
      have more : loop.position < loop.registered.length := by
        have bounded := walks.bounded
        omega
      obtain ⟨buffer, rest, tokens⟩ := walks.ahead more
      have read : s.tokens[loop.position]? = some loop.registered[loop.position] := by
        rw [← tokens, List.getElem?_append_left more, List.getElem?_eq_getElem more]
      rw [read] at ran
      simp only [if_pos buffer] at ran
      cases ran
      refine sane.setLoop ⟨?_, more, fun _ => ⟨buffer, rest, tokens⟩, fun last => ?_⟩
      · rw [List.take_succ_eq_append_getElem more, ← walks.asked]
      · exact absurd (walks.finished last) going

theorem user_sane (sane : Sane s) (careful : Careful s .user choice)
    (ran : user thread s choice = some (s', calls)) : Sane s' := by
  cases choice with
  | «return» =>
    cases ran
    exact sane
  | throw => cases ran
  | submit token reallocates =>
    simp only [user] at ran
    split at ran
    · cases ran
      exact submit_sane sane careful
    · cases ran
  | complete k =>
    simp only [user] at ran
    split at ran
    · rename_i able
      cases ran
      exact complete_sane sane able.1 careful.1 careful.2
    · cases ran
  | terminate terminating =>
    simp only [user] at ran
    split at ran
    · cases ran
      exact terminate_sane sane
    · cases ran

/-- A sender that fails to submit leaves its token to another one. -/
theorem fail_sane (sane : Sane s) (shared : ¬ Alone s k) : Sane (s.setStatus k .failed) := by
  simp only [Alone, not_forall] at shared
  obtain ⟨other, -, different, outstanding, same⟩ := shared
  constructor
  · intro t
    rw [State.setStatus, sane.registered t]
    constructor
    · rintro ⟨holder, still, named⟩
      by_cases failed : holder = k
      · subst failed
        refine ⟨other, by simpa [Outstanding, Function.update_of_ne different] using outstanding, ?_⟩
        exact (not_not.mp same).trans named
      · exact ⟨holder, by simpa [Outstanding, Function.update_of_ne failed] using still, named⟩
    · rintro ⟨holder, still, named⟩
      by_cases failed : holder = k
      · subst failed
        simp [Outstanding] at still
      · exact ⟨holder, by simpa [Outstanding, Function.update_of_ne failed] using still, named⟩
  · intro j beyond
    by_cases failed : j = k
    · subst failed
      simp [Outstanding, State.setStatus]
    · simpa [Outstanding, State.setStatus, Function.update_of_ne failed] using sane.fresh j beyond
  · exact fun loop listed => (sane.walks loop listed).grow fun _ => ⟨rfl, List.prefix_refl _⟩
  · exact sane.inRange

theorem submitted_sane (sane : Sane s) (careful : Careful s (.submitted k) choice)
    (ran : submitted k s choice = some (s', calls)) : Sane s' := by
  cases choice with
  | «return» =>
    cases ran
    exact sane
  | throw =>
    cases ran
    split
    · rename_i outstanding
      exact fail_sane sane (careful k rfl outstanding)
    · exact sane
  | submit token reallocates => cases ran
  | complete k => cases ran
  | terminate terminating => cases ran

theorem exec_sane (sane : Sane s) (careful : Careful s call choice)
    (ran : exec thread choice s call = some (s', calls)) : Sane s' := by
  cases call with
  | user => exact user_sane sane careful ran
  | submitted k => exact submitted_sane sane careful ran
  | iterate i => exact iterate_sane sane ran
  | requestCancel token =>
    have made : requestCancel token s = (s', calls) := Option.some.inj ran
    have kept : Sane (requestCancel token s).1 := by
      unfold requestCancel
      split
      · exact sane
      · exact sane.keep rfl rfl rfl rfl rfl rfl rfl
    rwa [made] at kept

/-! ## Requests -/

def Requests (s : State) (pending : Multiset CancelerCall) : Prop :=
  ∀ loop ∈ s.loops, ∀ token ∈ loop.asked,
    s.canceled token = true ∨ .requestCancel token ∈ pending

variable {others : Multiset CancelerCall}

/-- A step that asks nothing. -/
theorem Requests.keep (requests : Requests s (call ::ₘ others))
    (other : ∀ token, call ≠ .requestCancel token) (canceled : s'.canceled = s.canceled)
    (loops : ∀ loop ∈ s'.loops, loop.asked = [] ∨
      ∃ before ∈ s.loops, loop.asked = before.asked) : Requests s' (↑calls + others) := by
  intro loop listed token asked
  rcases loops loop listed with none | ⟨before, old, same⟩
  · rw [none] at asked
    cases asked
  · rw [canceled]
    refine (requests before old token (same ▸ asked)).imp_right fun member => ?_
    rcases Multiset.mem_cons.mp member with now | later
    · exact absurd now.symm (other token)
    · exact Multiset.mem_add.mpr (.inr later)

theorem user_requests (requests : Requests s (.user ::ₘ others))
    (ran : user thread s choice = some (s', calls)) : Requests s' (↑calls + others) := by
  have same {s' : State} (canceled : s'.canceled = s.canceled) (loops : s'.loops = s.loops)
      (calls : List CancelerCall) : Requests s' (↑calls + others) :=
    requests.keep (by simp) canceled fun loop listed => .inr ⟨loop, loops ▸ listed, rfl⟩
  cases choice with
  | «return» =>
    cases ran
    exact same rfl rfl _
  | throw => cases ran
  | submit token reallocates =>
    simp only [user, submit] at ran
    split at ran
    · split at ran <;> cases ran <;> exact same rfl rfl _
    · cases ran
  | complete k =>
    simp only [user, complete] at ran
    split at ran <;> cases ran
    exact same rfl rfl _
  | terminate terminating =>
    simp only [user, terminate] at ran
    split at ran <;> cases ran
    refine requests.keep (by simp) rfl fun loop listed => ?_
    rcases List.mem_append.mp listed with old | new
    · exact .inr ⟨loop, old, rfl⟩
    · rw [List.mem_singleton.mp new]
      exact .inl rfl

/-- A round of a loop asks one token. -/
theorem iterate_requests (requests : Requests s (.iterate i ::ₘ others))
    (ran : iterate i s = some (s', calls)) : Requests s' (↑calls + others) := by
  unfold iterate at ran
  split at ran
  · cases ran
  · rename_i loop held
    have listed := List.mem_of_getElem? held
    split at ran
    · cases ran
      refine requests.keep (by simp) rfl fun other member => ?_
      rcases List.mem_or_eq_of_mem_set member with old | rfl
      · exact .inr ⟨other, old, rfl⟩
      · exact .inr ⟨loop, listed, rfl⟩
    · split at ran
      · split at ran <;> cases ran
        · rename_i asks _ _
          have before (token : ℕ) (now : s.canceled token = true ∨
              .requestCancel token ∈ .iterate i ::ₘ others) : s.canceled token = true ∨
              .requestCancel token ∈
                (↑[CancelerCall.requestCancel asks, .iterate i] : Multiset CancelerCall) + others :=
            now.imp_right fun member => Multiset.mem_add.mpr (.inr
              ((Multiset.mem_cons.mp member).resolve_left (by simp)))
          intro other member token asked
          rcases List.mem_or_eq_of_mem_set member with old | rfl
          · exact before token (requests other old token asked)
          · rcases List.mem_append.mp asked with earlier | last
            · exact before token (requests loop listed token earlier)
            · obtain rfl := List.mem_singleton.mp last
              exact .inr (by simp)
        · exact requests.keep (by simp) rfl fun other member => .inr ⟨other, member, rfl⟩
      · cases ran
        exact requests.keep (by simp) rfl fun other member => .inr ⟨other, member, rfl⟩

theorem requestCancel_requests (requests : Requests s (.requestCancel token ::ₘ others)) :
    Requests (requestCancel token s).1 (↑(requestCancel token s).2 + others) := by
  unfold requestCancel
  split
  · rename_i already
    intro loop listed asked member
    rcases requests loop listed asked member with canceled | waits
    · exact .inl canceled
    · rcases Multiset.mem_cons.mp waits with now | later
      · cases now
        exact .inl already
      · exact .inr (Multiset.mem_add.mpr (.inr later))
  · intro loop listed asked member
    by_cases same : asked = token
    · exact .inl (by simp [same])
    · rcases requests loop listed asked member with canceled | waits
      · exact .inl (by simpa [Function.update_of_ne same] using canceled)
      · rcases Multiset.mem_cons.mp waits with now | later
        · cases now
          exact absurd rfl same
        · exact .inr (Multiset.mem_add.mpr (.inr later))

theorem exec_requests (requests : Requests s (call ::ₘ others))
    (ran : exec thread choice s call = some (s', calls)) : Requests s' (↑calls + others) := by
  cases call with
  | user => exact user_requests requests ran
  | submitted k =>
    refine requests.keep (by simp) ?_ fun loop listed => .inr ⟨loop, ?_, rfl⟩
    all_goals
      cases choice with
      | «return» =>
        cases ran
        first | rfl | exact listed
      | throw =>
        cases ran
        split at * <;> first | rfl | exact listed
      | submit | complete | terminate => cases ran
  | iterate i => exact iterate_requests requests ran
  | requestCancel token =>
    have made : requestCancel token s = (s', calls) := Option.some.inj ran
    have kept := requestCancel_requests requests
    rwa [made] at kept

variable {threads : ℕ} {config : Config State CancelerCall}

/-- **The registry is exact and `terminate` misses no task**, in every run of any number
of threads whose steps are careful. -/
theorem exact_of_careful (reached : Reachable exec Careful (start threads) config) :
    Exact config := by
  have sane : Sane config.state := by
    apply reached.invariant fun s _ => Sane s
    · exact ⟨by simp [start, Outstanding], by simp [start, Outstanding], by simp [start], rfl⟩
    · exact fun _ _ _ _ _ _ _ sane careful ran => exec_sane sane careful ran
  have requests : Requests config.state config.pending := by
    apply reached.invariant Requests
    · exact fun loop listed => by simp [start] at listed
    · exact fun _ _ _ _ _ _ _ requests _ ran => exec_requests requests ran
  refine ⟨sane.registered, fun loop listed finished token member => ?_, requests, sane.inRange⟩
  have walks := sane.walks loop listed
  rwa [walks.asked, walks.finished finished, List.take_length]

/-- The condition can be checked. -/
def careful (s : State) (call : CancelerCall) (choice : Choice) : Bool :=
  match choice with
  | .complete k => Alone s k ∧ Settled s
  | .submit _ reallocates => reallocates = true → Settled s
  | .throw =>
    match call with
    | .submitted k => Outstanding s k → ¬ Alone s k
    | _ => true
  | _ => true

theorem careful_sound (s : State) (call : CancelerCall) (choice : Choice)
    (checked : careful s call choice = true) : Careful s call choice := by
  cases choice with
  | complete k =>
    have both : Alone s k ∧ Settled s := of_decide_eq_true checked
    exact both
  | submit token reallocates =>
    have settled : reallocates = true → Settled s := of_decide_eq_true checked
    exact settled
  | throw =>
    rintro k rfl
    exact of_decide_eq_true checked
  | «return» => trivial
  | terminate terminating => trivial

/-- Of two tasks the first is only asked, and the canceler of the last one completes it
and submits a third one. -/
theorem exact_terminateTwo : ∃ config : Config State CancelerCall,
    Exact config ∧ config.state.tokens = [7, 9] ∧ config.state.loops.map (·.asked) = [[7, 8]] := by
  have ran : ((start 1).runWithin exec careful
      [(0, .submit 7 true), (0, .return), (0, .return), (0, .submit 8 true), (0, .return),
        (0, .return), (0, .terminate false), (0, .return), (0, .return), (0, .return),
        (0, .return), (0, .return), (0, .complete 1), (0, .return), (0, .submit 9 true),
        (0, .return), (0, .return), (0, .return), (0, .return)]).map (fun config =>
      decide (config.state.tokens = [7, 9] ∧ config.state.loops.map (·.asked) = [[7, 8]])) =
        some true := by decide
  obtain ⟨config, reached, holds⟩ := reachable_of_replay_within careful_sound _ _ ran
  exact ⟨config, exact_of_careful reached, of_decide_eq_true holds⟩

/-- Of three tasks whose cancelers complete them the second one is missed, and the loop
reads on behind the end of the vector. -/
theorem terminate_skips_second : ∃ config : Config State CancelerCall,
    Reachable exec Anything (start 1) config ∧
      config.state.loops.map (·.registered) = [[7, 8, 9]] ∧
      config.state.loops.map (·.asked) = [[7, 9]] ∧ ¬ Exact config := by
  have ran : ((start 1).run exec
      [(0, .submit 7 true), (0, .return), (0, .return), (0, .submit 8 true), (0, .return),
        (0, .return), (0, .submit 9 true), (0, .return), (0, .return), (0, .terminate false),
        (0, .return), (0, .return), (0, .complete 0), (0, .return), (0, .return), (0, .return),
        (0, .return), (0, .complete 2), (0, .return), (0, .return), (0, .return)]).map
      (fun config =>
        decide (config.state.loops.map (·.registered) = [[7, 8, 9]] ∧
          config.state.loops.map (·.asked) = [[7, 9]] ∧ config.state.outOfRange = true)) =
        some true := by decide
  obtain ⟨config, reached, holds⟩ := reachable_of_replay _ _ ran
  obtain ⟨registered, asked, outside⟩ := of_decide_eq_true holds
  refine ⟨config, reached, registered, asked, fun right => ?_⟩
  rw [right.inRange] at outside
  cases outside

end Tconcurrent.TaskCanceler
