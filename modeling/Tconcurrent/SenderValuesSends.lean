import Tconcurrent.SenderValuesErased

/-! What a composition of senders sends does not depend on threads, tokens and timing.

Each call that is still on its way, and each leaf that has not fired, leads to something
that the composition may send, or to `done` where cancelation was requested; and whatever
it may send is sent in some run. -/
namespace Tconcurrent.SenderValues
open Interleaving Completion

variable {V E : Type} {s s' : State V E} {others pending : Multiset (SenderCall V E)}
  {call : SenderCall V E} {calls : List (SenderCall V E)} {choice : Choice V E} {i : ℕ}
  {r : Receiver V E} {sender : Sender V E} {completion : Completion V E}

/-! ## Nothing else is sent -/

variable [Inhabited V] {target : Set (Completion V E)}

/-- All that was sent, or is still to be sent, is expected, and so is `done` where cancelation
was requested. -/
structure Sound (target : Set (Completion V E)) (s : State V E)
    (pending : Multiset (SenderCall V E)) : Prop where
  sender : s.sender.sends ⊆ target
  canceled : s.canceled = true → .done ∈ target
  signals : ∀ completion ∈ s.signals, completion ∈ target
  sends : ∀ call ∈ pending, call.sends ⊆ target
  leaves : ∀ i < s.next, (s.leaves i).sends ⊆ target

theorem sends_one (sends : call.sends ⊆ target) : ∀ made ∈ [call], made.sends ⊆ target :=
  List.forall_mem_singleton.mpr sends

theorem sends_done (canceled : .done ∈ target) :
    (SenderCall.signal .done r : SenderCall V E).sends ⊆ target :=
  Set.singleton_subset_iff.mpr canceled

theorem sends_user : (SenderCall.user : SenderCall V E).sends ⊆ target := Set.empty_subset _

theorem Sound.here (sound : Sound target s (call ::ₘ others)) : call.sends ⊆ target :=
  sound.sends _ (Multiset.mem_cons_self _ _)

theorem Sound.keep (sound : Sound target s (call ::ₘ others)) (sender : s'.sender = s.sender)
    (canceled : s'.canceled = true → .done ∈ target)
    (signals : ∀ completion ∈ s'.signals, completion ∈ s.signals ∨ completion ∈ target)
    (leaves : ∀ i < s'.next, i < s.next ∧ (s'.leaves i).sends = (s.leaves i).sends ∨
      (s'.leaves i).sends ⊆ target)
    (made : ∀ call ∈ calls, call.sends ⊆ target) : Sound target s' (↑calls + others) where
  sender := sender ▸ sound.sender
  canceled := canceled
  signals completion member := (signals completion member).elim (sound.signals completion) id
  sends := mem_after made fun call member => sound.sends call (Multiset.mem_cons_of_mem member)
  leaves i inside := by
    rcases leaves i inside with ⟨before, same⟩ | new
    · exact same ▸ sound.leaves i before
    · exact new

/-- The leaves are left alone, and nobody is signalled. -/
theorem Sound.goOn (sound : Sound target s (call ::ₘ others)) (sender : s'.sender = s.sender)
    (canceled : s'.canceled = s.canceled) (signals : s'.signals = s.signals)
    (next : s'.next = s.next) (leaves : s'.leaves = s.leaves)
    (made : ∀ call ∈ calls, call.sends ⊆ target) : Sound target s' (↑calls + others) :=
  sound.keep sender (canceled ▸ sound.canceled) (fun completion member => .inl (signals ▸ member))
    (fun i inside => .inl ⟨next ▸ inside, by rw [leaves]⟩) made

theorem Sound.setLeaf {leaf : Leaf V E} (sound : Sound target s (call ::ₘ others))
    (kind : leaf.kind = (s.leaves i).kind) (receiver : leaf.receiver = (s.leaves i).receiver)
    (made : ∀ call ∈ calls, call.sends ⊆ target) :
    Sound target (s.setLeaf i leaf) (↑calls + others) := by
  refine sound.keep rfl sound.canceled (fun _ => .inl) (fun j inside => .inl ⟨inside, ?_⟩) made
  by_cases same : j = i
  · subst same
    simp [State.setLeaf, Leaf.sends, kind, receiver]
  · simp [State.setLeaf, same]

theorem Sound.newLeaf {leaf : Leaf V E} (sound : Sound target s (call ::ₘ others))
    (sends : leaf.sends ⊆ target) (made : ∀ call ∈ calls, call.sends ⊆ target) :
    Sound target (s.newLeaf leaf) (↑calls + others) := by
  refine sound.keep rfl sound.canceled (fun _ => .inl) (fun j inside => ?_) made
  by_cases same : j = s.next
  · subst same
    have self : (s.newLeaf leaf).leaves s.next = leaf := by simp [State.newLeaf]
    rw [self]
    exact .inr sends
  · have before : j < s.next + 1 := inside
    exact .inl ⟨by omega, by simp [State.newLeaf, same]⟩

/-- A leaf that fires, by itself or since it is canceled. -/
theorem Sound.fireLeaf (sound : Sound target s (call ::ₘ others)) (more : List (SenderCall V E))
    (sends : (SenderCall.signal completion (s.leaves i).receiver).sends ⊆ target)
    (made : ∀ call ∈ more, call.sends ⊆ target) :
    Sound target (fireLeaf i completion s).1
      (↑((fireLeaf i completion s).2 ++ more) + others) := by
  unfold SenderValues.fireLeaf
  dsimp only
  split
  · exact sound.goOn rfl rfl rfl rfl rfl made
  · exact sound.setLeaf rfl rfl (List.forall_mem_cons.mpr ⟨sends, made⟩)

theorem Sound.requestCancel (sound : Sound target s (call ::ₘ others)) (asked : .done ∈ target) :
    Sound target (requestCancel s).1 (↑((requestCancel s).2 ++ [call]) + others) := by
  unfold SenderValues.requestCancel
  split
  · exact sound.goOn rfl rfl rfl rfl rfl (sends_one sound.here)
  · refine sound.keep rfl (fun _ => asked) (fun _ => .inl) (fun i inside => .inl ⟨inside, rfl⟩)
      fun made member => ?_
    rcases List.mem_append.mp member with cancels | own
    · cases canceler : s.canceler with
      | none => simp [canceler] at cancels
      | some i =>
        rw [canceler, List.mem_singleton] at cancels
        exact cancels ▸ Set.singleton_subset_iff.mpr asked
    · exact List.mem_singleton.mp own ▸ sound.here

/-! ## One step -/

theorem submit_sound (sound : Sound target s (.submit sender r ::ₘ others))
    (ran : submit sender r choice s = some (s', calls)) : Sound target s' (↑calls + others) := by
  have set : ∀ call ∈ [SenderCall.setCanceler s.next], (call : SenderCall V E).sends ⊆ target :=
    sends_one (Set.empty_subset _)
  cases sender with
  | async | asyncWait =>
    cases ran
    exact sound.newLeaf sound.here set
  | user signals =>
    cases choice with
    | install =>
      cases ran
      exact sound.newLeaf sound.here set
    | bare =>
      cases ran
      exact sound.newLeaf sound.here (sends_one (Set.empty_subset _))
    | _ => cases ran
  | «then» | asyncThen | connect | wrap =>
    cases ran
    have here := sound.here
    simp only [SenderCall.sends, Sender.sends, sequence_sequence, singleton_sequence] at here
    refine sound.goOn rfl rfl rfl rfl rfl (sends_one ?_)
    simpa only [SenderCall.sends, arrives, Stage.sends, singleton_sequence, value_andThen]
      using here

theorem setCanceler_sound (sound : Sound target s (.setCanceler i ::ₘ others)) :
    Sound target (setCanceler i s).1 (↑(setCanceler i s).2 + others) := by
  have made : ∀ call ∈ (setCanceler i s).2, call.sends ⊆ target := by
    intro call member
    rcases List.mem_append.mp member with cancels | arms
    · split at cancels
      · rename_i canceled
        exact List.mem_singleton.mp cancels ▸
          Set.singleton_subset_iff.mpr (sound.canceled canceled)
      · cases cancels
    · split at arms
      · cases arms
      · exact List.mem_singleton.mp arms ▸ Set.empty_subset _
  have set : Sound target (s.setLeaf i { s.leaves i with installed := true })
    (↑(setCanceler i s).2 + others) := sound.setLeaf rfl rfl made
  exact ⟨set.sender, set.canceled, set.signals, set.sends, set.leaves⟩

theorem cancelLeaf_sound (sound : Sound target s (.cancelLeaf i ::ₘ others)) :
    Sound target (cancelLeaf i s choice).1 (↑(cancelLeaf i s choice).2 + others) := by
  have canceled : .done ∈ target := Set.singleton_subset_iff.mp sound.here
  have fires : Sound target (fireLeaf i .done s).1 (↑(fireLeaf i .done s).2 + others) := by
    have fired := @Sound.fireLeaf _ _ _ _ _ i _ _ _ sound [] (sends_done canceled) (by simp)
    rwa [List.append_nil] at fired
  cases choice with
  | ignore =>
    simp only [cancelLeaf]
    split
    · exact sound.goOn rfl rfl rfl rfl rfl (by simp)
    · exact fires
  | _ => exact fires

theorem signal_sound (sound : Sound target s (.signal completion r ::ₘ others)) :
    Sound target (signal completion r s).1 (↑(signal completion r s).2 + others) := by
  have here : completion.andThen (arrives r) ⊆ target := sound.here
  cases r with
  | nil =>
    refine sound.keep rfl sound.canceled (fun sent member => ?_)
      (fun _ inside => .inl ⟨inside, rfl⟩) (sends_one sends_user)
    rcases List.mem_append.mp member with old | new
    · exact .inl old
    · refine .inr (here ?_)
      rw [List.mem_singleton.mp new]
      cases completion <;> rfl
  | cons stage r =>
    cases stage with
    | wrap =>
      have passes : arrives (.wrap :: r) = arrives r := by
        funext v
        simp only [arrives, Stage.sends, singleton_sequence, value_andThen]
      rw [passes] at here
      exact sound.goOn rfl rfl rfl rfl rfl (sends_one here)
    | «then» | asyncThen | connect =>
      cases completion with
      | value v | error | done => exact sound.goOn rfl rfl rfl rfl rfl (sends_one here)

theorem check_sound {requested : Bool} {v : V} {stage : Stage V E}
    (sound : Sound target s (.check requested v stage r ::ₘ others)) :
    Sound target (check requested v stage r s).1 (↑(check requested v stage r s).2 + others) := by
  unfold check
  split
  · rename_i canceled
    exact sound.goOn rfl rfl rfl rfl rfl (sends_one (sends_done (sound.canceled canceled)))
  · exact sound.goOn rfl rfl rfl rfl rfl (sends_one sound.here)

theorem enter_sound {requested : Bool} {v : V} {stage : Stage V E}
    (sound : Sound target s (.enter requested v stage r ::ₘ others)) :
    Sound target (enter requested v stage r s).1 (↑(enter requested v stage r s).2 + others) := by
  have here : sequence (stage.sends v) (arrives r) ⊆ target := sound.here
  refine sound.goOn rfl rfl rfl rfl rfl fun made member => ?_
  cases stage with
  | «then» | asyncThen | connect | wrap =>
    rw [List.mem_singleton.mp member]
    simpa only [SenderCall.sends, Stage.sends, singleton_sequence, value_andThen] using here

theorem function_sound {result : Except E V}
    (sound : Sound target s (.function result r ::ₘ others))
    (permitted : choice = .requestCancel → .done ∈ target)
    (ran : function result r s choice = some (s', calls)) : Sound target s' (↑calls + others) := by
  cases choice with
  | «return» =>
    cases ran
    exact sound.goOn rfl rfl rfl rfl rfl (sends_one sound.here)
  | requestCancel =>
    cases ran
    exact sound.requestCancel (permitted rfl)
  | _ => cases ran

theorem asyncFunction_sound {answer : Answer V E}
    (sound : Sound target s (.asyncFunction answer r ::ₘ others))
    (permitted : choice = .requestCancel → .done ∈ target)
    (ran : asyncFunction answer r s choice = some (s', calls)) :
    Sound target s' (↑calls + others) := by
  have here : sequence answer.sends (arrives r) ⊆ target := sound.here
  cases choice with
  | «return» =>
    cases answer with
    | throw e | submit sender =>
      cases ran
      refine sound.goOn rfl rfl rfl rfl rfl (sends_one ?_)
      simpa only [SenderCall.sends, Answer.sends, singleton_sequence] using here
  | requestCancel =>
    cases ran
    exact sound.requestCancel (permitted rfl)
  | _ => cases ran

theorem user_sound (sound : Sound target s (.user ::ₘ others))
    (permitted : choice = .requestCancel → .done ∈ target)
    (ran : user s choice = some (s', calls)) : Sound target s' (↑calls + others) := by
  cases choice with
  | «return» =>
    cases ran
    exact sound.goOn rfl rfl rfl rfl rfl (by simp)
  | submit =>
    simp only [user] at ran
    split at ran <;> cases ran
    have whole : arrives ([] : Receiver V E) = fun v => {.value v} := rfl
    refine sound.goOn rfl rfl rfl rfl rfl
      (List.forall_mem_cons.mpr ⟨?_, sends_one sends_user⟩)
    rw [SenderCall.sends, whole, sequence_value]
    exact sound.sender
  | requestCancel =>
    cases ran
    exact sound.requestCancel (permitted rfl)
  | fire i completion =>
    simp only [user] at ran
    split at ran
    · rename_i inside
      obtain ⟨sent, signals, same⟩ := Option.map_eq_some_iff.mp ran
      cases same
      refine sound.fireLeaf [.user] (Set.Subset.trans ?_ (sound.leaves i inside.1))
        (sends_one sends_user)
      intro last arrives
      refine ⟨sent, ?_, arrives⟩
      cases kind : (s.leaves i).kind with
      | user signals' =>
        simp only [kind, Kind.signal] at signals
        split at signals <;> cases signals
        assumption
      | async | asyncWait =>
        rw [kind] at signals
        cases signals
        rfl
    · cases ran
  | _ => cases ran

theorem exec_sound {thread : ℕ} (sound : Sound target s (call ::ₘ others))
    (permitted : choice = .requestCancel → .done ∈ target)
    (ran : exec thread choice s call = some (s', calls)) : Sound target s' (↑calls + others) := by
  cases call with
  | user => exact user_sound sound permitted ran
  | submit sender r => exact submit_sound sound ran
  | setCanceler i =>
    cases ran
    exact setCanceler_sound sound
  | arm i =>
    cases ran
    exact sound.setLeaf rfl rfl (by simp)
  | cancelLeaf i =>
    obtain ⟨rfl, rfl⟩ := Prod.mk.inj (Option.some.inj ran)
    exact cancelLeaf_sound sound
  | signal completion r =>
    obtain ⟨rfl, rfl⟩ := Prod.mk.inj (Option.some.inj ran)
    exact signal_sound sound
  | check requested v stage r =>
    obtain ⟨rfl, rfl⟩ := Prod.mk.inj (Option.some.inj ran)
    exact check_sound sound
  | enter requested v stage r =>
    cases ran
    exact enter_sound sound
  | function result r => exact function_sound sound permitted ran
  | asyncFunction answer r => exact asyncFunction_sound sound permitted ran

/-! ## All of it is sent -/

/-- Cancelation is requested only where that is allowed. -/
def Requests (allowed : Bool) (_ : State V E) (_ : SenderCall V E) (choice : Choice V E) : Prop :=
  choice = .requestCancel → allowed = true

/-- One thread gets from one state and agenda to another. -/
def Goes (allowed : Bool) (s : State V E) (calls : List (SenderCall V E)) (s' : State V E)
    (calls' : List (SenderCall V E)) : Prop :=
  Reachable exec (Requests allowed) ⟨s, [calls]⟩ ⟨s', [calls']⟩

variable {allowed : Bool} {rest after : List (SenderCall V E)}

theorem goes_step (choice : Choice V E) (permitted : choice = .requestCancel → allowed = true)
    (ran : exec 0 choice s call = some (s', calls)) (same : after = calls ++ rest) :
    Goes allowed s (call :: rest) s' after :=
  same ▸ .step_alone permitted ran

/-- A step that needs no choice. -/
theorem goes_on (ran : exec 0 .return s call = some (s', calls)) (same : after = calls ++ rest) :
    Goes allowed s (call :: rest) s' after :=
  goes_step .return (by simp) ran same

/-- A stage passes on everything but a value. -/
theorem goes_past (stage : Stage V E) (other : ∀ v, completion ≠ .value v) :
    ∃ s', s'.signals = s.signals ∧ s'.canceled = s.canceled ∧
      Goes allowed s (.signal completion (stage :: r) :: rest) s'
        (.signal completion r :: rest) := by
  cases stage with
  | wrap => exact ⟨s, rfl, rfl, goes_on rfl rfl⟩
  | «then» | asyncThen | connect =>
    cases completion with
    | value v => exact absurd rfl (other v)
    | error | done => exact ⟨s.reset, rfl, rfl, goes_on rfl rfl⟩

/-- A value enters a stage. -/
theorem goes_into (stage : Stage V E) (v : V) (uncanceled : s.canceled = false) :
    ∃ s', s'.signals = s.signals ∧ s'.canceled = false ∧
      Goes allowed s (.signal (.value v) (stage :: r) :: rest) s'
        ((enter false v stage r s).2 ++ rest) := by
  have checked : exec 0 .return s (.check s.canceled v stage r) =
      some (s, [.enter false v stage r]) := by
    simp [exec, check, uncanceled]
  have entered : exec 0 .return s (.enter false v stage r) = some (enter false v stage r s) := rfl
  have goes (arrives : exec 0 .return s (.signal (.value v) (stage :: r)) =
      some (s, [.check s.canceled v stage r])) :
      Goes allowed s (.signal (.value v) (stage :: r) :: rest) (enter false v stage r s).1
        ((enter false v stage r s).2 ++ rest) :=
    (goes_on arrives rfl).trans ((goes_on checked rfl).trans (goes_on entered rfl))
  cases stage with
  | wrap => exact ⟨s, rfl, uncanceled, goes_on rfl rfl⟩
  | «then» | asyncThen | connect =>
    refine ⟨_, ?_, ?_, goes rfl⟩
    · rfl
    · exact uncanceled

/-- A leaf is made, its canceler set, and its task posted. -/
theorem goes_set (leaf : Leaf V E) (uncanceled : s.canceled = false) :
    ∃ s', s'.signals = s.signals ∧ s'.canceled = false ∧ s'.canceler = some s.next ∧
      s.next < s'.next ∧ s'.leaves s.next = { leaf with armed := true, installed := true } ∧
      Goes allowed (s.newLeaf leaf) [.setCanceler s.next, .user] s' [.user] := by
  have self : (s.newLeaf leaf).leaves s.next = leaf := by simp [State.newLeaf]
  have canceled : (s.newLeaf leaf).canceled = false := uncanceled
  have sets : exec 0 .return (s.newLeaf leaf) (.setCanceler s.next) =
      some ((setCanceler s.next (s.newLeaf leaf)).1, if leaf.armed then [] else [.arm s.next]) := by
    simp [exec, setCanceler, self, canceled]
  have leaf_set : (setCanceler s.next (s.newLeaf leaf)).1.leaves s.next =
      { leaf with installed := true } := by
    simp [setCanceler, State.setLeaf, self]
  cases armed : leaf.armed with
  | true =>
    rw [if_pos armed] at sets
    refine ⟨(setCanceler s.next (s.newLeaf leaf)).1, rfl, uncanceled, rfl, Nat.lt_succ_self _, ?_,
      goes_on sets rfl⟩
    rw [leaf_set, ← armed]
  | false =>
    rw [if_neg (by simp [armed])] at sets
    have arms : exec 0 .return (setCanceler s.next (s.newLeaf leaf)).1 (.arm s.next) = some
        ((setCanceler s.next (s.newLeaf leaf)).1.setLeaf s.next
          { leaf with armed := true, installed := true }, []) := by
      simp [exec, leaf_set]
    refine ⟨(setCanceler s.next (s.newLeaf leaf)).1.setLeaf s.next
      { leaf with armed := true, installed := true }, rfl, uncanceled, rfl, Nat.lt_succ_self _, ?_,
      (goes_on sets rfl).trans (goes_on arms rfl)⟩
    simp [State.setLeaf]

/-- A task or a timer runs, or a sender of the user signals. -/
theorem goes_fire (fresh : (s.leaves i).fired = false) (armed : (s.leaves i).armed = true)
    (inside : i < s.next) (signals : (s.leaves i).kind.signal completion = some completion) :
    Goes allowed s [.user] (s.setLeaf i { s.leaves i with fired := true })
      [.signal completion (s.leaves i).receiver, .user] := by
  have fires : exec 0 (.fire i completion) s .user =
      some (s.setLeaf i { s.leaves i with fired := true },
        [.signal completion (s.leaves i).receiver, .user]) := by
    simp [exec, user, inside, armed, signals, fireLeaf, fresh]
  exact goes_step _ (by simp) fires rfl

/-- Cancelation is requested while a leaf waits. -/
theorem goes_cancel (uncanceled : s.canceled = false) (canceler : s.canceler = some i)
    (fresh : (s.leaves i).fired = false) :
    ∃ s', s'.signals = s.signals ∧
      Goes true s [.user] s' [.signal .done (s.leaves i).receiver, .user] := by
  have requests : exec 0 .requestCancel s .user =
      some ({ s with canceled := true }, [.cancelLeaf i, .user]) := by
    simp [exec, user, requestCancel, uncanceled, canceler]
  have cancels : exec 0 .return { s with canceled := true } (.cancelLeaf i) = some
      (({ s with canceled := true } : State V E).setLeaf i { s.leaves i with fired := true },
        [.signal .done (s.leaves i).receiver]) := by
    simp [exec, cancelLeaf, fireLeaf, fresh]
  have goes : Goes true s [.user]
      (({ s with canceled := true } : State V E).setLeaf i { s.leaves i with fired := true })
      [.signal .done (s.leaves i).receiver, .user] :=
    (goes_step _ (fun _ => rfl) requests rfl).trans (goes_on cancels rfl)
  refine ⟨_, ?_, goes⟩
  rfl

/-- The sender, submitted on a thread that then runs tasks, comes to signal this. -/
def Comes (sender : Sender V E) (completion : Completion V E) : Prop :=
  ∀ s r, s.canceled = false → ∃ s', s'.signals = s.signals ∧ s'.canceled = false ∧
    Goes false s [.submit sender r, .user] s' [.signal completion r, .user]

/-- The sender can be made to signal `done`. -/
def Stops (sender : Sender V E) : Prop :=
  ∀ s r, s.canceled = false → ∃ s', s'.signals = s.signals ∧
    Goes true s [.submit sender r, .user] s' [.signal .done r, .user]

theorem comes_leaf (leaf : Receiver V E → Leaf V E) (choice : Choice V E)
    (quiet : choice ≠ .requestCancel)
    (submits : ∀ s r, submit sender r choice s =
      some (s.newLeaf (leaf r), [.setCanceler s.next]))
    (receiver : ∀ r, (leaf r).receiver = r) (fresh : ∀ r, (leaf r).fired = false) :
    Stops sender ∧ ∀ completion, (∀ r, (leaf r).kind.signal completion = some completion) →
      Comes sender completion := by
  have goes (allowed : Bool) (s : State V E) (r : Receiver V E) (uncanceled : s.canceled = false) :
      ∃ s', s'.signals = s.signals ∧ s'.canceled = false ∧ s'.canceler = some s.next ∧
        s.next < s'.next ∧ s'.leaves s.next = { leaf r with armed := true, installed := true } ∧
        Goes allowed s [.submit sender r, .user] s' [.user] := by
    obtain ⟨s', signals, canceled, canceler, inside, self, goes⟩ :=
      @goes_set _ _ s _ allowed (leaf r) uncanceled
    have submitted : exec 0 choice s (.submit sender r) =
      some (s.newLeaf (leaf r), [.setCanceler s.next]) := submits s r
    exact ⟨s', signals, canceled, canceler, inside, self,
      (goes_step choice (fun same => absurd same quiet) submitted rfl).trans goes⟩
  refine ⟨fun s r uncanceled => ?_, fun completion signal s r uncanceled => ?_⟩
  · obtain ⟨s', signals, canceled, canceler, inside, self, submitted⟩ := goes true s r uncanceled
    have unfired : (s'.leaves s.next).fired = false := by rw [self]; exact fresh r
    obtain ⟨last, same, stops⟩ := goes_cancel canceled canceler unfired
    rw [self, show ({ leaf r with armed := true, installed := true } : Leaf V E).receiver = r from
      receiver r] at stops
    exact ⟨last, same.trans signals, submitted.trans stops⟩
  · obtain ⟨s', signals, canceled, canceler, inside, self, submitted⟩ := goes false s r uncanceled
    have fires := @goes_fire _ _ s' s.next completion _ false (by rw [self]; exact fresh r)
      (by rw [self]) inside (by rw [self]; exact signal r)
    rw [self, show ({ leaf r with armed := true, installed := true } : Leaf V E).receiver = r from
      receiver r] at fires
    refine ⟨_, ?_, ?_, submitted.trans fires⟩
    · exact signals
    · exact canceled

theorem comes_async :
    Stops (.async : Sender V E) ∧ Comes (.async : Sender V E) (.value default) := by
  obtain ⟨stops, comes⟩ := @comes_leaf V E .async _ (fun r => { receiver := r }) .return (by simp)
    (fun _ _ => rfl) (fun _ => rfl) (fun _ => rfl)
  exact ⟨stops, comes _ fun _ => rfl⟩

theorem comes_asyncWait :
    Stops (.asyncWait : Sender V E) ∧ Comes (.asyncWait : Sender V E) (.value default) := by
  obtain ⟨stops, comes⟩ := @comes_leaf V E .asyncWait _
    (fun r => { kind := .asyncWait, receiver := r, armed := true }) .return (by simp)
    (fun _ _ => rfl) (fun _ => rfl) (fun _ => rfl)
  exact ⟨stops, comes _ fun _ => rfl⟩

theorem comes_user (signals : Completion V E → Bool) : Stops (.user signals) ∧
    ∀ completion, signals completion = true → Comes (.user signals) completion := by
  obtain ⟨stops, comes⟩ := @comes_leaf V E (.user signals) _
    (fun r => { kind := .user signals, receiver := r }) .install (by simp)
    (fun _ _ => rfl) (fun _ => rfl) (fun _ => rfl)
  exact ⟨stops, fun completion holds => comes completion fun _ => by simp [Kind.signal, holds]⟩

/-! ## Stages -/

/-- A sender that is followed by a stage. -/
theorem Stops.followed {whole : Sender V E} (stage : Stage V E) (stops : Stops sender)
    (submits : ∀ s r choice, submit whole r choice s = some (s, [.submit sender (stage :: r)])) :
    Stops whole := by
  intro s r uncanceled
  obtain ⟨s', signals, goes⟩ := stops s (stage :: r) uncanceled
  obtain ⟨last, same, -, passes⟩ := @goes_past V E s' r .done _ true [.user] stage (by simp)
  have submitted : exec 0 .return s (.submit whole r) =
    some (s, [.submit sender (stage :: r)]) := submits s r .return
  exact ⟨last, same.trans signals, (goes_on submitted rfl).trans (goes.trans passes)⟩

/-- What a stage makes of a value comes, if it comes of what the stage then calls. -/
theorem Comes.followed {whole : Sender V E} (stage : Stage V E) {first last : Completion V E}
    (comes : Comes sender first) (ends : last ∈ first.andThen stage.sends)
    (submits : ∀ s r choice, submit whole r choice s = some (s, [.submit sender (stage :: r)]))
    (goesOn : ∀ v s r, first = .value v → s.canceled = false → ∃ s', s'.signals = s.signals ∧
      s'.canceled = false ∧ Goes false s ((enter false v stage r s).2 ++ [.user]) s'
        [.signal last r, .user]) : Comes whole last := by
  intro s r uncanceled
  obtain ⟨s', signals, canceled, goes⟩ := comes s (stage :: r) uncanceled
  have submitted : exec 0 .return s (.submit whole r) =
    some (s, [.submit sender (stage :: r)]) := submits s r .return
  cases first with
  | value v =>
    obtain ⟨entered, same, still, into⟩ := @goes_into V E s' r _ false [.user] stage v canceled
    obtain ⟨after, kept, open_, onward⟩ := goesOn v entered r rfl still
    have made : (enter false v stage r entered).2 = (enter false v stage r s').2 := rfl
    rw [made] at onward
    exact ⟨after, kept.trans (same.trans signals), open_,
      (goes_on submitted rfl).trans (goes.trans (into.trans onward))⟩
  | error e =>
    obtain rfl := ends
    obtain ⟨after, same, still, passes⟩ :=
      @goes_past V E s' r (.error e) _ false [.user] stage (by simp)
    exact ⟨after, same.trans signals, still.trans canceled,
      (goes_on submitted rfl).trans (goes.trans passes)⟩
  | done =>
    obtain rfl := ends
    obtain ⟨after, same, still, passes⟩ := @goes_past V E s' r .done _ false [.user] stage (by simp)
    exact ⟨after, same.trans signals, still.trans canceled,
      (goes_on submitted rfl).trans (goes.trans passes)⟩

/-- The function of an `async_then` is called. -/
def Answers (answer : Answer V E) (completion : Completion V E) : Prop :=
  ∀ s r, s.canceled = false → ∃ s', s'.signals = s.signals ∧ s'.canceled = false ∧
    Goes false s [.asyncFunction answer r, .user] s' [.signal completion r, .user]

/-- Any composition can be stopped. -/
theorem stops : (sender : Sender V E) → Stops sender
  | .async => comes_async.1
  | .asyncWait => comes_asyncWait.1
  | .user signals => (comes_user signals).1
  | .then sender f => (stops sender).followed (.then f) fun _ _ _ => rfl
  | .asyncThen sender f => (stops sender).followed (.asyncThen f) fun _ _ _ => rfl
  | .connect sender1 sender2 => (stops sender1).followed (.connect sender2) fun _ _ _ => rfl
  | .wrap sender => (stops sender).followed .wrap fun _ _ _ => rfl

mutual

/-- Whatever it may send comes. -/
theorem comes : (sender : Sender V E) → ∀ completion ∈ sender.sends, Comes sender completion
  | .async, _, rfl => comes_async.2
  | .asyncWait, _, rfl => comes_asyncWait.2
  | .user signals, completion, holds => (comes_user signals).2 completion holds
  | .then sender f, _, ⟨first, member, ends⟩ => by
    refine (comes sender first member).followed (.then f) ends (fun _ _ _ => rfl) ?_
    rintro v s r rfl uncanceled
    obtain rfl := ends
    exact ⟨s, rfl, uncanceled, goes_on rfl rfl⟩
  | .asyncThen sender f, completion, ⟨first, member, ends⟩ => by
    refine (comes sender first member).followed (.asyncThen f) ends (fun _ _ _ => rfl) ?_
    rintro v s r rfl uncanceled
    exact answers (f v) completion ends s r uncanceled
  | .connect sender1 sender2, completion, ⟨first, member, ends⟩ => by
    refine (comes sender1 first member).followed (.connect sender2) ends (fun _ _ _ => rfl) ?_
    rintro v s r rfl uncanceled
    exact comes sender2 completion ends s r uncanceled
  | .wrap sender, completion, member => by
    have ends : completion ∈ completion.andThen (Stage.wrap : Stage V E).sends := by
      cases completion <;> rfl
    refine (comes sender completion member).followed .wrap ends (fun _ _ _ => rfl) ?_
    rintro v s r rfl uncanceled
    exact ⟨s, rfl, uncanceled, .start⟩

theorem answers : (answer : Answer V E) → ∀ completion ∈ answer.sends, Answers answer completion
  | .throw _, _, rfl => fun s _ uncanceled => ⟨s, rfl, uncanceled, goes_on rfl rfl⟩
  | .submit sender, completion, member => fun s r uncanceled => by
    obtain ⟨s', signals, canceled, goes⟩ := comes sender completion member s r uncanceled
    have submits : exec 0 .return s (.asyncFunction (.submit sender) r) =
      some (s, [.submit sender r]) := rfl
    exact ⟨s', signals, canceled, (goes_on submits rfl).trans goes⟩

end

/-! ## Observations -/

/-- In some run the composition sends this and nothing else. -/
def Observed (allowed : Bool) (sender : Sender V E) (completion : Completion V E) : Prop :=
  ∃ threads config, Reachable exec (Requests allowed) (start sender threads) config ∧
    config.state.signals = [completion]

/-- What may be sent in a run in which cancelation may be requested, or not. -/
def expected (allowed : Bool) (sender : Sender V E) : Set (Completion V E) :=
  {completion | completion ∈ sender.sends ∨ allowed = true ∧ completion = .done}

theorem goes_of_expected (member : completion ∈ expected allowed sender) : ∃ s, s.signals = [] ∧
    Goes allowed { sender, submitted := true } [.submit sender [], .user] s
      [.signal completion [], .user] := by
  rcases member with sends | ⟨rfl, rfl⟩
  · obtain ⟨s, signals, -, goes⟩ :=
      comes sender completion sends { sender, submitted := true } [] rfl
    refine ⟨s, signals, Reachable.mono (fun s call choice quiet request => ?_) goes⟩
    cases quiet request
  · exact stops sender { sender, submitted := true } [] rfl

theorem observed_of_expected (member : completion ∈ expected allowed sender) :
    Observed allowed sender completion := by
  obtain ⟨s, signals, goes⟩ := goes_of_expected member
  have submits : exec 0 .submit ({ sender } : State V E) .user =
    some ({ sender, submitted := true }, [.submit sender [], .user]) := rfl
  have sends : exec 0 .return s (.signal completion []) =
    some ({ s.reset with signals := [completion] }, [.user]) := by
    simp [exec, signal, State.reset, signals]
  have whole : Goes allowed { sender } [.user] { s.reset with signals := [completion] }
      [.user, .user] :=
    (goes_step .submit (by simp) submits rfl).trans (goes.trans (goes_on sends rfl))
  exact ⟨1, _, whole, rfl⟩

theorem sound_of_reachable {threads : ℕ} {config : Config (State V E) (SenderCall V E)}
    (reached : Reachable exec (Requests allowed) (start sender threads) config) :
    Sound (expected allowed sender) config.state config.pending := by
  refine reached.invariant (Sound (expected allowed sender)) ⟨fun _ => .inl, ?_, ?_, ?_, ?_⟩
    fun _ _ _ _ _ _ _ sound permitted ran =>
      exec_sound sound (fun request => .inr ⟨permitted request, rfl⟩) ran
  · exact fun canceled => by cases canceled
  · exact fun _ member => by cases member
  · intro call member
    rw [start, Config.pending_replicate] at member
    exact Multiset.eq_of_mem_replicate member ▸ sends_user
  · exact fun _ inside => absurd inside (Nat.not_lt_zero _)

theorem expected_of_observed (observed : Observed allowed sender completion) :
    completion ∈ expected allowed sender := by
  obtain ⟨threads, config, reached, signals⟩ := observed
  exact (sound_of_reachable reached).signals completion (by simp [signals])

/-- **What a composition sends** is what its parts send and its functions make of that, and in a
run in which cancelation is requested also `done`: on any number of threads and with any timing
nothing else is sent, and all of it is sent in some run. -/
theorem observed_iff : Observed allowed sender completion ↔
    completion ∈ sender.sends ∨ allowed = true ∧ completion = .done :=
  ⟨expected_of_observed, observed_of_expected⟩

/-- A composition that was submitted, of which no call is on its way and no leaf is left, has
sent one thing, and it is one of these. -/
theorem sends_once {threads : ℕ} {config : Config (State V E) (SenderCall V E)}
    (reached : Reachable exec (fun s call choice => FiresInstalled s call choice ∧
      Requests allowed s call choice) (start sender threads) config)
    (submitted : config.state.submitted = true)
    (arrived : ∀ call ∈ config.pending, SenderComposition.able call.erase = 0)
    (fired : ∀ i < config.state.next, (config.state.leaves i).fired = true) :
    ∃ completion, config.state.signals = [completion] ∧
      (completion ∈ sender.sends ∨ allowed = true ∧ completion = .done) := by
  have sound := sound_of_reachable (reached.mono fun _ _ _ => And.right)
  have once := (sane_erase (reached.mono fun _ _ _ => And.left)).once
  have none : SenderComposition.unfired config.state.erase = 0 := by
    refine Finset.sum_eq_zero fun i inside => ?_
    have gone : (config.state.erase.leaves i).fired = true :=
      fired i (Finset.mem_range.mp inside)
    rw [gone]
    rfl
  have silent : weight SenderComposition.able (eraseConfig config).pending = 0 := by
    refine Multiset.sum_eq_zero fun n member => ?_
    obtain ⟨call, held, rfl⟩ := Multiset.mem_map.mp member
    have mapped : (eraseConfig config).pending = config.pending.map (·.erase) := by
      simp [Config.pending, eraseConfig, Config.map, List.map_flatten]
    rw [mapped] at held
    obtain ⟨made, waiting, rfl⟩ := Multiset.mem_map.mp held
    exact arrived made waiting
  have counted : config.state.signals.length = 1 := by
    have count : config.state.erase.signals.length = config.state.signals.length :=
      List.length_map _
    have sent : config.state.erase.submitted = true := submitted
    rw [none, silent, sent, count] at once
    exact once
  obtain ⟨completion, same⟩ := List.length_eq_one_iff.mp counted
  exact ⟨completion, same, sound.signals completion (by simp [same])⟩

end Tconcurrent.SenderValues
