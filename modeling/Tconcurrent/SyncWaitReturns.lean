import Tconcurrent.SyncWait

/-! What `sync_wait` returns, that it does return, and when its receiver uses what is destroyed. -/
namespace Tconcurrent.SyncWait
open Interleaving SenderValues

section

variable {V E : Type} [Inhabited V] {s s' : State V E} {call : SyncCall V E}
  {calls : List (SyncCall V E)}

/-- What a step does. -/
inductive Stepped (thread : ℕ) (s : State V E) :
    SyncCall V E → Choice V E → State V E → List (SyncCall V E) → Prop
  | completes {completion choice} :
      Stepped thread s (.sender (.signal completion [])) (.sender choice)
        { s with composition := (signal completion [] s.composition).1 } [.emplace completion]
  | sender {made choice composition calls} (goesOn : ∀ completion, made ≠ .signal completion [])
      (ran : SenderValues.exec thread choice s.composition made = some (composition, calls)) :
      Stepped thread s (.sender made) (.sender choice) { s with composition }
        (calls.map .sender)
  | emplace {completion choice} : Stepped thread s (.emplace completion) choice
      { s.use with data := some completion } [.notifyOne]
  | notifyOne {choice} : Stepped thread s .notifyOne choice
      { s.use with asleep := false, notified := s.notified + 1 } []
  | returns {completion choice} (data : s.data = some completion) : Stepped thread s .wait choice
      { s with returned := some (outcome completion), returnedEarly := s.notified == 0 } []
  | sleeps {choice} (data : s.data = none) :
      Stepped thread s .wait choice { s with asleep := true } [.sleep]
  | wakes {choice} : Stepped thread s .sleep choice { s with asleep := false } [.wait]

theorem stepped_of_exec {thread : ℕ} {choice : Choice V E}
    (ran : exec thread choice s call = some (s', calls)) :
    Stepped thread s call choice s' calls := by
  cases call with
  | sender made =>
    cases choice with
    | sender choice =>
      simp only [exec] at ran
      unfold senderExec at ran
      split at ran
      · cases ran
        exact .completes
      · rename_i other
        obtain ⟨⟨composition, made'⟩, ran', same⟩ := Option.map_eq_some_iff.mp ran
        cases same
        exact .sender other ran'
    | go | wake => cases ran
  | emplace completion =>
    obtain ⟨rfl, rfl⟩ := Prod.mk.inj (Option.some.inj ran)
    exact .emplace
  | notifyOne =>
    obtain ⟨rfl, rfl⟩ := Prod.mk.inj (Option.some.inj ran)
    exact .notifyOne
  | wait =>
    have waits : wait s = (s', calls) := Option.some.inj ran
    unfold wait at waits
    split at waits <;> cases waits
    · exact .returns ‹_›
    · exact .sleeps ‹_›
  | sleep =>
    simp only [exec] at ran
    split at ran
    · cases ran
    · cases ran
      exact .wakes

end

/-! ## The composition goes on as it does alone -/

section

variable {V E : Type} [Inhabited V] {sender : Sender V E} {threads : ℕ}
  {config : Config (State V E) (SyncCall V E)}

/-- Restrictions on what is done to the composition. -/
def Within (permitted : SenderValues.State V E → SenderCall V E → SenderValues.Choice V E → Prop)
    (s : State V E) (call : SyncCall V E) (choice : Choice V E) : Prop :=
  ∀ made choice', call = .sender made → choice = .sender choice' →
    permitted s.composition made choice'

/-- What a thread does outside of the composition is code of the user to it. -/
def SyncCall.inside : SyncCall V E → SenderCall V E
  | .sender call => call
  | _ => .user

theorem composition_reachable
    {permitted : SenderValues.State V E → SenderCall V E → SenderValues.Choice V E → Prop}
    (harmless : ∀ c choice, choice = .return ∨ choice = .submit → permitted c .user choice)
    (reached : Reachable exec (Within permitted) (start sender threads) config) :
    Reachable SenderValues.exec permitted (SenderValues.start sender (threads + 1))
      (config.map State.composition SyncCall.inside) := by
  have submits : Reachable SenderValues.exec permitted (SenderValues.start sender (threads + 1))
      ((start sender threads).map State.composition SyncCall.inside) := by
    refine @Reachable.next _ _ _ _ _ _ _ _ 0 .submit .start (fun call current => ?_) ?_
    · cases current
      exact harmless _ _ (.inr rfl)
    · simp [SenderValues.start, start, Config.next, Config.map, List.replicate_succ,
        SenderValues.exec, SenderValues.user, SyncCall.inside]
  refine submits.trans (reached.simulates _ _ ?_)
  intro thread choice s call s' calls within ran
  have idle : permitted s.composition .user .return := harmless _ _ (.inl rfl)
  cases stepped_of_exec ran with
  | completes => exact .inr ⟨_, within _ _ rfl rfl, rfl⟩
  | sender goesOn ran' =>
    refine .inr ⟨_, within _ _ rfl rfl, ?_⟩
    rw [List.map_map]
    exact ran'.trans (by simp [Function.comp_def, SyncCall.inside])
  | emplace => exact .inl ⟨rfl, rfl⟩
  | notifyOne => exact .inr ⟨.return, idle, rfl⟩
  | returns => exact .inr ⟨.return, idle, rfl⟩
  | sleeps => exact .inl ⟨rfl, rfl⟩
  | wakes => exact .inl ⟨rfl, rfl⟩

/-! ## What holds in every run -/

structure Keeps (c c' : SenderValues.State V E) : Prop where
  signals : c'.signals = c.signals
  submitted : c.submitted = true → c'.submitted = true

omit [Inhabited V] in
theorem requestCancel_keeps (c : SenderValues.State V E) :
    Keeps c (requestCancel c).1 := by
  unfold requestCancel
  split <;> exact ⟨rfl, id⟩

omit [Inhabited V] in
theorem fireLeaf_keeps (i : ℕ) (completion : Completion V E) (c : SenderValues.State V E) :
    Keeps c (fireLeaf i completion c).1 := by
  unfold fireLeaf
  dsimp only
  split <;> exact ⟨rfl, id⟩

theorem user_keeps {choice : SenderValues.Choice V E} {c c' : SenderValues.State V E}
    {calls : List (SenderCall V E)} (ran : user c choice = some (c', calls)) :
    Keeps c c' := by
  cases choice with
  | «return» =>
    cases ran
    exact ⟨rfl, id⟩
  | submit =>
    simp only [user] at ran
    split at ran
    · cases ran
    · cases ran
      exact ⟨rfl, fun _ => rfl⟩
  | requestCancel =>
    cases ran
    exact requestCancel_keeps c
  | fire i completion =>
    simp only [user] at ran
    split at ran
    · obtain ⟨fired, -, same⟩ := Option.map_eq_some_iff.mp ran
      cases same
      exact fireLeaf_keeps i fired c
    · cases ran
  | install | bare | ignore => cases ran

/-- Only the last receiver is told. -/
theorem exec_keeps {thread : ℕ} {choice : SenderValues.Choice V E} {made : SenderCall V E}
    {c c' : SenderValues.State V E} {calls : List (SenderCall V E)}
    (goesOn : ∀ completion, made ≠ .signal completion [])
    (ran : SenderValues.exec thread choice c made = some (c', calls)) : Keeps c c' := by
  cases made with
  | user => exact user_keeps ran
  | submit sender r =>
    have ran : submit sender r choice c = some (c', calls) := ran
    cases sender with
    | user =>
      cases choice <;> cases ran <;> exact ⟨rfl, id⟩
    | async | asyncWait | «then» | asyncThen | connect | wrap =>
      cases ran
      exact ⟨rfl, id⟩
  | setCanceler i | arm i =>
    cases ran
    exact ⟨rfl, id⟩
  | cancelLeaf i =>
    have ran : cancelLeaf i c choice = (c', calls) := Option.some.inj ran
    have fires (ran : fireLeaf i .done c = (c', calls)) : Keeps c c' := by
      have kept := fireLeaf_keeps i .done c
      rwa [ran] at kept
    unfold cancelLeaf at ran
    split at ran
    · split at ran
      · cases ran
        exact ⟨rfl, id⟩
      · exact fires ran
    · exact fires ran
  | signal completion r =>
    have ran : signal completion r c = (c', calls) := Option.some.inj ran
    cases r with
    | nil => exact absurd rfl (goesOn completion)
    | cons stage r =>
      cases stage <;> cases completion <;> cases ran <;> exact ⟨rfl, id⟩
  | check requested v stage r =>
    have ran : check requested v stage r c = (c', calls) := Option.some.inj ran
    unfold check at ran
    split at ran <;> cases ran <;> exact ⟨rfl, id⟩
  | enter requested v stage r =>
    cases ran
    exact ⟨rfl, id⟩
  | function result r =>
    cases choice with
    | «return» =>
      cases ran
      exact ⟨rfl, id⟩
    | requestCancel =>
      cases ran
      exact requestCancel_keeps c
    | submit | fire | install | bare | ignore => cases ran
  | asyncFunction answer r =>
    cases choice with
    | «return» =>
      cases answer <;> cases ran <;> exact ⟨rfl, id⟩
    | requestCancel =>
      cases ran
      exact requestCancel_keeps c
    | submit | fire | install | bare | ignore => cases ran

/-- The completions that a call will have put into `sync_state`. -/
def emplaces : SyncCall V E → ℕ
  | .emplace _ => 1
  | _ => 0

def notifies : SyncCall V E → ℕ
  | .notifyOne => 1
  | _ => 0

def waits : SyncCall V E → ℕ
  | .wait | .sleep => 1
  | _ => 0

structure Sane (s : State V E) (pending : Multiset (SyncCall V E)) : Prop where
  submitted : s.composition.submitted = true
  sent : ∀ completion, .emplace completion ∈ pending → completion ∈ s.composition.signals
  data : ∀ completion, s.data = some completion → completion ∈ s.composition.signals
  counted : weight emplaces pending + weight notifies pending + s.notified =
    s.composition.signals.length
  stored : s.data = none → weight emplaces pending = s.composition.signals.length
  announced : s.data.isSome = true → 0 < weight notifies pending + s.notified
  told : s.data.isSome = true → s.asleep = true → 0 < weight notifies pending
  waiting : weight waits pending + s.returned.isSome.toNat = 1
  returned : ∀ result, s.returned = some result →
    ∃ completion, s.data.isSome = true ∧ completion ∈ s.composition.signals ∧
      result = outcome completion
  early : s.returned = none → s.returnedEarly = false
  late : s.returned.isSome = true → s.returnedEarly = false → 0 < s.notified
  /-- What is destroyed is used by the notification only, if that comes last. -/
  used : s.composition.signals.length ≤ 1 →
    (s.usedDestroyed = true ↔ s.returnedEarly = true ∧ 0 < s.notified)

end

section

variable {V E : Type} {s : State V E} {others : Multiset (SyncCall V E)}

/-- A call that is made to the composition, and the calls it makes. -/
theorem Sane.goesOn {made : SenderCall V E} {made' : List (SenderCall V E)}
    {composition : SenderValues.State V E} (sane : Sane s (.sender made ::ₘ others))
    (keeps : Keeps s.composition composition) :
    Sane { s with composition } (↑(made'.map SyncCall.sender) + others) := by
  have signals : composition.signals = s.composition.signals := keeps.signals
  have none (measure : SyncCall V E → ℕ) (silent : ∀ made, measure (.sender made) = 0) :
      weight measure (↑(made'.map SyncCall.sender) + others) =
        weight measure (.sender made ::ₘ others) := by
    rw [weight_add, weight_cons, silent, zero_add, add_eq_right]
    refine Multiset.sum_eq_zero fun value member => ?_
    obtain ⟨call, held, rfl⟩ := Multiset.mem_map.mp member
    obtain ⟨made, -, rfl⟩ := List.mem_map.mp (Multiset.mem_coe.mp held)
    exact silent made
  have emplacing := none emplaces fun _ => rfl
  have notifying := none notifies fun _ => rfl
  have waiting := none waits fun _ => rfl
  refine ⟨keeps.submitted sane.submitted, fun completion member => ?_, ?_, ?_, ?_, ?_, ?_, ?_, ?_,
    sane.early, sane.late, ?_⟩
  · rcases Multiset.mem_add.mp member with member | member
    · obtain ⟨_, -, same⟩ := List.mem_map.mp (Multiset.mem_coe.mp member)
      cases same
    · rw [signals]
      exact sane.sent completion (Multiset.mem_cons_of_mem member)
  · rw [signals]
    exact sane.data
  · rw [emplacing, notifying, signals]
    exact sane.counted
  · rw [emplacing, signals]
    exact sane.stored
  · rw [notifying]
    exact sane.announced
  · rw [notifying]
    exact sane.told
  · rw [waiting]
    exact sane.waiting
  · rw [signals]
    exact sane.returned
  · rw [signals]
    exact sane.used

/-- The last receiver is told. -/
theorem Sane.completes {completion : Completion V E}
    (sane : Sane s (.sender (.signal completion []) ::ₘ others)) :
    Sane { s with composition := (signal completion [] s.composition).1 }
      (↑[SyncCall.emplace completion] + others) := by
  have signals : (signal completion [] s.composition).1.signals =
      s.composition.signals ++ [completion] := rfl
  have counted := sane.counted
  have stored := sane.stored
  have announced := sane.announced
  have told := sane.told
  have waiting := sane.waiting
  simp only [weight_cons, emplaces, notifies, waits, zero_add]
    at counted stored announced told waiting
  refine ⟨sane.submitted, fun other member => ?_, fun other data => ?_, ?_, fun empty => ?_, ?_, ?_,
    ?_, fun result returned => ?_, sane.early, sane.late, fun single => ?_⟩
  · rw [signals, List.mem_append]
    rcases Multiset.mem_add.mp member with member | member
    · cases List.mem_singleton.mp (Multiset.mem_coe.mp member)
      exact .inr (List.mem_singleton.mpr rfl)
    · exact .inl (sane.sent other (Multiset.mem_cons_of_mem member))
  · rw [signals]
    exact List.mem_append_left _ (sane.data other data)
  · simp only [signals, Multiset.coe_singleton, weight_add, weight_singleton, emplaces, notifies,
      List.length_append, List.length_singleton]
    omega
  · have before := stored empty
    simp only [signals, Multiset.coe_singleton, weight_add, weight_singleton, emplaces,
      List.length_append, List.length_singleton]
    omega
  · simpa [notifies] using announced
  · simpa [notifies] using told
  · simpa [SyncWait.waits] using waiting
  · obtain ⟨completion', full, member, same⟩ := sane.returned result returned
    exact ⟨completion', full, List.mem_append_left _ member, same⟩
  · rw [signals, List.length_append] at single
    exact sane.used (by omega)

/-- The receiver writes the data. -/
theorem Sane.emplace {completion : Completion V E}
    (sane : Sane s (.emplace completion ::ₘ others)) :
    Sane { s.use with data := some completion }
      (↑([.notifyOne] : List (SyncCall V E)) + others) := by
  have counted := sane.counted
  have announced := sane.announced
  have waiting := sane.waiting
  have sent := sane.sent completion (Multiset.mem_cons_self _ _)
  simp only [weight_cons, emplaces, notifies, waits, zero_add] at counted announced waiting
  refine ⟨sane.submitted, fun other member => ?_, fun other data => ?_, ?_, fun empty => ?_,
    fun _ => ?_, fun _ _ => ?_, ?_, fun result returned => ?_, sane.early, sane.late,
    fun single => ?_⟩
  · rcases Multiset.mem_add.mp member with member | member
    · cases List.mem_singleton.mp (Multiset.mem_coe.mp member)
    · exact sane.sent other (Multiset.mem_cons_of_mem member)
  · obtain rfl := Option.some.inj data
    exact sent
  · simp only [State.use, Multiset.coe_singleton, weight_add, weight_singleton, emplaces, notifies]
    omega
  · cases empty
  · simp only [Multiset.coe_singleton, weight_add, weight_singleton, notifies]
    omega
  · simp only [Multiset.coe_singleton, weight_add, weight_singleton, notifies]
    omega
  · simpa [SyncWait.waits, State.use] using waiting
  · obtain ⟨completion', -, member, same⟩ := sane.returned result returned
    exact ⟨completion', rfl, member, same⟩
  · -- it is the first, so there was no data to return with
    have empty : s.data = none := by
      by_contra full
      have positive := announced (Option.isSome_iff_ne_none.mpr full)
      have single : s.composition.signals.length ≤ 1 := single
      omega
    have waits : s.returned = none := by
      by_contra returned
      obtain ⟨result, returned⟩ := Option.ne_none_iff_exists'.mp returned
      obtain ⟨-, full, -⟩ := sane.returned result returned
      rw [empty] at full
      cases full
    have before := sane.used single
    simpa [State.use, waits] using before

theorem Sane.notifyOne (sane : Sane s (.notifyOne ::ₘ others)) :
    Sane { s.use with asleep := false, notified := s.notified + 1 }
      (↑([] : List (SyncCall V E)) + others) := by
  have counted := sane.counted
  have stored := sane.stored
  have waiting := sane.waiting
  simp only [weight_cons, emplaces, notifies, waits, zero_add] at counted stored waiting
  rw [Multiset.coe_nil, zero_add]
  refine ⟨sane.submitted, fun other member => sane.sent other (Multiset.mem_cons_of_mem member),
    sane.data, ?_, stored, fun _ => by simp, fun _ asleep => by simp at asleep, waiting,
    sane.returned, sane.early, fun _ _ => by simp, fun single => ?_⟩
  · simp only [State.use]
    omega
  · have first : s.notified = 0 := by
      have single : s.composition.signals.length ≤ 1 := single
      omega
    have before := sane.used single
    have late := sane.late
    have early := sane.early
    simp only [State.use, first, lt_irrefl, and_false, iff_false, Bool.not_eq_true] at before ⊢ late
    cases returned : s.returned with
    | none => simp [before, early returned]
    | some result =>
      have earlier : s.returnedEarly = true := by simpa [returned] using late
      simp [earlier]

theorem Sane.returns {completion : Completion V E} (data : s.data = some completion)
    (sane : Sane s (.wait ::ₘ others)) :
    Sane { s with returned := some (outcome completion), returnedEarly := s.notified == 0 }
      (↑([] : List (SyncCall V E)) + others) := by
  have counted := sane.counted
  have stored := sane.stored
  have announced := sane.announced
  have told := sane.told
  have waiting := sane.waiting
  simp only [weight_cons, emplaces, notifies, waits, zero_add]
    at counted stored announced told waiting
  rw [Multiset.coe_nil, zero_add]
  have waits : s.returned = none := by
    cases returned : s.returned with
    | none => rfl
    | some result =>
      rw [returned] at waiting
      simp at waiting
  refine ⟨sane.submitted, fun other member => sane.sent other (Multiset.mem_cons_of_mem member),
    sane.data, counted, stored, announced, told, ?_, fun result same => ?_, fun absent => ?_,
    fun _ last => ?_, fun single => ?_⟩
  · rw [waits] at waiting
    simp at waiting ⊢
    omega
  · obtain rfl := Option.some.inj same
    exact ⟨completion, by rw [data]; rfl, sane.data completion data, rfl⟩
  · cases absent
  · exact Nat.pos_of_ne_zero (by simpa using last)
  · have before := sane.used single
    have early := sane.early waits
    simp only [early, Bool.false_eq_true, false_and, iff_false] at before
    simp [before]

/-- The thread falls asleep, or wakes up. -/
theorem Sane.waitsOn {call call' : SyncCall V E} (asleep : Bool) (waiter : waits call = 1)
    (waiter' : waits call' = 1) (empty : asleep = true → s.data = none)
    (sane : Sane s (call ::ₘ others)) : Sane { s with asleep } (call' ::ₘ others) := by
  have silent {call : SyncCall V E} (waiter : waits call = 1) :
      emplaces call = 0 ∧ notifies call = 0 := by
    cases call with
    | wait | sleep => exact ⟨rfl, rfl⟩
    | sender | emplace | notifyOne => cases waiter
  obtain ⟨emplaces_call, notifies_call⟩ := silent waiter
  obtain ⟨emplaces_call', notifies_call'⟩ := silent waiter'
  have counted := sane.counted
  have stored := sane.stored
  have announced := sane.announced
  have waiting := sane.waiting
  simp only [weight_cons, emplaces_call, notifies_call, waiter, zero_add]
    at counted stored announced waiting
  refine ⟨sane.submitted, fun other member => ?_, sane.data, ?_, ?_, ?_, fun full asleep => ?_, ?_,
    sane.returned, sane.early, sane.late, sane.used⟩
  · rcases Multiset.mem_cons.mp member with rfl | member
    · cases waiter'
    · exact sane.sent other (Multiset.mem_cons_of_mem member)
  · simpa only [weight_cons, emplaces_call', notifies_call', zero_add] using counted
  · simpa only [weight_cons, emplaces_call', zero_add] using stored
  · simpa only [weight_cons, notifies_call', zero_add] using announced
  · rw [empty asleep] at full
    cases full
  · simpa only [weight_cons, waiter'] using waiting

theorem exec_sane [Inhabited V] {s' : State V E} {call : SyncCall V E} {calls : List (SyncCall V E)}
    {thread : ℕ} {choice : Choice V E} (sane : Sane s (call ::ₘ others))
    (ran : exec thread choice s call = some (s', calls)) : Sane s' (↑calls + others) := by
  cases stepped_of_exec ran with
  | completes => exact sane.completes
  | sender goesOn ran' => exact sane.goesOn (exec_keeps goesOn ran')
  | emplace => exact sane.emplace
  | notifyOne => exact sane.notifyOne
  | returns data => exact sane.returns data
  | sleeps data => exact sane.waitsOn true rfl rfl fun _ => data
  | wakes => exact sane.waitsOn false rfl rfl (by simp)

theorem sane_start (sender : Sender V E) (threads : ℕ) :
    Sane (start sender threads).state (start sender threads).pending := by
  have pending : (start sender threads).pending =
      .sender (.submit sender []) ::ₘ .wait ::ₘ Multiset.replicate threads (.sender .user) := by
    rw [← Config.pending_replicate (start sender threads).state threads]
    rfl
  have none (measure : SyncCall V E → ℕ) (silent : ∀ made, measure (.sender made) = 0) :
      weight measure (start sender threads).pending = measure .wait := by
    rw [pending, weight_cons, weight_cons, silent, zero_add, add_eq_left]
    refine Multiset.sum_eq_zero fun value member => ?_
    obtain ⟨call, held, rfl⟩ := Multiset.mem_map.mp member
    rw [Multiset.eq_of_mem_replicate held, silent]
  refine ⟨rfl, fun _ member => ?_, by simp [start], ?_, fun _ => ?_, by simp [start],
    by simp [start], ?_, by simp [start], fun _ => rfl, by simp [start], fun _ => ?_⟩
  · rw [pending] at member
    simp [Multiset.mem_replicate] at member
  · rw [none emplaces fun _ => rfl, none notifies fun _ => rfl]
    rfl
  · rw [none emplaces fun _ => rfl]
    rfl
  · rw [none waits fun _ => rfl]
    rfl
  · simp [start]

theorem sane_of_reachable [Inhabited V] {sender : Sender V E} {threads : ℕ}
    {allowed : State V E → SyncCall V E → Choice V E → Prop}
    {config : Config (State V E) (SyncCall V E)}
    (reached : Reachable exec allowed (start sender threads) config) :
    Sane config.state config.pending :=
  reached.invariant Sane (sane_start sender threads) fun _ _ _ _ _ _ _ sane _ ran =>
    exec_sane sane ran

end

/-! ## What is returned -/

section

variable {V E : Type} [Inhabited V] {sender : Sender V E} {permits : Bool}
  {c c' : SenderValues.State V E} {calls : List (SenderCall V E)}

theorem senderExec_goesOn {thread : ℕ} {choice : SenderValues.Choice V E} {s : State V E}
    {made : SenderCall V E} (goesOn : ∀ completion, made ≠ .signal completion [])
    (ran : SenderValues.exec thread choice s.composition made = some (c', calls)) :
    senderExec thread choice s made = some ({ s with composition := c' }, calls.map .sender) := by
  unfold senderExec
  split
  · exact absurd rfl (goesOn _)
  · rw [ran]
    rfl

/-- A thread that runs code of the user goes on with that after each call, unless it ends. -/
theorem user_calls {choice : SenderValues.Choice V E} (ran : user c choice = some (c', calls)) :
    calls = [] ∨ ∃ inner, calls = inner ++ [.user] := by
  cases choice with
  | «return» =>
    cases ran
    exact .inl rfl
  | submit =>
    simp only [user] at ran
    split at ran
    · cases ran
    · cases ran
      exact .inr ⟨[_], rfl⟩
  | requestCancel =>
    cases ran
    exact .inr ⟨_, rfl⟩
  | fire i completion =>
    simp only [user] at ran
    split at ran
    · obtain ⟨fired, -, same⟩ := Option.map_eq_some_iff.mp ran
      cases same
      exact .inr ⟨_, rfl⟩
    · cases ran
  | install | bare | ignore => cases ran

/-- What one thread does with a composition, two can do in `sync_wait`, until it has sent. -/
def Mirrored (permits : Bool) (sender : Sender V E) (c : SenderValues.State V E)
    (agenda : List (SenderCall V E)) : Prop :=
  c.signals ≠ [] ∨ agenda = [] ∨ ∃ inner threads, agenda = inner ++ [.user] ∧
    Reachable exec (Within (Requests permits)) (start sender 1) ⟨{ composition := c }, threads⟩ ∧
    (threads = [inner.map .sender ++ [.wait], [.sender .user]] ∨
      threads = [[.wait], inner.map .sender ++ [.sender .user]])

theorem Mirrored.next {thread : ℕ} {choice : SenderValues.Choice V E} {call : SenderCall V E}
    {rest : List (SenderCall V E)} (mirrored : Mirrored permits sender c (call :: rest))
    (permitted : Requests permits c call choice)
    (ran : SenderValues.exec thread choice c call = some (c', calls)) :
    Mirrored permits sender c' (calls ++ rest) := by
  have within : Within (Requests permits) { composition := c } (.sender call) (.sender choice) := by
    rintro _ _ ⟨⟩ ⟨⟩
    exact permitted
  by_cases last : ∃ completion, call = .signal completion []
  · obtain ⟨completion, rfl⟩ := last
    cases ran
    exact .inl (by simp)
  have goesOn (completion) : call ≠ .signal completion [] := fun same => last ⟨completion, same⟩
  rcases mirrored with sent | empty | ⟨inner, threads, agenda, reached, shape⟩
  · exact .inl (by rwa [(exec_keeps goesOn ran).signals])
  · cases empty
  cases inner with
  | nil =>
    obtain ⟨rfl, rfl⟩ := List.cons.inj agenda
    obtain rfl : threads = [[.wait], [.sender .user]] := by simpa using shape
    have stepped : exec 1 (.sender choice) ({ composition := c } : State V E) (.sender .user) =
        some ({ composition := c' }, calls.map .sender) := senderExec_goesOn goesOn ran
    rw [List.append_nil]
    rcases user_calls ran with rfl | ⟨inner, rfl⟩
    · exact .inr (.inl rfl)
    · refine .inr (.inr ⟨inner, [[.wait], inner.map .sender ++ [.sender .user]], rfl, ?_, .inr rfl⟩)
      refine @Reachable.next _ _ _ _ _ _ _ _ 1 (.sender choice) reached (fun made current => ?_) ?_
      · cases current
        exact within
      · simp [Config.next, stepped]
  | cons first inner =>
    obtain ⟨rfl, rfl⟩ := List.cons.inj agenda
    have anywhere (other : ℕ) : SenderValues.exec other choice c call = some (c', calls) := by
      cases call <;> exact ran
    have stepped (other : ℕ) :
        exec other (.sender choice) ({ composition := c } : State V E) (.sender call) =
          some ({ composition := c' }, calls.map .sender) :=
      senderExec_goesOn goesOn (anywhere other)
    refine .inr (.inr ⟨calls ++ inner, ?_⟩)
    rcases shape with rfl | rfl
    · refine ⟨[(calls ++ inner).map .sender ++ [.wait], [.sender .user]], by simp, ?_, .inl rfl⟩
      refine @Reachable.next _ _ _ _ _ _ _ _ 0 (.sender choice) reached (fun made current => ?_) ?_
      · cases current
        exact within
      · simp [Config.next, stepped]
    · refine ⟨[[.wait], (calls ++ inner).map .sender ++ [.sender .user]], by simp, ?_, .inr rfl⟩
      refine @Reachable.next _ _ _ _ _ _ _ _ 1 (.sender choice) reached (fun made current => ?_) ?_
      · cases current
        exact within
      · simp [Config.next, stepped]

omit [Inhabited V] in
theorem requests_user (permits : Bool) (c : SenderValues.State V E)
    (choice : SenderValues.Choice V E) (harmless : choice = .return ∨ choice = .submit) :
    Requests permits c .user choice := by
  rcases harmless with rfl | rfl <;> rintro ⟨⟩

/-- The last receiver is told, and `sync_wait` returns. -/
theorem returns_of_mirrored {completion : Completion V E} (unsent : c.signals = [])
    (mirrored : Mirrored permits sender c [.signal completion [], .user]) :
    ∃ config, Reachable exec (Within (Requests permits)) (start sender 1) config ∧
      config.state.returned = some (outcome completion) := by
  have quiet {s : State V E} {call : SyncCall V E} : Within (Requests permits) s call .go := by
    rintro _ _ - ⟨⟩
  have within : Within (Requests permits) { composition := c } (.sender (.signal completion []))
      (.sender .return) := by
    rintro _ _ ⟨⟩ ⟨⟩ ⟨⟩
  rcases mirrored with sent | empty | ⟨inner, threads, agenda, reached, shape⟩
  · exact absurd unsent sent
  · cases empty
  obtain rfl : inner = [.signal completion []] := by
    have both : inner ++ [SenderCall.user] = [.signal completion []] ++ [.user] := agenda.symm
    exact List.append_cancel_right both
  rcases shape with rfl | rfl
  · have told := @Reachable.next _ _ _ _ _ _ _ _ 0 (.sender .return) reached
      (fun _ current => by cases current; exact within) rfl
    have written := @Reachable.next _ _ _ _ _ _ _ _ 0 .go told (fun _ _ => quiet) rfl
    have notified := @Reachable.next _ _ _ _ _ _ _ _ 0 .go written (fun _ _ => quiet) rfl
    exact ⟨_, @Reachable.next _ _ _ _ _ _ _ _ 0 .go notified (fun _ _ => quiet) rfl, rfl⟩
  · have told := @Reachable.next _ _ _ _ _ _ _ _ 1 (.sender .return) reached
      (fun _ current => by cases current; exact within) rfl
    have written := @Reachable.next _ _ _ _ _ _ _ _ 1 .go told (fun _ _ => quiet) rfl
    exact ⟨_, @Reachable.next _ _ _ _ _ _ _ _ 0 .go written (fun _ _ => quiet) rfl, rfl⟩

/-- **What `sync_wait` returns or throws** is what the composition can send, on any number of
threads and with any timing, and each of these in some run. -/
theorem returned_iff {result : Except (Exc E) V} :
    (∃ threads config, Reachable exec (Within (Requests permits)) (start sender threads) config ∧
      config.state.returned = some result) ↔
    ∃ completion, (completion ∈ sender.sends ∨ permits = true ∧ completion = .done) ∧
      result = outcome completion := by
  constructor
  · rintro ⟨threads, config, reached, returned⟩
    obtain ⟨completion, -, sent, same⟩ := (sane_of_reachable reached).returned result returned
    have alone := composition_reachable (requests_user permits) reached
    exact ⟨completion, (sound_of_reachable alone).signals completion sent, same⟩
  · rintro ⟨completion, member, rfl⟩
    obtain ⟨s, unsent, goes⟩ := goes_of_expected member
    refine ⟨1, returns_of_mirrored unsent ?_⟩
    obtain ⟨agenda, threads, mirrored⟩ := goes.invariant_agenda (Mirrored permits sender)
      (.inr (.inr ⟨[.submit sender []], _, rfl, .start, .inl rfl⟩))
      fun _ _ _ _ _ _ _ mirrored permitted ran => mirrored.next permitted ran
    obtain rfl := List.singleton_inj.mp threads
    exact mirrored

end

/-! ## That it does return, and what it leaves behind -/

section

variable {V E : Type} [Inhabited V] {sender : Sender V E} {threads : ℕ}
  {config : Config (State V E) (SyncCall V E)}

/-- Nothing more comes by itself: the threads run code of the user or sleep, and each task and
timer has run or is canceled. -/
structure Settled (config : Config (State V E) (SyncCall V E)) : Prop where
  pending : ∀ call ∈ config.pending,
    call = .sender .user ∨ call = .sleep ∧ config.state.asleep = true
  fired : ∀ i < config.state.composition.next, (config.state.composition.leaves i).fired = true

omit [Inhabited V] in
theorem firesInstalled_user (c : SenderValues.State V E) (choice : SenderValues.Choice V E)
    (harmless : choice = .return ∨ choice = .submit) : FiresInstalled c .user choice := by
  rintro i completion rfl
  simp at harmless

/-- The restriction can be checked. -/
def firesInstalled (s : State V E) (call : SyncCall V E) (choice : Choice V E) : Bool :=
  match call, choice with
  | .sender _, .sender (.fire i _) =>
    match (s.composition.leaves i).kind with
    | .asyncWait => (s.composition.leaves i).installed
    | _ => true
  | _, _ => true

omit [Inhabited V] in
theorem firesInstalled_sound (s : State V E) (call : SyncCall V E) (choice : Choice V E)
    (checked : firesInstalled s call choice = true) : Within FiresInstalled s call choice := by
  rintro made _ rfl rfl i completion rfl kind
  simpa [firesInstalled, kind] using checked

def SyncCall.isUser : SyncCall V E → Bool
  | .sender .user => true
  | _ => false

omit [Inhabited V] in
theorem SyncCall.eq_of_isUser {call : SyncCall V E} (user : call.isUser = true) :
    call = .sender .user := by
  unfold SyncCall.isUser at user
  split at user
  · rfl
  · cases user

/-- A run in which a timer runs on another thread, and the thread that waits is asleep. -/
def timer : List (ℕ × Choice Unit Unit) :=
  [(0, .sender .return), (0, .sender .return), (0, .go), (1, .sender (.fire 0 .done)),
    (1, .sender .return)]

/-- **`sync_wait` returns.**  In a run on any number of threads in which no timer runs before its
canceler is set, it has returned when nothing more comes: the notification is never lost. -/
theorem returned_of_settled
    (reached : Reachable exec (Within FiresInstalled) (start sender threads) config)
    (settled : Settled config) : ∃ result, config.state.returned = some result := by
  by_contra never
  have waits : config.state.returned = none := by
    rw [Option.eq_none_iff_forall_ne_some]
    exact fun result returned => never ⟨result, returned⟩
  have sane := sane_of_reachable reached
  have silent (measure : SyncCall V E → ℕ) (user : measure (.sender .user) = 0)
      (sleep : measure .sleep = 0) : weight measure config.pending = 0 := by
    refine Multiset.sum_eq_zero fun n member => ?_
    obtain ⟨call, held, rfl⟩ := Multiset.mem_map.mp member
    rcases settled.pending call held with rfl | ⟨rfl, -⟩
    · exact user
    · exact sleep
  -- the thread is in its wait, and so asleep
  have asleep : config.state.asleep = true := by
    have waiting := sane.waiting
    rw [waits] at waiting
    obtain ⟨call, held, positive⟩ := @exists_of_weight_pos _ SyncWait.waits config.pending (by
      simp at waiting
      omega)
    rcases settled.pending call held with rfl | ⟨rfl, asleep⟩
    · cases positive
    · exact asleep
  -- it has not been told, as that would have woken it, and so nothing was sent
  have empty : config.state.data = none := by
    by_contra full
    have told := sane.told (Option.isSome_iff_ne_none.mpr full) asleep
    rw [silent notifies rfl rfl] at told
    exact Nat.lt_irrefl _ told
  have unsent := sane.stored empty
  rw [silent emplaces rfl rfl] at unsent
  -- but what was submitted has sent when nothing is left of it
  have alone := composition_reachable firesInstalled_user reached
  have arrived : ∀ call ∈ (config.map State.composition SyncCall.inside).pending,
      SenderComposition.able call.erase = 0 := by
    intro call member
    have mapped : (config.map State.composition SyncCall.inside).pending =
        config.pending.map SyncCall.inside := by
      simp [Config.pending, Config.map, List.map_flatten]
    rw [mapped] at member
    obtain ⟨made, held, rfl⟩ := Multiset.mem_map.mp member
    rcases settled.pending made held with rfl | ⟨rfl, -⟩ <;> rfl
  have within : Reachable SenderValues.exec
      (fun c call choice => FiresInstalled c call choice ∧ Requests true c call choice)
      (SenderValues.start sender (threads + 1)) (config.map State.composition SyncCall.inside) :=
    alone.mono fun _ _ _ installed => ⟨installed, fun _ => rfl⟩
  obtain ⟨completion, sent, -⟩ := sends_once within sane.submitted arrived settled.fired
  have one : config.state.composition.signals = [completion] := sent
  rw [one] at unsent
  cases unsent

/-- It is woken by the notification, with nothing left to do for the other thread. -/
theorem returned_of_timer : ∃ config : Config (State Unit Unit) (SyncCall Unit Unit),
    Settled config ∧ ∃ result, config.state.returned = some result := by
  have ran : ((start (.asyncWait : Sender Unit Unit) 1).runWithin exec firesInstalled
      (timer ++ [(1, .go), (1, .go), (0, .go), (0, .go)])).map (fun config =>
        config.threads.all (·.all SyncCall.isUser) && config.state.composition.next == 1 &&
          (config.state.composition.leaves 0).fired) = some true := by rfl
  obtain ⟨config, reached, holds⟩ := reachable_of_replay_within firesInstalled_sound _ _ ran
  simp only [Bool.and_eq_true, beq_iff_eq, List.all_eq_true] at holds
  obtain ⟨⟨users, one⟩, fired⟩ := holds
  have settled : Settled config := by
    constructor
    · intro call member
      obtain ⟨agenda, listed, held⟩ := List.mem_flatten.mp (Multiset.mem_coe.mp member)
      exact .inl (SyncCall.eq_of_isUser (users agenda listed call held))
    · rw [one]
      intro i inside
      obtain rfl := Nat.lt_one_iff.mp inside
      exact fired
  exact ⟨config, settled, returned_of_settled reached settled⟩

/-- **What is on the stack of `sync_wait` is used after it has returned** exactly if it returned
before the notification, which then comes to a condition variable that was destroyed. -/
theorem usedDestroyed_iff
    (reached : Reachable exec (Within FiresInstalled) (start sender threads) config) :
    config.state.usedDestroyed = true ↔
      config.state.returnedEarly = true ∧ 0 < config.state.notified := by
  refine (sane_of_reachable reached).used ?_
  have once := (sane_erase (composition_reachable firesInstalled_user reached)).once
  have single := SenderComposition.submitted_le_one
    (config.map State.composition SyncCall.inside).state.erase
  have count : (config.map State.composition SyncCall.inside).state.erase.signals.length =
      config.state.composition.signals.length := List.length_map _
  omega

/-- The thread wakes up between the data and the notification. -/
theorem notified_after_return : ∃ config : Config (State Unit Unit) (SyncCall Unit Unit),
    Reachable exec (Within FiresInstalled) (start .asyncWait 1) config ∧
      config.state.usedDestroyed = true := by
  have ran : ((start (.asyncWait : Sender Unit Unit) 1).runWithin exec firesInstalled
      (timer ++ [(1, .go), (0, .wake), (0, .go), (1, .go)])).map (fun config =>
        config.state.returnedEarly && decide (0 < config.state.notified)) = some true := by rfl
  obtain ⟨config, reached, holds⟩ := reachable_of_replay_within firesInstalled_sound _ _ ran
  rw [Bool.and_eq_true, decide_eq_true_iff] at holds
  exact ⟨config, reached, (usedDestroyed_iff reached).mpr holds⟩

end

end Tconcurrent.SyncWait
