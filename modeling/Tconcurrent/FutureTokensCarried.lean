import Tconcurrent.FutureTokens

/-! When every future carries a cancelation token.

A future that is built from a shared state copies the token that the state has, and a
resolved state has dropped its own. -/
namespace Tconcurrent.FutureTokens
open Interleaving Heap

variable {s s' : State} {call : FutureCall} {choice : Choice} {calls : List FutureCall}
variable {pending others : Multiset FutureCall} {heap : Heap ℕ ℕ Closure} {p : ℕ} {fut : Handle}

/-- Every future object that was given out carries a token, and every continuation that
takes a token was given one. -/
structure CarriesTokens (s : State) : Prop where
  futures : ∀ fut ∈ s.futures, fut.cancelationToken ≠ none
  continuations : s.nullToken = false

/-! ## The invariant -/

/-- What a closure keeps was given out, and what it builds a future from exists. -/
def Known (s : State) : Closure → Prop
  | .future p => p < s.nextState
  | .post task | .continuation task => task.fut ∈ s.futures
  | .whenCallback _ fut => fut ∈ s.futures
  | _ => True

structure Sane (s : State) : Prop where
  fresh : ∀ p, s.nextState ≤ p → s.renewed p = false
  token : ∀ p < s.nextState, ¬s.heap.Ready p → (s.heap.states p).cancelationToken ≠ none
  renewed : ∀ p, s.renewed p = true → s.heap.Ready p
  dropped : ∀ p, s.heap.Ready p →
    ((s.heap.states p).cancelationToken = none ↔ s.renewed p = false)
  late : s.late = true ↔ ∃ fut ∈ s.futures, fut.cancelationToken = none
  null : s.nullToken = true → s.late = true
  made : ∀ fut ∈ s.futures, fut.p < s.nextState
  posted : ∀ task ∈ s.posted, task.fut ∈ s.futures
  clients : s.heap.Clients (Known s)

/-- Shared states and future objects stay. -/
structure Grows (s s' : State) : Prop where
  nextState : s.nextState ≤ s'.nextState
  futures : ∀ fut ∈ s.futures, fut ∈ s'.futures

theorem Grows.refl : Grows s s := ⟨Nat.le_refl _, fun _ member => member⟩

theorem Grows.known (grows : Grows s s') (k : Closure) (known : Known s k) : Known s' k := by
  cases k with
  | future p => exact Nat.lt_of_lt_of_le known grows.nextState
  | post task => exact grows.futures _ known
  | continuation task => exact grows.futures _ known
  | whenCallback g fut => exact grows.futures _ known
  | _ => trivial

/-- What a step may do. -/
structure Fine (s : State) (step : FutureStep) : Prop where
  sane : Sane step.1
  grows : Grows s step.1
  known : ∀ call ∈ step.2, call.Clients (Known step.1)

/-- Only `finish` changes whether a state is resolved and which token it has. -/
theorem exec_core (other : ∀ p r, call ≠ .finish p r) (p : ℕ) :
    ((heap.exec call).1.states p).r = (heap.states p).r ∧
      ((heap.exec call).1.states p).cancelationToken = (heap.states p).cancelationToken := by
  cases call with
  | finish q r => exact absurd rfl (other q r)
  | thenRun q f =>
    simp only [Heap.exec, thenRun]
    split
    · rcases eq_or_ne p q with rfl | different
      · rw [setState_states_self]
        exact ⟨rfl, rfl⟩
      · rw [setState_states_ne _ different]
        exact ⟨rfl, rfl⟩
    · exact ⟨rfl, rfl⟩
  | requestCancel q => rw [Heap.exec, requestCancel_states]; exact ⟨rfl, rfl⟩
  | popCancelationCallback t => exact ⟨rfl, rfl⟩
  | unwrapOuter fut1 sb => rw [Heap.exec, unwrapOuter_states]; exact ⟨rfl, rfl⟩
  | unwrapInner fut2 sb token => rw [Heap.exec, unwrapInner_states]; exact ⟨rfl, rfl⟩
  | client k => exact ⟨rfl, rfl⟩

/-- The heap changes, but resolves nothing and drops no token. -/
theorem Sane.onHeap (sane : Sane s)
    (core : ∀ p, (heap.states p).r = (s.heap.states p).r ∧
      (heap.states p).cancelationToken = (s.heap.states p).cancelationToken)
    (clients : heap.Clients (Known s)) : Sane { s with heap } := by
  have ready : ∀ p, heap.Ready p ↔ s.heap.Ready p := by
    intro p
    rw [Ready, (core p).1, Ready]
  refine ⟨sane.fresh, fun p below unready => ?_, fun p renewed => ?_, fun p resolved => ?_,
    sane.late, sane.null, sane.made, sane.posted,
    clients.mono fun k known => Grows.known (s := s) ⟨Nat.le_refl _, fun _ member => member⟩ k known⟩
  · rw [(core p).2]
    exact sane.token p below fun resolved => unready ((ready p).mpr resolved)
  · exact (ready p).mpr (sane.renewed p renewed)
  · rw [(core p).2]
    exact sane.dropped p ((ready p).mp resolved)

/-- What a state that is set to `state` looks like. -/
theorem states_setState (state : SharedBase ℕ ℕ Closure) (q : ℕ) :
    (q = p ∧ (s.heap.setState p state).states q = state) ∨
      (q ≠ p ∧ (s.heap.setState p state).states q = s.heap.states q) := by
  rcases eq_or_ne q p with rfl | other
  · exact .inl ⟨rfl, setState_states_self state⟩
  · exact .inr ⟨other, setState_states_ne state other⟩

/-- A state is resolved, once. -/
theorem Sane.finish {r : Result ℕ ℕ} (sane : Sane s) (unready : ¬s.heap.Ready p) :
    Fine s (FutureTokens.onHeap s (s.heap.finish p r)) := by
  have finishing : (Call.finish p r : FutureCall).Clients (Known s) := trivial
  obtain ⟨clients, made⟩ := sane.clients.exec finishing
  have kept : s.renewed p = false := by
    by_contra renewed
    exact unready (sane.renewed p (by simpa using renewed))
  have states := states_setState (s := s) (p := p)
    { r := some r, thens := [], cancelationToken := none }
  refine ⟨⟨sane.fresh, fun q below waiting => ?_, fun q renewed => ?_, fun q resolved => ?_,
    sane.late, sane.null, sane.made, sane.posted, clients⟩,
    ⟨Nat.le_refl s.nextState, fun _ member => member⟩, made⟩
  · rcases states q with ⟨rfl, own⟩ | ⟨other, same⟩
    · exact absurd (by simp [Ready, FutureTokens.onHeap, Heap.finish]) waiting
    · simp only [FutureTokens.onHeap, Heap.finish, Ready, same] at waiting ⊢
      exact sane.token q below waiting
  · rcases states q with ⟨rfl, own⟩ | ⟨other, same⟩
    · simp [Ready, FutureTokens.onHeap, Heap.finish]
    · simp only [FutureTokens.onHeap, Heap.finish, Ready, same]
      exact sane.renewed q renewed
  · rcases states q with ⟨rfl, own⟩ | ⟨other, same⟩
    · simp [FutureTokens.onHeap, Heap.finish, kept]
    · simp only [FutureTokens.onHeap, Heap.finish, Ready, same] at resolved ⊢
      exact sane.dropped q resolved

/-- A new shared state. -/
theorem Sane.makeShared (owner : Owner) (token : Option ℕ) (sane : Sane s) :
    Sane (makeShared owner token s) ∧ Grows s (makeShared owner token s) := by
  have grown : Grows s (FutureTokens.makeShared owner token s) :=
    ⟨Nat.le_succ _, fun _ member => member⟩
  have states := states_setState (s := s) (p := s.nextState)
    { cancelationToken := some (token.getD s.nextToken) }
  have vacant : s.renewed s.nextState = false := sane.fresh _ (Nat.le_refl _)
  refine ⟨⟨fun q beyond => sane.fresh q (Nat.le_of_succ_le beyond), fun q below waiting => ?_,
    fun q renewed => ?_, fun q resolved => ?_, sane.late, sane.null,
    fun fut member => Nat.lt_succ_of_lt (sane.made fut member), sane.posted, ?_⟩, grown⟩
  · rcases states q with ⟨rfl, own⟩ | ⟨other, same⟩
    · simp [FutureTokens.makeShared]
    · simp only [FutureTokens.makeShared, Ready, same] at waiting ⊢
      exact sane.token q (Nat.lt_of_le_of_ne (Nat.le_of_lt_succ below) other) waiting
  · rcases states q with ⟨rfl, own⟩ | ⟨other, same⟩
    · rw [show s.renewed s.nextState = true from renewed] at vacant
      cases vacant
    · simp only [FutureTokens.makeShared, Ready, same]
      exact sane.renewed q renewed
  · rcases states q with ⟨rfl, own⟩ | ⟨other, same⟩
    · simp [FutureTokens.makeShared, Ready] at resolved
    · simp only [FutureTokens.makeShared, Ready, same] at resolved ⊢
      exact sane.dropped q resolved
  · exact (sane.clients.mono grown.known).setState fun f member => absurd member List.not_mem_nil

/-- A future object is given out. -/
theorem Sane.giveOut (fut : Handle) (sane : Sane s) (below : fut.p < s.nextState)
    (late : fut.cancelationToken = none → s.late = true) :
    Sane (giveOut fut s) ∧ Grows s (giveOut fut s) := by
  have grown : Grows s (FutureTokens.giveOut fut s) :=
    ⟨Nat.le_refl _, fun _ member => List.mem_append_left _ member⟩
  refine ⟨⟨sane.fresh, sane.token, sane.renewed, sane.dropped, ⟨fun some => ?_, ?_⟩, sane.null,
    fun other member => ?_, fun task member => grown.futures _ (sane.posted task member),
    sane.clients.mono grown.known⟩, grown⟩
  · obtain ⟨other, member, none⟩ := sane.late.mp some
    exact ⟨other, grown.futures other member, none⟩
  · rintro ⟨other, member, none⟩
    rcases List.mem_append.mp member with before | last
    · exact sane.late.mpr ⟨other, before, none⟩
    · rw [List.mem_singleton.mp last] at none
      exact late none
  · rcases List.mem_append.mp member with before | last
    · exact sane.made other before
    · rw [List.mem_singleton.mp last]
      exact below

/-- A state has no token exactly when it was resolved and not broken off since. -/
theorem Sane.token_none_iff (sane : Sane s) (below : p < s.nextState) :
    (s.heap.states p).cancelationToken = none ↔
      (decide (s.heap.Ready p) && !s.renewed p) = true := by
  rw [Bool.and_eq_true, decide_eq_true_iff, Bool.not_eq_true']
  constructor
  · intro none
    by_cases ready : s.heap.Ready p
    · exact ⟨ready, (sane.dropped p ready).mp none⟩
    · exact absurd none (sane.token p below ready)
  · exact fun ⟨ready, kept⟩ => (sane.dropped p ready).mpr kept

/-- A future object is built from a shared state: it is the late ones that have no token. -/
theorem Sane.future (sane : Sane s) (below : p < s.nextState) :
    Sane (future p s) ∧ Grows s (future p s) := by
  have grown : Grows s (FutureTokens.future p s) :=
    ⟨Nat.le_refl _, fun _ member => List.mem_append_left _ member⟩
  refine ⟨⟨sane.fresh, sane.token, sane.renewed, sane.dropped, ?_, fun given => ?_,
    fun other member => ?_, fun task member => grown.futures _ (sane.posted task member),
    sane.clients.mono grown.known⟩, grown⟩
  · simp only [FutureTokens.future, FutureTokens.giveOut, Bool.or_eq_true,
      ← sane.token_none_iff below, sane.late, List.mem_append, List.mem_singleton]
    constructor
    · rintro (⟨other, member, none⟩ | none)
      · exact ⟨other, .inl member, none⟩
      · exact ⟨_, .inr rfl, none⟩
    · rintro ⟨other, member | rfl, none⟩
      · exact .inl ⟨other, member, none⟩
      · exact .inr none
  · simp only [FutureTokens.future, FutureTokens.giveOut, Bool.or_eq_true]
    exact .inl (sane.null given)
  · rcases List.mem_append.mp member with before | last
    · exact sane.made other before
    · rw [List.mem_singleton.mp last]
      exact below

/-! ## Steps -/

theorem Grows.trans {s'' : State} (first : Grows s s') (second : Grows s' s'') : Grows s s'' :=
  ⟨first.nextState.trans second.nextState, fun fut member => second.futures fut (first.futures fut member)⟩

/-- A step that leaves the heap to what it calls. -/
theorem Sane.fine (sane : Sane s') (grows : Grows s s')
    (known : ∀ call ∈ calls, call.Clients (Known s')) : Fine s (s', calls) :=
  ⟨sane, grows, known⟩

theorem Sane.push {k : Closure} (sane : Sane s) (known : Known s k) :
    Fine s (pushCancelationCallback p k s) := by
  unfold pushCancelationCallback
  split
  · rename_i t _
    have pushed : (Call.client k : FutureCall).Clients (Known s) := known
    obtain ⟨clients, made⟩ := sane.clients.push (t := t) pushed
    have kept : Sane { s with
        heap := (s.heap.onToken t (·.pushCancelationCallback (.client k))).1 } :=
      sane.onHeap (fun q => ⟨rfl, rfl⟩) clients
    refine ⟨kept, ⟨Nat.le_refl s.nextState, fun _ member => member⟩, fun call member => ?_⟩
    exact (made call member).mono (Grows.known ⟨Nat.le_refl s.nextState, fun _ member => member⟩)
  · exact sane.fine .refl (by simp)

/-- Steps one after the other. -/
theorem Fine.after {step : FutureStep} (fine : Fine s' step) (grows : Grows s s') : Fine s step :=
  ⟨fine.sane, grows.trans fine.grows, fine.known⟩

/-- More is called after a step. -/
theorem Fine.append {step : FutureStep} {more : List FutureCall} (fine : Fine s step)
    (known : ∀ call ∈ more, call.Clients (Known step.1)) : Fine s (step.1, step.2 ++ more) := by
  refine ⟨fine.sane, fine.grows, fun call member => ?_⟩
  rcases List.mem_append.mp member with first | later
  · exact fine.known call first
  · exact known call later

theorem Fine.proceed {step : FutureStep} (fine : Fine s step) : Fine s (proceed step) := by
  refine fine.append fun call member => ?_
  rw [List.mem_singleton.mp member]
  trivial

theorem Sane.library {call : FutureCall} (sane : Sane s) (known : call.Clients (Known s))
    (other : ∀ p r, call ≠ .finish p r) : Fine s (FutureTokens.onHeap s (s.heap.exec call)) := by
  obtain ⟨clients, made⟩ := sane.clients.exec known
  refine ⟨sane.onHeap (exec_core other) clients, ⟨Nat.le_refl s.nextState, fun _ member => member⟩,
    fun call member => ?_⟩
  exact (made call member).mono (Grows.known ⟨Nat.le_refl s.nextState, fun _ member => member⟩)

/-- A canceler is pushed on the token of a new state, whose future is built at the end. -/
theorem Sane.pushed (owner : Owner) (token : Option ℕ) (k : Closure) (between : List FutureCall)
    (sane : Sane s) (known : ∀ s, Known s k)
    (quiet : ∀ call ∈ between, ∀ s, call.Clients (Known s)) :
    Fine s ((pushCancelationCallback s.nextState k (FutureTokens.makeShared owner token s)).1,
      (pushCancelationCallback s.nextState k (FutureTokens.makeShared owner token s)).2 ++
        (between ++ [.client (.future s.nextState)])) := by
  obtain ⟨made, grown⟩ := sane.makeShared owner token
  refine ((made.push (p := s.nextState) (known _)).after grown).append fun call member => ?_
  rcases List.mem_append.mp member with first | last
  · exact quiet call first _
  · rw [List.mem_singleton.mp last]
    exact Nat.lt_of_lt_of_le (Nat.lt_succ_self s.nextState)
      (made.push (p := s.nextState) (known _)).grows.nextState

theorem Sane.package {given : Option ℕ} {cancelable : Bool} (sane : Sane s) :
    Fine s (package given cancelable s) := by
  unfold FutureTokens.package
  cases cancelable with
  | true => exact sane.pushed (.task true) given (.canceler s.nextState) [] (fun _ => trivial) (by simp)
  | false =>
    obtain ⟨made, grown⟩ := sane.makeShared (.task false) given
    refine made.fine grown fun call member => ?_
    rw [List.mem_singleton.mp member]
    exact Nat.lt_succ_self s.nextState

theorem Sane.attach {andThen takesToken : Bool} (sane : Sane s) (given : fut ∈ s.futures) :
    Fine s (attach fut andThen takesToken s) := by
  obtain ⟨made, grown⟩ := sane.makeShared .library fut.cancelationToken
  obtain ⟨built, grown'⟩ := made.future (Nat.lt_succ_self s.nextState)
  refine built.fine (grown.trans grown') fun call member => ?_
  rw [List.mem_singleton.mp member]
  exact (grown.trans grown').futures fut given

theorem Sane.unwrap (sane : Sane s) : Fine s (unwrap fut s) := by
  obtain ⟨made, grown⟩ := sane.makeShared .library fut.cancelationToken
  refine made.fine grown fun call member => ?_
  simp only [List.mem_cons, List.not_mem_nil, or_false] at member
  rcases member with rfl | rfl
  · trivial
  · exact Nat.lt_succ_self s.nextState

/-- A future that is ready when it is made has a token that its state never had. -/
theorem Sane.makeReadyFuture {r : Result ℕ ℕ} (sane : Sane s) :
    Sane (makeReadyFuture r s) ∧ Grows s (makeReadyFuture r s) := by
  have grown : Grows s { s with
      heap := s.heap.setState s.nextState { r := some r }
      nextState := s.nextState + 1
      nextToken := s.nextToken + 1 } := ⟨Nat.le_succ _, fun _ member => member⟩
  have states := states_setState (s := s) (p := s.nextState) { r := some r }
  have vacant : s.renewed s.nextState = false := sane.fresh _ (Nat.le_refl _)
  have made : Sane { s with
      heap := s.heap.setState s.nextState { r := some r }
      nextState := s.nextState + 1
      nextToken := s.nextToken + 1 } := by
    refine ⟨fun q beyond => sane.fresh q (Nat.le_of_succ_le beyond), fun q below waiting => ?_,
      fun q renewed => ?_, fun q resolved => ?_, sane.late, sane.null,
      fun fut member => Nat.lt_succ_of_lt (sane.made fut member), sane.posted,
      (sane.clients.mono grown.known).setState fun f member => absurd member List.not_mem_nil⟩
    · rcases states q with ⟨rfl, own⟩ | ⟨other, same⟩
      · exact absurd (by simp [Ready]) waiting
      · simp only [Ready, same] at waiting ⊢
        exact sane.token q (Nat.lt_of_le_of_ne (Nat.le_of_lt_succ below) other) waiting
    · rcases states q with ⟨rfl, own⟩ | ⟨other, same⟩
      · rw [show s.renewed s.nextState = true from renewed] at vacant
        cases vacant
      · simp only [Ready, same]
        exact sane.renewed q renewed
    · rcases states q with ⟨rfl, own⟩ | ⟨other, same⟩
      · simp [vacant]
      · simp only [Ready, same] at resolved ⊢
        exact sane.dropped q resolved
  obtain ⟨given, further⟩ := made.giveOut ⟨s.nextState, some s.nextToken⟩
    (Nat.lt_succ_self s.nextState) (by simp)
  exact ⟨given, grown.trans further⟩

theorem Sane.when {inputs : List Handle} {any autoCancel : Bool} (sane : Sane s)
    (given : ∀ fut ∈ inputs, fut ∈ s.futures) : Fine s (when inputs any autoCancel s) := by
  simp only [FutureTokens.when]
  split
  · obtain ⟨made, grown⟩ := sane.makeReadyFuture (r := .value (.plain 0))
    exact made.fine grown (by simp)
  · obtain ⟨made, grown⟩ := sane.makeShared .library none
    have pushed := made.push (p := s.nextState) (k := .whenCanceler s.groups.length) trivial
    obtain ⟨sane', grown', known⟩ := pushed.after grown
    refine ⟨⟨sane'.fresh, sane'.token, sane'.renewed, sane'.dropped, sane'.late, sane'.null,
      sane'.made, sane'.posted, ?_⟩, ⟨grown'.nextState, grown'.futures⟩, fun call member => ?_⟩
    · exact sane'.clients.mono (Grows.known ⟨Nat.le_refl _, fun _ member => member⟩)
    · rw [List.mem_append, List.mem_append] at member
      rcases member with (selected | registered) | last
      · exact (known call selected).mono (Grows.known ⟨Nat.le_refl _, fun _ member => member⟩)
      · obtain ⟨fut, listed, rfl⟩ := List.mem_map.mp registered
        exact grown'.futures fut (given fut listed)
      · rw [List.mem_singleton.mp last]
        exact Nat.lt_of_lt_of_le (Nat.lt_succ_self s.nextState) pushed.grows.nextState

/-- What a step changes besides the heap and the futures does not matter. -/
theorem Sane.same (sane : Sane s) (heap : s'.heap = s.heap) (nextState : s'.nextState = s.nextState)
    (renewed : s'.renewed = s.renewed) (futures : s'.futures = s.futures) (late : s'.late = s.late)
    (null : s'.nullToken = s.nullToken) (posted : ∀ task ∈ s'.posted, task.fut ∈ s.futures) :
    Sane s' ∧ Grows s s' := by
  have grown : Grows s s' := ⟨nextState.ge, fun fut member => futures ▸ member⟩
  refine ⟨⟨?_, ?_, ?_, ?_, ?_, ?_, ?_, fun task member => grown.futures _ (posted task member), ?_⟩,
    grown⟩
  · rw [nextState, renewed]
    exact sane.fresh
  · rw [nextState, heap]
    exact sane.token
  · rw [renewed, heap]
    exact sane.renewed
  · rw [heap, renewed]
    exact sane.dropped
  · rw [late, futures]
    exact sane.late
  · rw [null, late]
    exact sane.null
  · rw [futures, nextState]
    exact sane.made
  · rw [heap]
    exact sane.clients.mono grown.known

theorem Sane.whenCallback {g : ℕ} (sane : Sane s) (given : fut ∈ s.futures) :
    Fine s (whenCallback g fut s) := by
  unfold FutureTokens.whenCallback
  split
  · exact sane.fine .refl (by simp)
  · rename_i group _
    let s' := { s with groups := s.groups.set g { group with count := group.count + 1 } }
    obtain ⟨counted, grown⟩ : Sane s' ∧ Grows s s' := sane.same rfl rfl rfl rfl rfl rfl sane.posted
    dsimp only
    split
    · split
      · refine counted.fine grown fun call member => ?_
        rcases List.mem_append.mp member with canceled | last
        · split at canceled
          · obtain ⟨other, -, rfl⟩ := List.mem_map.mp canceled
            trivial
          · cases canceled
        · rw [List.mem_singleton.mp last]
          trivial
      · exact counted.fine grown (by simp)
    · obtain ⟨kept, further⟩ := counted.giveOut fut (sane.made fut given) fun none =>
        sane.late.mpr ⟨fut, given, none⟩
      refine kept.fine (grown.trans further) fun call member => ?_
      split at member
      · rw [List.mem_singleton.mp member]
        trivial
      · cases member

theorem Sane.continuation {task : Continuation} (sane : Sane s) (given : task.fut ∈ s.futures) :
    Fine s (continuation task s) := by
  unfold FutureTokens.continuation
  split
  · exact sane.fine .refl (by simp [Call.Clients])
  · split
    · exact sane.fine .refl (by simp [Call.Clients])
    · split
      · rename_i nothing
        refine Sane.fine ⟨sane.fresh, sane.token, sane.renewed, sane.dropped, sane.late, fun _ => ?_,
          sane.made, sane.posted, sane.clients.mono
            (Grows.known ⟨Nat.le_refl _, fun _ member => member⟩)⟩
          ⟨Nat.le_refl s.nextState, fun _ member => member⟩ (by simp)
        exact sane.late.mpr ⟨task.fut, given, nothing.2⟩
      · split
        · exact sane.fine .refl (by simp [Call.Clients, Known])
        · obtain ⟨kept, grown⟩ := sane.giveOut task.fut (sane.made _ given) fun none =>
            sane.late.mpr ⟨_, given, none⟩
          exact kept.fine grown (by simp [Call.Clients, Known])

theorem quiet_pops {token : Option ℕ} {more : List FutureCall}
    (known : ∀ call ∈ more, call.Clients (Known s)) :
    ∀ call ∈ (token.map Call.popCancelationCallback).toList ++ more, call.Clients (Known s) := by
  intro call member
  rcases List.mem_append.mp member with popped | later
  · obtain ⟨t, -, rfl⟩ := Option.map_eq_some_iff.mp (Option.mem_toList.mp popped)
    trivial
  · exact known call later

theorem Sane.canceler (sane : Sane s) : Fine s (canceler p s) := by
  unfold FutureTokens.canceler
  split
  · exact sane.fine .refl (by simp)
  · let s' := { s with isDone := Function.update s.isDone p true }
    obtain ⟨kept, grown⟩ : Sane s' ∧ Grows s s' := sane.same rfl rfl rfl rfl rfl rfl sane.posted
    exact kept.fine grown (quiet_pops (by simp [Call.Clients, Known]))

theorem Sane.run {after : List FutureCall} {pops : Bool} (sane : Sane s)
    (known : ∀ call ∈ after, ∀ s, call.Clients (Known s)) : Fine s (run p after pops s) := by
  unfold FutureTokens.run
  split
  · exact sane.fine .refl (by simp)
  · let s' := { s with isDone := Function.update s.isDone p true }
    obtain ⟨kept, grown⟩ : Sane s' ∧ Grows s s' := sane.same rfl rfl rfl rfl rfl rfl sane.posted
    refine kept.fine grown ?_
    split
    · exact quiet_pops fun call member => known call member _
    · exact fun call member => known call (by simpa using member) _

/-- A future that is broken off its chain is given out with a token. -/
theorem Sane.breakCancelationChain (sane : Sane s) (below : fut.p < s.nextState) :
    Sane (breakCancelationChain fut s) ∧ Grows s (breakCancelationChain fut s) := by
  have states := states_setState (s := s) (p := fut.p)
    { s.heap.states fut.p with cancelationToken := some s.nextToken }
  have ready (q : ℕ) : (s.heap.setState fut.p { s.heap.states fut.p with
      cancelationToken := some s.nextToken }).Ready q ↔ s.heap.Ready q := by
    rcases states q with ⟨rfl, own⟩ | ⟨other, same⟩
    · rw [Ready, own, Ready]
    · rw [Ready, same, Ready]
  have grown : Grows s { s with
      heap := s.heap.setState fut.p
        { s.heap.states fut.p with cancelationToken := some s.nextToken }
      nextToken := s.nextToken + 1
      renewed := Function.update s.renewed fut.p (decide (s.heap.Ready fut.p)) } :=
    ⟨Nat.le_refl _, fun _ member => member⟩
  have made : Sane { s with
      heap := s.heap.setState fut.p
        { s.heap.states fut.p with cancelationToken := some s.nextToken }
      nextToken := s.nextToken + 1
      renewed := Function.update s.renewed fut.p (decide (s.heap.Ready fut.p)) } := by
    refine ⟨fun q beyond => ?_, fun q inside waiting => ?_, fun q renewed => (ready q).mpr ?_,
      fun q resolved => ?_, sane.late, sane.null, sane.made, sane.posted,
      (sane.clients.mono grown.known).setState ((sane.clients.mono grown.known).thens fut.p)⟩
    · rw [← sane.fresh q beyond]
      exact Function.update_of_ne (by rintro rfl; exact absurd below (Nat.not_lt.mpr beyond)) ..
    · rcases states q with ⟨rfl, own⟩ | ⟨other, same⟩
      · simp
      · rw [same]
        exact sane.token q inside fun resolved => waiting ((ready q).mpr resolved)
    · rcases eq_or_ne q fut.p with rfl | other
      · simpa using renewed
      · exact sane.renewed q (by simpa [Function.update_of_ne other] using renewed)
    · have before := (ready q).mp resolved
      rcases states q with ⟨rfl, own⟩ | ⟨other, same⟩
      · simp [before]
      · rw [same]
        simpa [Function.update_of_ne other] using sane.dropped q before
  obtain ⟨given, further⟩ := made.giveOut ⟨fut.p, some s.nextToken⟩ below (by simp)
  exact ⟨given, grown.trans further⟩

theorem exists_of_mem_mapM {α β : Type} {f : α → Option β} {inputs : List α} {outputs : List β}
    (found : inputs.mapM f = some outputs) {output : β} (member : output ∈ outputs) :
    ∃ input, f input = some output := by
  induction inputs generalizing outputs with
  | nil =>
    cases found
    cases member
  | cons input inputs ih =>
    rw [List.mapM_cons] at found
    obtain ⟨first, here, found⟩ := Option.bind_eq_some_iff.mp found
    obtain ⟨rest, later, found⟩ := Option.bind_eq_some_iff.mp found
    cases found
    rcases List.mem_cons.mp member with rfl | member
    · exact ⟨input, here⟩
    · exact ih later member

theorem Sane.user {step : FutureStep} (sane : Sane s) (ran : user s choice = some step) :
    Fine s step := by
  have given {f : ℕ} {fut : Handle} (listed : s.futures[f]? = some fut) : fut ∈ s.futures :=
    List.mem_of_getElem? listed
  cases choice with
  | «return» =>
    cases ran
    exact sane.fine .refl (by simp)
  | makePromise prev =>
    cases ran
    obtain ⟨made, grown⟩ := sane.makeShared .promise
      (prev.bind fun p => (s.heap.states p).cancelationToken)
    exact (made.fine grown (by simp)).proceed
  | getFuture p =>
    simp only [FutureTokens.user] at ran
    split at ran
    · rename_i valid
      cases ran
      obtain ⟨made, grown⟩ := sane.future valid.1
      exact (made.fine grown (by simp)).proceed
    · cases ran
  | set p r =>
    simp only [FutureTokens.user] at ran
    split at ran
    · cases ran
      exact (sane.fine .refl (by simp [Call.Clients])).proceed
    · cases ran
  | makeReadyFuture r =>
    simp only [FutureTokens.user] at ran
    split at ran
    · cases ran
      obtain ⟨made, grown⟩ := sane.makeReadyFuture (r := r)
      exact (made.fine grown (by simp)).proceed
    · cases ran
  | package given cancelable =>
    simp only [FutureTokens.user] at ran
    split at ran
    · cases ran
      exact sane.package.proceed
    · cases ran
  | runTask p =>
    simp only [FutureTokens.user] at ran
    split at ran
    · cases ran
      exact (sane.run (by simp [Call.Clients, Known])).proceed
    · cases ran
  | abandon p =>
    simp only [FutureTokens.user] at ran
    split at ran
    · split at ran
      · cases ran
      · cases ran
        exact (sane.fine .refl (by simp [Call.Clients])).proceed
    · cases ran
  | asyncWait =>
    cases ran
    exact (sane.pushed .timer none (.canceler s.nextState) [] (fun _ => trivial) (by simp)).proceed
  | fire p =>
    simp only [FutureTokens.user] at ran
    split at ran
    · cases ran
      exact (sane.run (by simp [Call.Clients])).proceed
    · cases ran
  | submitToFuture =>
    cases ran
    exact (sane.pushed .receiver none .user [.client .user] (fun _ => trivial)
      (by simp [Call.Clients, Known])).proceed
  | signal p r =>
    simp only [FutureTokens.user] at ran
    split at ran
    · cases ran
      exact (sane.fine .refl (by simp [Call.Clients])).proceed
    · cases ran
  | attach f andThen takesToken =>
    obtain ⟨fut, listed, made⟩ := Option.map_eq_some_iff.mp ran
    cases made
    exact (sane.attach (given listed)).proceed
  | unwrap f =>
    obtain ⟨fut, listed, made⟩ := Option.map_eq_some_iff.mp ran
    cases made
    exact sane.unwrap.proceed
  | when inputs any autoCancel =>
    obtain ⟨handles, listed, made⟩ := Option.map_eq_some_iff.mp ran
    cases made
    refine (sane.when fun fut member => ?_).proceed
    obtain ⟨f, found⟩ := exists_of_mem_mapM listed member
    exact given found
  | requestCancel f =>
    obtain ⟨fut, listed, made⟩ := Option.map_eq_some_iff.mp ran
    cases made
    exact (sane.fine .refl (by simp [Call.Clients])).proceed
  | breakCancelationChain f =>
    obtain ⟨fut, listed, made⟩ := Option.map_eq_some_iff.mp ran
    cases made
    obtain ⟨broken, grown⟩ := sane.breakCancelationChain (sane.made fut (given listed))
    exact (broken.fine grown (by simp)).proceed
  | runPosted n =>
    obtain ⟨task, listed, made⟩ := Option.map_eq_some_iff.mp ran
    cases made
    let s' := { s with posted := s.posted.eraseIdx n }
    obtain ⟨kept, grown⟩ : Sane s' ∧ Grows s s' := sane.same rfl rfl rfl rfl rfl rfl
      fun other member => sane.posted other (List.mem_of_mem_eraseIdx member)
    refine (kept.fine grown fun call member => ?_).proceed
    rw [List.mem_singleton.mp member]
    exact sane.posted task (List.mem_of_getElem? listed)
  | outcome r => cases ran
  | later => cases ran

theorem Sane.client {k : Closure} {step : FutureStep} (sane : Sane s) (known : Known s k)
    (ran : client choice s k = some step) : Fine s step := by
  cases k with
  | user => exact sane.user ran
  | future p =>
    cases ran
    obtain ⟨made, grown⟩ := sane.future known
    exact made.fine grown (by simp)
  | post task =>
    simp only [FutureTokens.client] at ran
    split at ran
    · cases ran
      let s' := { s with posted := s.posted ++ [task] }
      obtain ⟨kept, grown⟩ : Sane s' ∧ Grows s s' := by
        refine sane.same rfl rfl rfl rfl rfl rfl fun other member => ?_
        rcases List.mem_append.mp member with before | last
        · exact sane.posted other before
        · rw [List.mem_singleton.mp last]
          exact known
      exact kept.fine grown (by simp)
    · cases ran
      refine sane.fine .refl fun call member => ?_
      rw [List.mem_singleton.mp member]
      exact known
  | continuation task =>
    cases ran
    exact sane.continuation known
  | functionReturn q =>
    simp only [FutureTokens.client] at ran
    split at ran
    · split at ran
      · cases ran
        exact sane.fine .refl (by simp [Call.Clients])
      · cases ran
    · cases ran
  | canceler p =>
    cases ran
    exact sane.canceler
  | whenCallback g fut =>
    cases ran
    exact sane.whenCallback known
  | whenCanceler g =>
    cases ran
    refine sane.fine .refl fun call member => ?_
    unfold whenCanceler at member
    split at member
    · cases member
    · obtain ⟨fut, -, rfl⟩ := List.mem_map.mp member
      trivial

/-- Every step keeps account of the futures that were built late. -/
theorem exec_step {thread : ℕ} (sane : Sane s)
    (known : ∀ pending ∈ (call ::ₘ others : Multiset FutureCall), pending.Clients (Known s))
    (ran : exec thread choice s call = some (s', calls)) :
    Sane s' ∧ ∀ pending ∈ (↑calls + others : Multiset FutureCall), pending.Clients (Known s') := by
  have called := known call (Multiset.mem_cons_self _ _)
  have stepped : Fine s (s', calls) := by
    cases call with
    | client k => exact sane.client called ran
    | finish p r =>
      simp only [exec] at ran
      split at ran
      · cases ran
      · rename_i unready
        have made : onHeap s (s.heap.finish p r) = (s', calls) := Option.some.inj ran
        rw [← made]
        exact sane.finish unready
    | _ =>
      have made : onHeap s (s.heap.exec _) = (s', calls) := Option.some.inj ran
      rw [← made]
      exact sane.library called (by simp)
  refine ⟨stepped.sane, fun pending member => ?_⟩
  rcases Multiset.mem_add.mp member with new | old
  · exact stepped.known pending (Multiset.mem_coe.mp new)
  · exact (known pending (Multiset.mem_cons_of_mem old)).mono stepped.grows.known

/-! ## Runs -/

variable {threads : ℕ} {config : Config State FutureCall}

theorem sane_start : Sane (start threads).state := by
  constructor <;> simp [start, Ready]
  exact ⟨by simp, by simp⟩

/-- Every future carries a token exactly in those runs in which no future object is built
from a shared state that was resolved before. -/
theorem carriesTokens_iff (reached : Reachable exec Anything (start threads) config) :
    CarriesTokens config.state ↔ config.state.late = false := by
  obtain ⟨sane, -⟩ := reached.invariant
    (fun s pending => Sane s ∧ ∀ call ∈ pending, call.Clients (Known s))
    ⟨sane_start, fun call member => by
      rw [start, Config.pending_replicate] at member
      rw [Multiset.eq_of_mem_replicate member]
      trivial⟩
    fun _ _ _ _ _ _ _ held _ ran => exec_step held.1 held.2 ran
  constructor
  · intro carries
    by_contra late
    obtain ⟨fut, member, none⟩ := sane.late.mp (by simpa using late)
    exact carries.futures fut member none
  · intro early
    refine ⟨fun fut member none => ?_, ?_⟩
    · rw [sane.late.mpr ⟨fut, member, none⟩] at early
      cases early
    · by_contra given
      rw [sane.null (by simpa using given)] at early
      cases early

/-- A promise whose future is taken first, with a continuation, and a `when_all` over both. -/
theorem carriesTokens_whenAll : ∃ config : Config State FutureCall,
    (CarriesTokens config.state ↔ config.state.late = false) ∧ config.state.late = false ∧
    config.state.futures.length = 3 ∧ config.state.heap.Ready 0 := by
  have ran : ((start 1).run exec
      [(0, .makePromise none), (0, .getFuture 0), (0, .attach 0 true true), (0, .return),
        (0, .when [0, 1] false false), (0, .return), (0, .return), (0, .return),
        (0, .set 0 (.value (.plain 7))), (0, .return), (0, .return), (0, .return),
        (0, .return)]).map (fun config => decide (config.state.late = false ∧
        config.state.futures.length = 3 ∧ config.state.heap.Ready 0)) = some true := by decide
  obtain ⟨config, reached, holds⟩ := reachable_of_replay _ _ ran
  exact ⟨config, carriesTokens_iff reached, of_decide_eq_true holds⟩

/-- The future of a promise that is set already has no token, and a continuation that takes
one is given a null pointer. -/
theorem late_future_has_no_token : ∃ config,
    Reachable exec Anything (start 1) config ∧ ¬CarriesTokens config.state := by
  have ran : ((start 1).run exec
      [(0, .makePromise none), (0, .set 0 (.value (.plain 7))), (0, .return), (0, .getFuture 0),
        (0, .attach 0 false true), (0, .return), (0, .return), (0, .return)]).map
      (fun config => config.state.nullToken) = some true := by decide
  obtain ⟨config, reached, given⟩ := reachable_of_replay _ _ ran
  refine ⟨config, reached, fun carries => ?_⟩
  rw [carries.continuations] at given
  cases given

end Tconcurrent.FutureTokens
