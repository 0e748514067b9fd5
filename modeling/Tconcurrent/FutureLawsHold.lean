import Tconcurrent.FutureLawsSane

/-! `and_then` and `unwrap` obey the laws of a functor and a monad.

Each call does its part and makes less work than it was.  So all calls come to their end,
and the results of the given states say what the future of an expression becomes: the two
sides of a law say the same. -/
namespace Tconcurrent.FutureLaws

set_option linter.unusedSectionVars false

variable {ι : Type} [DecidableEq ι] [Fintype ι]

/-! ## One call -/

/-- The library resolves no given state. -/
structure Steady (s s' : State ι) : Prop extends Later s s' where
  given : ∀ i, s'.result (.given i) = s.result (.given i)

section

variable {s s' s'' : State ι} {p q d sb task : Name ι} {call f : LawCall ι}
  {calls rest : List (LawCall ι)} {r : Result (Name ι) (Name ι)} {node : Node ι}
  {v : Value (Name ι) (Name ι)} {func : Func ι} {state : LawBase ι}
  {heap : Heap (Name ι) (Name ι) (Closure ι)} {token : Option (Name ι)}

theorem Steady.refl : Steady s s := ⟨.refl, fun _ => rfl⟩

theorem Steady.trans (first : Steady s s') (second : Steady s' s'') : Steady s s'' :=
  ⟨first.toLater.trans second.toLater, fun i => (second.given i).trans (first.given i)⟩

theorem steady_states (states : heap.states = s.heap.states) : Steady s { s with heap } :=
  ⟨later_heap (Heap.keeps_of_states states), fun i => by simp only [State.result, states]⟩

theorem steady_register (unready : s.result q = none) : Steady s (s.register q f) where
  toLater := later_heap (Heap.keeps_setState (Heap.not_ready.mpr unready))
  given i := by
    by_cases here : .given i = q
    · subst here
      simp [State.result, State.register]
    · rw [State.result, State.register, Heap.setState_states_ne _ here, State.result]

theorem Sane.steady_create (sane : Sane s calls) : Steady s (s.create node state) where
  toLater := sane.later_create
  given i := by
    have known : s.Known (.given i) := trivial
    rw [State.result, State.states_create known, State.result]

/-- A made state that a call is to resolve is not resolved. -/
theorem Sane.unready (sane : Sane s calls) (made : s.node d = some node)
    (owed : 0 < s.total (owes d) calls) : s.result d = none := by
  have once := sane.single d node made
  cases result : s.result d with
  | none => rfl
  | some r =>
    rw [result] at once
    simp only [Option.isSome_some, Bool.toNat_true] at once
    omega

/-- What a call does: the rest still holds, and less work is left. -/
def Does (s : State ι) (call : LawCall ι) (rest : List (LawCall ι)) (s' : State ι)
    (calls : List (LawCall ι)) : Prop :=
  Sane s' (calls ++ rest) ∧ Steady s s' ∧
    s'.total work (calls ++ rest) < s.total work (call :: rest)

theorem does_finish (sane : Sane s (.finish p r :: rest)) :
    Does s (.finish p r) rest (s.exec (.finish p r)).1 (s.exec (.finish p r)).2 := by
  obtain ⟨⟨node, made, right⟩, known⟩ := sane.sound _ List.mem_cons_self
  have unready : s.result p = none := by
    apply sane.unready made
    rw [State.total_cons, owes, if_pos rfl]
    omega
  refine ⟨?_, ⟨?_, ?_⟩, ?_⟩
  · apply sane.set (fun f member => List.mem_cons_of_mem _ member) unready
      (State.known_of_node made) known
    · intro node' made'
      rw [made] at made'
      obtain rfl := Option.some.inj made'
      exact right
    · intro d node' _
      rw [State.total_cons, owes, Nat.add_comm]
  · exact later_heap (Heap.keeps_setState (Heap.not_ready.mpr unready))
  · intro i
    have other : .given i ≠ p := by
      rintro rfl
      cases made
    exact congrArg SharedBase.r (Heap.setState_states_ne _ other)
  · have total : (s.exec (.finish p r)).1.total work rest +
        ((s.heap.states p).thens.map work).sum = s.total work rest + 0 :=
      State.total_setState work (State.known_of_node made) _
    rw [State.total_append, State.total_cons]
    change ((s.heap.states p).thens.map work).sum + _ < 1 + _
    omega

/-- No shared state changes, and what the call is to resolve is passed on. -/
theorem Sane.passes (sane : Sane s (call :: rest)) (states : heap.states = s.heap.states)
    (quiet : ∀ t, (heap.tokens t).isCancelRequested = false)
    (sound : ∀ f ∈ calls, SoundCall s f) (same : ∀ d, (calls.map (owes d)).sum = owes d call)
    (less : (calls.map work).sum < work call) : Does s call rest { s with heap } calls := by
  refine ⟨?_, steady_states states, ?_⟩
  · exact sane.replace states quiet sound (fun d => (same d).le) fun d _ _ fewer =>
      absurd (same d) (Nat.ne_of_lt fewer)
  · rw [State.total_congr _ states, State.total_append, State.total_cons]
    omega

theorem does_thenRun (sane : Sane s (.thenRun q f :: rest)) :
    Does s (.thenRun q f) rest (s.exec (.thenRun q f)).1 (s.exec (.thenRun q f)).2 := by
  obtain ⟨known, placed⟩ := sane.sound _ List.mem_cons_self
  by_cases unready : (s.heap.states q).r = none
  · have registers : s.exec (.thenRun q f) = (s.register q f, []) := by
      simp only [State.exec, Heap.exec, Heap.thenRun, State.register]
      rw [if_pos unready]
    have total : (s.register q f).total work rest + ((s.heap.states q).thens.map work).sum =
        s.total work rest + (((s.heap.states q).thens ++ [f]).map work).sum :=
      State.total_setState work known _
    simp only [List.map_append, List.sum_append, List.map_singleton, List.sum_singleton] at total
    have less : (s.register q f).total work rest < s.total work (.thenRun q f :: rest) := by
      rw [State.total_cons, work]
      omega
    rw [registers]
    exact ⟨sane.register unready, steady_register unready, less⟩
  · have runs : s.exec (.thenRun q f) = (s, [f]) := by
      simp only [State.exec, Heap.exec, Heap.thenRun]
      rw [if_neg unready]
    rw [runs]
    apply sane.passes rfl sane.quiet
    · intro g member
      obtain rfl := List.mem_singleton.mp member
      exact placed.sound unready
    · intro d
      simp [owes]
    · simp [work]

/-- The call finds a value of another type. -/
theorem Sane.drops (sane : Sane s (call :: rest)) (made : s.node d = some node)
    (stuck : Stuck s node) (only : ∀ d', 0 < owes d' call → d' = d) (working : 0 < work call) :
    Does s call rest s [] := by
  refine ⟨?_, .refl, ?_⟩
  · apply sane.replace rfl sane.quiet
    · intro f member
      cases member
    · intro d'
      exact Nat.zero_le _
    · intro d' node' made' owed
      obtain rfl := only d' owed
      rw [made] at made'
      obtain rfl := Option.some.inj made'
      exact stuck
  · rw [State.total_append, State.total_cons]
    simpa using working

theorem does_popCancelationCallback {t : Name ι}
    (sane : Sane s (.popCancelationCallback t :: rest)) :
    Does s (.popCancelationCallback t) rest (s.exec (.popCancelationCallback t)).1
      (s.exec (.popCancelationCallback t)).2 := by
  have nothing : (s.exec (.popCancelationCallback t)).2 = [] := by
    simp [State.exec, Heap.exec, Heap.onToken, CancelationToken.popCancelationCallback, sane.quiet]
  have states : (s.heap.exec (.popCancelationCallback t)).1.states = s.heap.states := rfl
  rw [nothing]
  apply sane.passes states
  · intro u
    by_cases same : u = t
    · subst same
      simp [Heap.exec, Heap.onToken, CancelationToken.popCancelationCallback, sane.quiet]
    · rw [Heap.exec, Heap.onToken, Heap.setToken_tokens_ne _ same]
      exact sane.quiet u
  · intro f member
    cases member
  · intro d
    rfl
  · exact Nat.one_pos

/-- The call sets the state that it is to resolve. -/
theorem Sane.finishes (sane : Sane s (call :: rest)) (sound : SoundCall s (.finish d r))
    (same : ∀ d', owes d' call = if d = d' then 1 else 0) (working : 1 < work call) :
    Does s call rest s [.finish d r] := by
  apply sane.passes rfl sane.quiet
  · intro f member
    obtain rfl := List.mem_singleton.mp member
    exact sound
  · intro d'
    simp [owes, same]
  · simpa [work] using working

/-- With no cancelation requested the canceler is only pushed. -/
theorem unwrapOuter_waits {fut : LawFuture ι} (sb : Name ι)
    (quiet : ∀ t, (s.heap.tokens t).isCancelRequested = false)
    (result : (s.heap.states p).r = some (.value (.future fut))) :
    (∃ token, (s.heap.unwrapOuter p sb).2 = [.thenRun fut.p (.unwrapInner fut.p sb token)]) ∧
      ∀ t, ((s.heap.unwrapOuter p sb).1.tokens t).isCancelRequested = false := by
  simp only [Heap.unwrapOuter, result]
  split
  · rename_i token _
    split
    · refine ⟨⟨some token, ?_⟩, fun t => ?_⟩
      · simp [Heap.onToken, CancelationToken.pushCancelationCallback, quiet]
      · by_cases same : t = token
        · subst same
          simp [Heap.onToken, CancelationToken.pushCancelationCallback, quiet]
        · rw [Heap.onToken, Heap.setToken_tokens_ne _ same]
          exact quiet t
    · exact ⟨⟨none, rfl⟩, quiet⟩
  · exact ⟨⟨none, rfl⟩, quiet⟩

theorem does_unwrapOuter (sane : Sane s (.unwrapOuter p sb :: rest)) :
    Does s (.unwrapOuter p sb) rest (s.exec (.unwrapOuter p sb)).1
      (s.exec (.unwrapOuter p sb)).2 := by
  obtain ⟨q, ready, rfl, made⟩ := sane.sound _ List.mem_cons_self
  obtain ⟨r, result⟩ := Option.ne_none_iff_exists'.mp ready
  cases r with
  | exception e =>
    have sets : s.exec (.unwrapOuter p sb) = (s, [.finish sb (.exception e)]) := by
      rw [State.result] at result
      simp only [State.exec, Heap.exec, Heap.unwrapOuter, result]
    rw [sets]
    apply sane.finishes
    · exact ⟨⟨_, made, Or.inl ⟨e, result, rfl⟩⟩, fun fut same => by cases same⟩
    · intro d
      rfl
    · rw [work]
      decide
  | value v =>
    cases v with
    | plain n =>
      have nothing : s.exec (.unwrapOuter p sb) = (s, []) := by
        rw [State.result] at result
        simp only [State.exec, Heap.exec, Heap.unwrapOuter, result]
      rw [nothing]
      apply sane.drops made ⟨n, result⟩
      · intro d owed
        rw [owes] at owed
        split at owed
        · exact Eq.symm ‹_›
        · cases owed
      · rw [work]
        decide
    | future fut =>
      obtain ⟨⟨token, calls⟩, quiet⟩ := unwrapOuter_waits sb sane.quiet result
      have passes : Does s (.unwrapOuter p sb) rest
          { s with heap := (s.heap.unwrapOuter p sb).1 }
          [.thenRun fut.p (.unwrapInner fut.p sb token)] := by
        apply sane.passes Heap.unwrapOuter_states quiet
        · intro f member
          obtain rfl := List.mem_singleton.mp member
          exact ⟨sane.known p _ result fut rfl, rfl, p, fut, made, result, rfl⟩
        · intro d
          simp [owes]
        · simp [work]
      rw [← calls] at passes
      exact passes

theorem does_unwrapInner (sane : Sane s (.unwrapInner q sb token :: rest)) :
    Does s (.unwrapInner q sb token) rest (s.exec (.unwrapInner q sb token)).1
      (s.exec (.unwrapInner q sb token)).2 := by
  obtain ⟨_, ready, rfl, p, fut, made, outer, rfl⟩ := sane.sound _ List.mem_cons_self
  obtain ⟨r, inner⟩ := Option.ne_none_iff_exists'.mp ready
  have sets : s.exec (.unwrapInner fut.p sb token) =
      (s, (token.map .popCancelationCallback).toList ++ [.finish sb r]) := by
    rw [State.result] at inner
    simp only [State.exec, Heap.exec, Heap.unwrapInner, inner]
  rw [sets]
  apply sane.passes rfl sane.quiet
  · intro f member
    rcases List.mem_append.mp member with member | member
    · obtain ⟨t, -, rfl⟩ : ∃ t, token = some t ∧ .popCancelationCallback t = f := by
        simpa using member
      trivial
    · obtain rfl := List.mem_singleton.mp member
      exact ⟨⟨_, made, Or.inr ⟨fut, outer, inner⟩⟩, sane.known _ r inner⟩
  · intro d
    cases token <;> simp [owes]
  · cases token <;> simp [work]

theorem does_returnFuture (sane : Sane s (.client (.returnFuture sb task) :: rest)) :
    Does s (.client (.returnFuture sb task)) rest (s.exec (.client (.returnFuture sb task))).1
      (s.exec (.client (.returnFuture sb task))).2 := by
  obtain ⟨p, outer, made, result, unwrapped⟩ := sane.sound _ List.mem_cons_self
  apply sane.finishes
  · refine ⟨⟨_, made, Or.inr ⟨_, result, outer, s.heap.future sb, rfl, rfl, unwrapped⟩⟩, ?_⟩
    intro fut same
    obtain rfl : s.heap.future sb = fut := by simpa using same
    exact State.known_of_node unwrapped
  · intro d
    rfl
  · rw [work]
    decide

theorem knownResult_resultOf (outcome : Except Exc (Datum ι)) :
    KnownResult s (s.resultOf outcome) := by
  intro fut same
  cases outcome with
  | error e => cases same
  | ok d =>
    cases d with
    | plain n => cases same
    | future i =>
      obtain rfl : s.given i = fut := by simpa [State.resultOf, State.value] using same
      trivial

theorem Sane.makeReadyFuture (sane : Sane s calls) (known : KnownResult s (.value v)) :
    Sane (s.makeReadyFuture v).1 calls := by
  change Sane (s.create .ready { r := some (.value v) }) ([] ++ calls)
  apply sane.create rfl
  · intro f member
    cases member
  · intro r held
    obtain rfl := Option.some.inj held
    exact known
  · intro r _
    trivial
  · intro d
    simp

/-- The state that `unwrap` makes, and what is to be done for it. -/
theorem Sane.unwrap {fut : LawFuture ι} (sane : Sane s calls) (known : s.Known fut.p) :
    Sane (s.unwrap fut).1 (.thenRun fut.p (.unwrapOuter fut.p s.fresh) :: calls) := by
  change Sane (s.unwrap fut).1 ([.thenRun fut.p (.unwrapOuter fut.p s.fresh)] ++ calls)
  apply sane.create rfl
  · intro f member
    obtain rfl := List.mem_singleton.mp member
    exact ⟨State.known_create.mpr (Or.inl known), rfl, State.node_create⟩
  · intro r held
    cases held
  · intro r held
    cases held
  · intro d
    simp [owes]

/-- The state that `and_then` makes, and what is to be done for it. -/
theorem Sane.andThen {fut : LawFuture ι} (sane : Sane s calls) (func : Func ι)
    (known : s.Known fut.p) :
    Sane (s.andThen fut func).1 ((s.andThen fut func).2.2 ++ calls) := by
  apply sane.create rfl
  · intro f member
    obtain rfl := List.mem_singleton.mp member
    exact ⟨State.known_create.mpr (Or.inl known), rfl, State.node_create⟩
  · intro r held
    cases held
  · intro r held
    cases held
  · intro d
    simp [State.andThen, owes]

/-- The function is called on the value. -/
theorem does_callFunc (sane : Sane s (.client (.andThen p token func task) :: rest))
    (made : s.node task = some (.task p func)) (result : s.result p = some (.value v)) :
    Does s (.client (.andThen p token func task)) rest (s.callFunc v task func).1
      (s.callFunc v task func).2 := by
  have only : ∀ d, 0 < owes d (.client (.andThen p token func task)) → d = task := by
    intro d owed
    rw [owes] at owed
    split at owed
    · exact Eq.symm ‹_›
    · cases owed
  cases func with
  | user f =>
    cases known : datum v with
    | none =>
      simp only [State.callFunc, known]
      exact sane.drops made ⟨v, result, known⟩ only Nat.two_pos
    | some d =>
      simp only [State.callFunc, known]
      apply sane.finishes _ (fun d => rfl) Nat.one_lt_two
      exact ⟨⟨_, made, Or.inr ⟨v, result, d, known, rfl⟩⟩, knownResult_resultOf _⟩
  | makeReadyFuture =>
    have later : Later s (s.makeReadyFuture v).1 := sane.later_create
    have ready : (s.makeReadyFuture v).1.result s.fresh = some (.value v) :=
      congrArg SharedBase.r State.states_fresh
    have sound : SoundCall (s.makeReadyFuture v).1
        (.finish task (.value (.future (s.makeReadyFuture v).2))) := by
      refine ⟨⟨_, later.nodes _ _ made,
        Or.inr ⟨v, later.results _ _ result, _, rfl, ready⟩⟩, ?_⟩
      intro fut same
      obtain rfl : (s.makeReadyFuture v).2 = fut := by simpa using same
      exact State.known_create.mpr (Or.inr rfl)
    obtain ⟨kept, -, less⟩ := (sane.makeReadyFuture (sane.known p _ result)).finishes sound
      (fun d => rfl) Nat.one_lt_two
    have total : (s.makeReadyFuture v).1.total work
        (.client (.andThen p token .makeReadyFuture task) :: rest) =
        s.total work (.client (.andThen p token .makeReadyFuture task) :: rest) :=
      State.total_create work _ rfl
    exact ⟨kept, sane.steady_create, by rw [← total]; exact less⟩
  | unwrap =>
    cases v with
    | plain n =>
      exact sane.drops made ⟨_, result, n, rfl⟩ only (Nat.succ_pos 8)
    | future outer =>
      have later : Later s (s.unwrap outer).1 := sane.later_create
      have here : (s.unwrap outer).1.node s.fresh = some (.unwrapped outer.p) := State.node_create
      have sound : SoundCall (s.unwrap outer).1 (.client (.returnFuture s.fresh task)) :=
        ⟨p, outer, later.nodes _ _ made, later.results _ _ result, here⟩
      have wider := (sane.unwrap (sane.known p _ result outer rfl)).reorder
        (List.Perm.swap _ _ _)
      have kept : Sane (s.unwrap outer).1 ([.client (.returnFuture s.fresh task)] ++
          .thenRun outer.p (.unwrapOuter outer.p s.fresh) :: rest) := by
        apply wider.instead
        · intro f member
          obtain rfl := List.mem_singleton.mp member
          exact sound
        · intro d
          rfl
      refine ⟨kept.reorder (List.Perm.swap _ _ _), sane.steady_create, ?_⟩
      -- one call is worth more than the two that come from it
      have before : s.total work (.client (.andThen p token .unwrap task) :: rest) =
          9 + s.total work rest := State.total_cons work
      have after : (s.unwrap outer).1.total work (.thenRun outer.p (.unwrapOuter outer.p s.fresh) ::
          .client (.returnFuture s.fresh task) :: rest) = 6 + (2 + s.total work rest) := by
        have same : (s.unwrap outer).1.total work rest = s.total work rest :=
          State.total_create work _ rfl
        rw [State.total_cons, State.total_cons, same]
        rfl
      rw [before]
      change (s.unwrap outer).1.total work (.thenRun outer.p (.unwrapOuter outer.p s.fresh) ::
        .client (.returnFuture s.fresh task) :: rest) < _
      rw [after]
      omega

theorem does_andThen (sane : Sane s (.client (.andThen p token func task) :: rest)) :
    Does s (.client (.andThen p token func task)) rest
      (s.exec (.client (.andThen p token func task))).1
      (s.exec (.client (.andThen p token func task))).2 := by
  obtain ⟨_, ready, rfl, made⟩ := sane.sound _ List.mem_cons_self
  obtain ⟨r, result⟩ := Option.ne_none_iff_exists'.mp ready
  cases r with
  | exception e =>
    have sets : s.exec (.client (.andThen p token func task)) =
        (s, [.finish task (.exception e)]) := by
      simp only [State.exec, State.doAndThenCallback, result]
    rw [sets]
    apply sane.finishes _ (fun d => rfl)
    · cases func with
      | unwrap => exact Nat.one_lt_succ_succ 7
      | user | makeReadyFuture => exact Nat.one_lt_two
    · exact ⟨⟨_, made, Or.inl ⟨e, result, rfl⟩⟩, fun fut same => by cases same⟩
  | value v =>
    have calls : s.exec (.client (.andThen p token func task)) = s.callFunc v task func := by
      have unrequested : (token.any fun t => (s.heap.tokens t).isCancelRequested) = false := by
        cases token with
        | none => rfl
        | some t => exact sane.quiet t
      simp only [State.exec, State.doAndThenCallback, result, unrequested]
      rfl
    rw [calls]
    exact does_callFunc sane made result

theorem does_exec (sane : Sane s (call :: rest)) :
    Does s call rest (s.exec call).1 (s.exec call).2 := by
  cases call with
  | finish p r => exact does_finish sane
  | thenRun q f => exact does_thenRun sane
  | requestCancel p =>
    obtain ⟨q, -, placed⟩ := sane.sound _ List.mem_cons_self
    exact placed.elim
  | popCancelationCallback t => exact does_popCancelationCallback sane
  | unwrapOuter p sb => exact does_unwrapOuter sane
  | unwrapInner q sb token => exact does_unwrapInner sane
  | client k =>
    cases k with
    | andThen p token func task => exact does_andThen sane
    | returnFuture sb task => exact does_returnFuture sane

/-! ## All calls -/

theorem settle_spec {fuel : ℕ} (sane : Sane s calls) (enough : s.total work calls ≤ fuel) :
    ∃ s', s.settle fuel calls = some s' ∧ Sane s' [] ∧ Steady s s' := by
  induction fuel generalizing s calls with
  | zero =>
    cases calls with
    | nil => exact ⟨s, rfl, sane, .refl⟩
    | cons call rest =>
      obtain ⟨-, -, less⟩ := does_exec sane
      omega
  | succ fuel ih =>
    cases calls with
    | nil => exact ⟨s, rfl, sane, .refl⟩
    | cons call rest =>
      obtain ⟨kept, steady, less⟩ := does_exec sane
      obtain ⟨s', settles, quiescent, steady'⟩ := ih kept (by omega)
      exact ⟨s', settles, quiescent, steady.trans steady'⟩

theorem complete_spec (sane : Sane s calls) :
    ∃ s', s.complete calls = some s' ∧ Sane s' [] ∧ Steady s s' :=
  settle_spec sane le_rfl

theorem resolve_spec {i : ι} {outcome : Except Exc (Datum ι)} (sane : Sane s [])
    (unready : s.result (.given i) = none) :
    ∃ s', s.resolve (i, outcome) = some s' ∧ Sane s' [] ∧ Later s s' ∧
      ∀ j, s'.result (.given j) = if j = i then some (s.resultOf outcome)
        else s.result (.given j) := by
  have exists_ : s.Known (.given i) := trivial
  have set : Sane (s.exec (.finish (.given i) (s.resultOf outcome))).1
      ((s.exec (.finish (.given i) (s.resultOf outcome))).2 ++ []) := by
    apply sane.set (fun f member => member) unready exists_ (knownResult_resultOf outcome)
    · intro node made
      cases made
    · intro d node made
      have other : .given i ≠ d := by
        rintro rfl
        cases made
      rw [if_neg other]
      rfl
  have total : (s.exec (.finish (.given i) (s.resultOf outcome))).1.total work [] +
      ((s.heap.states (.given i)).thens.map work).sum = s.total work [] + 0 :=
    State.total_setState work exists_ _
  have enough : (s.exec (.finish (.given i) (s.resultOf outcome))).1.total work
      ((s.heap.states (.given i)).thens ++ []) ≤ s.total work [] := by
    rw [State.total_append]
    omega
  obtain ⟨s', settles, quiescent, steady⟩ := settle_spec set enough
  have first : Later s (s.exec (.finish (.given i) (s.resultOf outcome))).1 :=
    later_heap (Heap.keeps_setState (Heap.not_ready.mpr unready))
  refine ⟨s', ?_, quiescent, first.trans steady.toLater, fun j => ?_⟩
  · rw [State.resolve, if_pos unready, State.complete, State.total_cons, work, Nat.add_comm]
    exact settles
  · rw [steady.given]
    by_cases same : j = i
    · subst same
      rw [if_pos rfl]
      exact congrArg SharedBase.r (Heap.setState_states_self _)
    · have other : Name.given j ≠ .given i := fun equal => same (Name.given.inj equal)
      rw [if_neg same]
      exact congrArg SharedBase.r (Heap.setState_states_ne _ other)

/-! ## Two evaluations -/

/-- A value is plain or a given future. -/
def OfUser (s : State ι) (result : Option (Result (Name ι) (Name ι))) : Prop :=
  ∀ v, result = some (.value v) → ∃ d, v = s.value d

/-- The given states have the same results. -/
structure Agree (s t : State ι) : Prop where
  result : ∀ i, s.result (.given i) = t.result (.given i)
  token : s.token = t.token
  ofUser : ∀ i, OfUser s (s.result (.given i))

theorem value_eq {t : State ι} (token : s.token = t.token) (d : Datum ι) :
    s.value d = t.value d := by
  cases d with
  | plain n => rfl
  | future i => simp only [State.value, State.given, token]

theorem resultOf_eq {t : State ι} (token : s.token = t.token) (outcome : Except Exc (Datum ι)) :
    s.resultOf outcome = t.resultOf outcome := by
  cases outcome with
  | ok d => simp only [State.resultOf, value_eq token]
  | error e => rfl

theorem ofUser_resultOf (outcome : Except Exc (Datum ι)) :
    OfUser s (some (s.resultOf outcome)) := by
  intro v held
  cases outcome with
  | error e => cases Option.some.inj held
  | ok d =>
    obtain rfl : s.value d = v := by simpa [State.resultOf] using held
    exact ⟨d, rfl⟩

theorem Agree.resolve {t : State ι} (agree : Agree s t) (sane : Sane s []) (sane' : Sane t [])
    (step : ι × Except Exc (Datum ι)) :
    ∃ s' t', s.resolve step = some s' ∧ t.resolve step = some t' ∧ Agree s' t' ∧
      Sane s' [] ∧ Sane t' [] ∧ Later s s' ∧ Later t t' := by
  obtain ⟨i, outcome⟩ := step
  by_cases unready : s.result (.given i) = none
  · have unready' : t.result (.given i) = none := agree.result i ▸ unready
    obtain ⟨s', resolves, quiescent, later, results⟩ := resolve_spec sane unready
    obtain ⟨t', resolves', quiescent', later', results'⟩ := resolve_spec sane' unready'
    refine ⟨s', t', resolves, resolves', ⟨fun j => ?_, ?_, fun j v held => ?_⟩, quiescent,
      quiescent', later, later'⟩
    · rw [results, results', resultOf_eq agree.token, agree.result]
    · rw [later.token, later'.token, agree.token]
    · rw [results] at held
      split at held
      · obtain ⟨d, same⟩ := ofUser_resultOf outcome v held
        exact ⟨d, by rw [same, later.value]⟩
      · obtain ⟨d, same⟩ := agree.ofUser j v held
        exact ⟨d, by rw [same, later.value]⟩
  · have unready' : ¬ t.result (.given i) = none := agree.result i ▸ unready
    exact ⟨s, t, if_neg unready, if_neg unready', agree, sane, sane', .refl, .refl⟩

theorem Agree.foldlM_resolve {t : State ι} (agree : Agree s t) (sane : Sane s [])
    (sane' : Sane t []) (steps : List (ι × Except Exc (Datum ι))) :
    ∃ s' t', steps.foldlM State.resolve s = some s' ∧ steps.foldlM State.resolve t = some t' ∧
      Agree s' t' ∧ Sane s' [] ∧ Sane t' [] ∧ Later s s' ∧ Later t t' := by
  induction steps generalizing s t with
  | nil => exact ⟨s, t, rfl, rfl, agree, sane, sane', .refl, .refl⟩
  | cons step steps ih =>
    obtain ⟨s', t', resolves, resolves', agree, sane, sane', later, later'⟩ :=
      agree.resolve sane sane' step
    obtain ⟨s'', t'', folds, folds', agree, sane, sane', laters, laters'⟩ := ih agree sane sane'
    refine ⟨s'', t'', ?_, ?_, agree, sane, sane', later.trans laters, later'.trans laters'⟩
    · rw [List.foldlM_cons, resolves]
      exact folds
    · rw [List.foldlM_cons, resolves']
      exact folds'

/-- The state is the one that the expression was evaluated to. -/
def Denotes (s : State ι) : Expr ι → Name ι → Prop
  | .given i, p => p = .given i
  | .makeReadyFuture inner, p =>
    ∃ fut, s.result p = some (.value (.future fut)) ∧ Denotes s inner fut.p
  | .andThen fut func, p => ∃ q, s.node p = some (.task q func) ∧ Denotes s fut q
  | .unwrap fut, p => ∃ q, s.node p = some (.unwrapped q) ∧ Denotes s fut q

theorem Denotes.later {e : Expr ι} (denotes : Denotes s e p) (later : Later s s') :
    Denotes s' e p := by
  induction e generalizing p with
  | given i => exact denotes
  | makeReadyFuture inner ih =>
    obtain ⟨fut, result, inside⟩ := denotes
    exact ⟨fut, later.results _ _ result, ih inside⟩
  | andThen fut func ih =>
    obtain ⟨q, made, before⟩ := denotes
    exact ⟨q, later.nodes _ _ made, ih before⟩
  | unwrap fut ih =>
    obtain ⟨q, made, before⟩ := denotes
    exact ⟨q, later.nodes _ _ made, ih before⟩

theorem build_spec (e : Expr ι) (sane : Sane s []) :
    ∃ s' fut, e.build s = some (s', fut) ∧ Sane s' [] ∧ Steady s s' ∧ s'.Known fut.p ∧
      Denotes s' e fut.p := by
  induction e with
  | given i => exact ⟨s, s.given i, rfl, sane, .refl, trivial, rfl⟩
  | makeReadyFuture inner ih =>
    obtain ⟨s', fut, builds, sane', steady, known, denotes⟩ := ih
    have later : Later s' (s'.makeReadyFuture (.future fut)).1 := sane'.later_create
    refine ⟨_, (s'.makeReadyFuture (.future fut)).2, ?_, sane'.makeReadyFuture ?_,
      steady.trans sane'.steady_create, ?_, fut, ?_, denotes.later later⟩
    · rw [Expr.build, builds]
      rfl
    · intro fut' same
      obtain rfl : fut = fut' := by simpa using same
      exact known
    · exact State.known_create.mpr (Or.inr rfl)
    · exact congrArg SharedBase.r State.states_fresh
  | andThen fut func ih =>
    obtain ⟨s', fut', builds, sane', steady, known, denotes⟩ := ih
    obtain ⟨s'', completes, quiescent, steady'⟩ := complete_spec (sane'.andThen func known)
    have later : Later s' s'' := Later.trans sane'.later_create steady'.toLater
    have made : s''.node s'.fresh = some (.task fut'.p func) :=
      steady'.nodes _ _ State.node_create
    refine ⟨s'', (s'.andThen fut' func).2.1, ?_, quiescent,
      (steady.trans sane'.steady_create).trans steady', State.known_of_node made,
      fut'.p, made, denotes.later later⟩
    have unfolds : (fut.andThen func).build s = ((s'.andThen fut' func).1.complete
        (s'.andThen fut' func).2.2).bind fun s => some (s, (s'.andThen fut' func).2.1) := by
      rw [Expr.build, builds]
      rfl
    rw [List.append_nil] at completes
    rw [unfolds, completes]
    rfl
  | unwrap fut ih =>
    obtain ⟨s', fut', builds, sane', steady, known, denotes⟩ := ih
    obtain ⟨s'', completes, quiescent, steady'⟩ := complete_spec (sane'.unwrap known)
    have later : Later s' s'' := Later.trans sane'.later_create steady'.toLater
    have made : s''.node s'.fresh = some (.unwrapped fut'.p) :=
      steady'.nodes _ _ State.node_create
    refine ⟨s'', s''.heap.future s'.fresh, ?_, quiescent,
      (steady.trans sane'.steady_create).trans steady',
      State.known_of_node made, fut'.p, made, denotes.later later⟩
    have unfolds : fut.unwrap.build s = ((s'.unwrap fut').1.complete
        (s'.unwrap fut').2.2).bind fun s => some (s, s.heap.future s'.fresh) := by
      rw [Expr.build, builds]
      rfl
    have completes : (s'.unwrap fut').1.complete (s'.unwrap fut').2.2 = some s'' := completes
    rw [unfolds, completes]
    rfl

/-! ## What the results say -/

/-- What a state that was made waits for. -/
def Waits (s : State ι) : Node ι → Prop
  | .ready => False
  | .task p _ => s.result p = none
  | .unwrapped p => s.result p = none ∨
      ∃ fut, s.result p = some (.value (.future fut)) ∧ s.result fut.p = none

/-- A state that is not resolved when no call is left waits, or is stuck. -/
theorem Sane.waits (sane : Sane s []) (made : s.node d = some node) (unready : s.result d = none) :
    Waits s node ∨ Stuck s node := by
  refine (sane.due d node made unready).imp (fun owed => ?_) id
  -- some continuation is to resolve it
  rw [State.total, List.map_nil, List.sum_nil, Nat.zero_add] at owed
  obtain ⟨q, -, waiting⟩ := Finset.exists_ne_zero_of_sum_ne_zero (Nat.ne_of_gt owed)
  obtain ⟨n, listed, positive⟩ : ∃ n ∈ (s.heap.states q).thens.map (owes d), n ≠ 0 := by
    by_contra none_
    exact waiting (List.sum_eq_zero fun n member => by
      by_contra positive
      exact none_ ⟨n, member, positive⟩)
  obtain ⟨f, member, rfl⟩ := List.mem_map.mp listed
  have unready' : s.result q = none := by
    by_contra ready
    rw [sane.drained q ready] at member
    cases member
  have placed := sane.placed q f member
  cases f with
  | client k =>
    cases k with
    | andThen p token func task =>
      obtain ⟨rfl, made'⟩ := placed
      obtain rfl : task = d := by simpa [owes] using positive
      rw [made] at made'
      obtain rfl := Option.some.inj made'
      exact unready'
    | returnFuture => exact placed.elim
  | unwrapOuter p sb =>
    obtain ⟨rfl, made'⟩ := placed
    obtain rfl : sb = d := by simpa [owes] using positive
    rw [made] at made'
    obtain rfl := Option.some.inj made'
    exact Or.inl unready'
  | unwrapInner p sb token =>
    obtain ⟨rfl, outer, fut, made', result, rfl⟩ := placed
    obtain rfl : sb = d := by simpa [owes] using positive
    rw [made] at made'
    obtain rfl := Option.some.inj made'
    exact Or.inr ⟨fut, result, unready'⟩
  | finish | thenRun | requestCancel | popCancelationCallback => exact placed.elim

/-- The result of the inner future, or the error of the outer one. -/
def State.join (s : State ι) :
    Option (Result (Name ι) (Name ι)) → Option (Result (Name ι) (Name ι))
  | some (.value (.future fut)) => s.result fut.p
  | some (.exception e) => some (.exception e)
  | _ => none

/-- What a function of the user makes of a result. -/
def State.apply (s : State ι) (f : Datum ι → Except Exc (Datum ι)) :
    Option (Result (Name ι) (Name ι)) → Option (Result (Name ι) (Name ι))
  | some (.value v) => (datum v).map fun d => s.resultOf (f d)
  | some (.exception e) => some (.exception e)
  | none => none

theorem Sane.result_unwrapped (sane : Sane s []) (made : s.node d = some (.unwrapped p)) :
    s.result d = s.join (s.result p) := by
  cases result : s.result d with
  | some r =>
    rcases sane.right d _ r made result with ⟨e, failed, rfl⟩ | ⟨fut, outer, inner⟩
    · rw [failed, State.join]
    · rw [outer, State.join, inner]
  | none =>
    rcases sane.waits made result with (outer | ⟨fut, outer, inner⟩) | ⟨n, plain⟩
    · rw [outer]
      rfl
    · rw [outer, State.join, inner]
    · rw [plain]
      rfl

/-- What the packaged task of `and_then` is set to. -/
theorem Sane.task_cases (sane : Sane s []) (made : s.node d = some (.task p func)) :
    s.result p = none ∧ s.result d = none ∨
    (∃ e, s.result p = some (.exception e) ∧ s.result d = some (.exception e)) ∨
    ∃ v, s.result p = some (.value v) ∧ ((∃ r, s.result d = some r ∧ Returns s v func r) ∨
      s.result d = none ∧ Refused v func) := by
  cases result : s.result d with
  | some r =>
    rcases sane.right d _ r made result with ⟨e, failed, rfl⟩ | ⟨v, value, returns⟩
    · exact Or.inr (Or.inl ⟨e, failed, rfl⟩)
    · exact Or.inr (Or.inr ⟨v, value, Or.inl ⟨r, rfl, returns⟩⟩)
  | none =>
    rcases sane.waits made result with unready | ⟨v, value, refused⟩
    · exact Or.inl ⟨unready, rfl⟩
    · exact Or.inr (Or.inr ⟨v, value, Or.inr ⟨rfl, refused⟩⟩)

theorem Sane.result_user {f : Datum ι → Except Exc (Datum ι)} (sane : Sane s [])
    (made : s.node d = some (.task p (.user f))) : s.result d = s.apply f (s.result p) := by
  rcases sane.task_cases made with ⟨before, after⟩ | ⟨e, before, after⟩ |
    ⟨v, before, ⟨r, after, known, same, rfl⟩ | ⟨after, refused⟩⟩
  · rw [before, after]
    rfl
  · rw [before, after]
    rfl
  · rw [before, after, State.apply, same]
    rfl
  · have refused : datum v = none := refused
    rw [before, after, State.apply, refused]
    rfl

/-- `make_ready_future` and `unwrap` undo each other. -/
theorem Sane.join_makeReadyFuture (sane : Sane s [])
    (made : s.node d = some (.task p .makeReadyFuture)) : s.join (s.result d) = s.result p := by
  rcases sane.task_cases made with ⟨before, after⟩ | ⟨e, before, after⟩ |
    ⟨v, before, ⟨r, after, fut, rfl, ready⟩ | ⟨-, refused⟩⟩
  · rw [before, after]
    rfl
  · rw [before, after]
    rfl
  · rw [before, after, State.join, ready]
  · exact refused.elim

/-- `and_then(unwrap)` and then `unwrap` takes the inner future first. -/
theorem Sane.join_unwrap (sane : Sane s []) (made : s.node d = some (.task p .unwrap)) :
    s.join (s.result d) = s.join (s.join (s.result p)) := by
  rcases sane.task_cases made with ⟨before, after⟩ | ⟨e, before, after⟩ |
    ⟨v, before, ⟨r, after, outer, fut, rfl, rfl, made'⟩ | ⟨after, n, rfl⟩⟩
  · rw [before, after]
    rfl
  · rw [before, after]
    rfl
  · rw [before, after, State.join, sane.result_unwrapped made', State.join]
  · rw [before, after]
    rfl

theorem datum_value (d : Datum ι) : datum (s.value d) = some d := by
  cases d <;> rfl

variable {t : State ι} {result : Option (Result (Name ι) (Name ι))}
  {f g : Datum ι → Except Exc (Datum ι)}

theorem Agree.join (agree : Agree s t) (ofUser : OfUser s result) :
    s.join result = t.join result ∧ OfUser s (s.join result) := by
  have nothing : OfUser s none := fun v held => by cases held
  cases result with
  | none => exact ⟨rfl, nothing⟩
  | some r =>
    cases r with
    | exception e => exact ⟨rfl, fun v held => by cases held⟩
    | value v =>
      obtain ⟨d, rfl⟩ := ofUser v rfl
      cases d with
      | plain n => exact ⟨rfl, nothing⟩
      | future i => exact ⟨agree.result i, agree.ofUser i⟩

theorem Agree.apply (agree : Agree s t) : s.apply f result = t.apply f result := by
  cases result with
  | none => rfl
  | some r =>
    cases r with
    | exception e => rfl
    | value v => simp only [State.apply, resultOf_eq agree.token]

theorem ofUser_apply : OfUser s (s.apply f result) := by
  intro v held
  cases result with
  | none => cases held
  | some r =>
    cases r with
    | exception e => cases held
    | value w =>
      obtain ⟨d, -, same⟩ := Option.map_eq_some_iff.mp held
      exact ofUser_resultOf (f d) v (congrArg some same)

/-- Two functions after each other do what their composition does. -/
theorem apply_apply : s.apply g (s.apply f result) = s.apply (fun d => f d >>= g) result := by
  cases result with
  | none => rfl
  | some r =>
    cases r with
    | exception e => rfl
    | value v =>
      cases known : datum v with
      | none => simp [State.apply, known]
      | some d =>
        cases returned : f d with
        | error e => simp [State.apply, State.resultOf, known, returned, bind, Except.bind]
        | ok d' =>
          simp [State.apply, State.resultOf, known, returned, datum_value, bind, Except.bind]

theorem apply_ok (ofUser : OfUser s result) : s.apply .ok result = result := by
  cases result with
  | none => rfl
  | some r =>
    cases r with
    | exception e => rfl
    | value v =>
      obtain ⟨d, rfl⟩ := ofUser v rfl
      rw [State.apply, datum_value]
      rfl

end

/-! ## The laws -/

/-- The futures of user code: given ones, and what its functions and `unwrap` make of them. -/
inductive Source (ι : Type) where
  | given (i : ι)
  | andThen (fut : Source ι) (f : Datum ι → Except Exc (Datum ι))
  | unwrap (fut : Source ι)

def Source.expr : Source ι → Expr ι
  | .given i => .given i
  | .andThen fut f => .andThen fut.expr (.user f)
  | .unwrap fut => .unwrap fut.expr

/-- Whatever is resolved before and after the evaluation, and so after each step, the two
futures are both unresolved or have the same result. -/
def Equivalent (lhs rhs : Expr ι) : Prop :=
  ∀ token before after, ∃ result,
    run token before lhs after = some result ∧ run token before rhs after = some result

section

variable {s t : State ι} {p q : Name ι}

/-- The result depends on those of the given states only. -/
theorem Source.same (fut : Source ι) (agree : Agree s t) (sane : Sane s []) (sane' : Sane t [])
    (denotes : Denotes s fut.expr p) (denotes' : Denotes t fut.expr q) :
    s.result p = t.result q ∧ OfUser s (s.result p) := by
  induction fut generalizing p q with
  | given i =>
    obtain rfl : p = .given i := denotes
    obtain rfl : q = .given i := denotes'
    exact ⟨agree.result i, agree.ofUser i⟩
  | andThen fut f ih =>
    obtain ⟨p', made, before⟩ := denotes
    obtain ⟨q', made', before'⟩ := denotes'
    obtain ⟨same, -⟩ := ih before before'
    rw [sane.result_user made, sane'.result_user made', ← same]
    exact ⟨agree.apply, ofUser_apply⟩
  | unwrap fut ih =>
    obtain ⟨p', made, before⟩ := denotes
    obtain ⟨q', made', before'⟩ := denotes'
    obtain ⟨same, ofUser⟩ := ih before before'
    rw [sane.result_unwrapped made, sane'.result_unwrapped made', ← same]
    exact agree.join ofUser

theorem sane_start (token : ι → Option ι) : Sane { token } [] where
  sound call member := by cases member
  placed q f member := by cases member
  drained p ready := absurd rfl ready
  right p node r made := by cases p <;> cases made
  known p r held := by cases held
  blank p unknown := rfl
  quiet t := rfl
  single d node made := by cases d <;> cases made
  due d node made := by cases d <;> cases made

theorem agree_start (token : ι → Option ι) : Agree ({ token } : State ι) { token } where
  result i := rfl
  token := rfl
  ofUser i v held := by cases held

/-- Two expressions are equivalent if their states have the same result whenever no call is
left. -/
theorem equivalent_of_denotes {lhs rhs : Expr ι}
    (same : ∀ {s t p q}, Agree s t → Sane s [] → Sane t [] → Denotes s lhs p → Denotes t rhs q →
      s.result p = t.result q) : Equivalent lhs rhs := by
  intro token before after
  obtain ⟨s, t, folds, folds', agree, sane, sane', -, -⟩ :=
    (agree_start token).foldlM_resolve (sane_start token) (sane_start token) before
  obtain rfl : s = t := Option.some.inj (folds.symm.trans folds')
  obtain ⟨s₁, fut, builds, sane₁, steady₁, -, denotes₁⟩ := build_spec lhs sane
  obtain ⟨t₁, fut', builds', sane₁', steady₁', -, denotes₁'⟩ := build_spec rhs sane
  have agree₁ : Agree s₁ t₁ := by
    refine ⟨fun i => ?_, ?_, fun i v held => ?_⟩
    · rw [steady₁.given, steady₁'.given]
    · rw [steady₁.token, steady₁'.token]
    · rw [steady₁.given] at held
      obtain ⟨d, rfl⟩ := agree.ofUser i v held
      exact ⟨d, (steady₁.value d).symm⟩
  obtain ⟨s₂, t₂, ends, ends', agree₂, sane₂, sane₂', later, later'⟩ :=
    agree₁.foldlM_resolve sane₁ sane₁' after
  refine ⟨s₂.result fut.p, ?_, ?_⟩
  · simp only [run, folds, builds, ends, Option.bind_eq_bind, Option.bind_some]
    rfl
  · rw [same agree₂ sane₂ sane₂' (denotes₁.later later) (denotes₁'.later later')]
    simp only [run, folds, builds', ends', Option.bind_eq_bind, Option.bind_some]
    rfl

end

variable (fut : Source ι) (f g : Datum ι → Except Exc (Datum ι))

theorem andThen_id : Equivalent (.andThen fut.expr (.user .ok)) fut.expr := by
  apply equivalent_of_denotes
  rintro s t p q agree sane sane' ⟨p', made, denotes⟩ denotes'
  obtain ⟨same, ofUser⟩ := fut.same agree sane sane' denotes denotes'
  rw [sane.result_user made, apply_ok ofUser, same]

theorem andThen_andThen : Equivalent (.andThen (.andThen fut.expr (.user f)) (.user g))
    (.andThen fut.expr (.user fun d => f d >>= g)) := by
  apply equivalent_of_denotes
  rintro s t p q agree sane sane' ⟨p', made, p'', made', denotes⟩ ⟨q', made'', denotes'⟩
  obtain ⟨same, -⟩ := fut.same agree sane sane' denotes denotes'
  rw [sane.result_user made, sane.result_user made', sane'.result_user made'', apply_apply, same]
  exact agree.apply

theorem unwrap_makeReadyFuture : Equivalent (.unwrap (.makeReadyFuture fut.expr)) fut.expr := by
  apply equivalent_of_denotes
  rintro s t p q agree sane sane' ⟨p', made, inner, ready, denotes⟩ denotes'
  obtain ⟨same, -⟩ := fut.same agree sane sane' denotes denotes'
  rw [sane.result_unwrapped made, ready, State.join, same]

theorem unwrap_andThen_makeReadyFuture :
    Equivalent (.unwrap (.andThen fut.expr .makeReadyFuture)) fut.expr := by
  apply equivalent_of_denotes
  rintro s t p q agree sane sane' ⟨p', made, p'', made', denotes⟩ denotes'
  obtain ⟨same, -⟩ := fut.same agree sane sane' denotes denotes'
  rw [sane.result_unwrapped made, sane.join_makeReadyFuture made', same]

theorem unwrap_unwrap :
    Equivalent (.unwrap (.unwrap fut.expr)) (.unwrap (.andThen fut.expr .unwrap)) := by
  apply equivalent_of_denotes
  rintro s t p q agree sane sane' ⟨p', made, p'', made', denotes⟩ ⟨q', made'', q'', task, denotes'⟩
  obtain ⟨same, ofUser⟩ := fut.same agree sane sane' denotes denotes'
  obtain ⟨inner, ofUser'⟩ := agree.join ofUser
  rw [sane.result_unwrapped made, sane.result_unwrapped made', sane'.result_unwrapped made'',
    sane'.join_unwrap task, ← same, ← inner]
  exact (agree.join ofUser').1

/-- `and_then` is a functor's map and `unwrap` a monad's join. -/
theorem functor_and_monad_laws :
    Equivalent (.andThen fut.expr (.user .ok)) fut.expr ∧
    Equivalent (.andThen (.andThen fut.expr (.user f)) (.user g))
      (.andThen fut.expr (.user fun d => f d >>= g)) ∧
    Equivalent (.unwrap (.makeReadyFuture fut.expr)) fut.expr ∧
    Equivalent (.unwrap (.andThen fut.expr .makeReadyFuture)) fut.expr ∧
    Equivalent (.unwrap (.unwrap fut.expr)) (.unwrap (.andThen fut.expr .unwrap)) :=
  ⟨andThen_id fut, andThen_andThen fut f g, unwrap_makeReadyFuture fut,
    unwrap_andThen_makeReadyFuture fut, unwrap_unwrap fut⟩

end Tconcurrent.FutureLaws
