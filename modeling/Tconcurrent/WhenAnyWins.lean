import Tconcurrent.WhenAny

/-! `when_any` reports the input whose callback ran first, and keeps every future.

The callback that finds `triggered` unset is the one that sets the promise, after it has
asked for the cancelation of the others.  Until then every input has a callback that waits,
or the loop of the constructor has yet to come to it. -/
namespace Tconcurrent.WhenAny
open Interleaving FutureInputs

/-- The call itself. -/
def calling : Account Name Closure :=
  counting none fun
    | .whenAny => 1
    | _ => 0

/-- The loop of the constructor, until the future is returned. -/
def looping : Account Name Closure :=
  counting none fun
    | .whenAny => 1
    | .register _ => 1
    | .index _ => 1
    | .getFuture => 1
    | _ => 0

/-- What the callback that came first still has to do. -/
def Publishes : Closure → ℕ
  | .cancelOthers _ _ => 1
  | .setValue _ => 1
  | _ => 0

/-- What leads to the first callback of an input. -/
def arrival (inputs : List Input) (index : ℕ) : Account Name Closure where
  target := none
  own
    | .whenAny => 1
    | .register i => (decide (i ≤ index)).toNat
    | .index i => (decide (i ≤ index)).toNat
    | .callback i => (decide (i = index)).toNat
    | _ => 0
  homes := (inputs[index]?).elim ∅ fun fut : Input => {some fut.p}

/-- Every callback. -/
def callbacks (inputs : List Input) : Account Name Closure where
  target := none
  own
    | .callback _ => 1
    | _ => 0
  homes := (inputs.map fun fut => some fut.p).toFinset

/-- The inputs below a bound, but for one, have been asked to cancel. -/
def AskedBelow (inputs : List Input) (heap : InputHeap Closure) (index bound : ℕ) : Prop :=
  ∀ j < bound, j ≠ index → ∀ fut : Input, inputs[j]? = some fut → Requested heap (some fut.p)

/-- What holds of every reachable state. -/
structure Sane (inputs : List Input) (autoCancel : Bool) (s : State)
    (pending : Multiset WhenAnyCall) : Prop where
  fine : Fine (program inputs) s.heap pending
  calls : calling.balance s.heap pending + s.called.toNat = 1
  loop : looping.balance s.heap pending + s.returned.toNat = 1
  blank : s.called = false → s.heap.states none = {} ∧ s.triggered = false
  uncalled : s.called = false → (callbacks inputs).balance s.heap pending = 0
  futures : s.called = true → s.futures = if s.value.isSome then [] else inputs
  value : ∀ index futures, s.value = some (index, futures) →
    futures = inputs ∧ s.first = some index
  first : s.first.isSome = s.triggered
  winner : ∀ index, s.first = some index →
    ∃ fut : Input, inputs[index]? = some fut ∧ s.heap.Ready (some fut.p)
  canceling : ∀ index i, .client (.cancelOthers index i) ∈ pending →
    s.first = some index ∧ autoCancel = true ∧ AskedBelow inputs s.heap index i
  setting : ∀ index, .client (.setValue index) ∈ pending →
    s.first = some index ∧ (autoCancel = true → AskedBelow inputs s.heap index inputs.length)
  visible : ∀ index futures, s.value = some (index, futures) → autoCancel = true →
    AskedBelow inputs s.heap index inputs.length
  settles : (counting (some none) Publishes).balance s.heap pending = s.triggered.toNat
  sets : (counting none Publishes).balance s.heap pending + s.sets = s.triggered.toNat
  once : s.sets = s.value.isSome.toNat
  arrives : ∀ index < inputs.length,
    1 ≤ (arrival inputs index).balance s.heap pending + s.triggered.toNat
  results : ∀ r, Outcome s.heap pending none r → r = .value (.plain 0)
  stack : s.called = true → (s.heap.tokens none).doCancels = [.client .canceler]
  token : s.called = true → ¬ s.heap.Ready none →
    (s.heap.states none).cancelationToken = some none
  canceled : s.canceled = true → .client .canceler ∈ pending ∨
    ∀ fut ∈ inputs, Asked s.heap pending (some fut.p)
  unasked : autoCancel = false → s.asked = false → Unasked (program inputs) s.heap pending

variable {inputs : List Input} {autoCancel : Bool} {s s' : State}
  {pending others : Multiset WhenAnyCall} {call : WhenAnyCall} {calls : List WhenAnyCall}
  {k : Closure} {heap' : InputHeap Closure} {i j : ℕ} {fut : Input} {choice : Choice}

theorem closed_own {target : Option Name} {own : Closure → ℕ} (user : own .user = 0)
    (canceler : own .canceler = 0) (callback : ∀ i, own (.callback i) = 0) :
    (counting target own).Closed (program inputs).wiring := by
  apply closed_counting user canceler
  rintro p k ⟨i, fut, rfl, -, -⟩
  exact callback i

theorem closed_calling : calling.Closed (program inputs).wiring := closed_own rfl rfl fun _ => rfl

theorem closed_looping : looping.Closed (program inputs).wiring := closed_own rfl rfl fun _ => rfl

theorem closed_publishes {target : Option Name} :
    (counting target Publishes).Closed (program inputs).wiring := closed_own rfl rfl fun _ => rfl

theorem closed_arrival (inputs : List Input) (index : ℕ) :
    (arrival inputs index).Closed (program inputs).wiring := by
  refine closed_place rfl rfl rfl ?_
  rintro q k ⟨i, fut, rfl, listed, same⟩
  exact ⟨i, fut, rfl, listed, same⟩

theorem closed_callbacks (inputs : List Input) :
    (callbacks inputs).Closed (program inputs).wiring := by
  refine closed_of_homes rfl rfl ?_
  rintro q k ⟨i, fut, rfl, listed, rfl⟩ -
  simpa [callbacks] using ⟨fut, List.mem_of_getElem? listed, rfl⟩

theorem AskedBelow.mono {heap : InputHeap Closure} {index bound : ℕ}
    (asked : AskedBelow inputs heap index bound)
    (kept : ∀ p : ℕ, Requested heap (some p) → Requested heap' (some p)) :
    AskedBelow inputs heap' index bound :=
  fun j below other fut listed => kept _ (asked j below other fut listed)

/-! ## Steps -/

theorem own_of_foreign (foreign : (program inputs).Foreign k) :
    (∀ index i, k ≠ .cancelOthers index i) ∧ ∀ index, k ≠ .setValue index := by
  rcases foreign with rfl | rfl | ⟨p, i, fut, rfl, -, -⟩ <;> simp [program]

/-- **What the library and other code do.** -/
theorem Sane.steps (sane : Sane inputs autoCancel s (call ::ₘ others))
    (steps : Steps (program inputs) s.heap (call ::ₘ others) heap' (↑calls + others))
    (other : call ≠ .client .canceler)
    (blank : s.called = false → heap'.states none = s.heap.states none)
    (canceled asked disturbed : Bool)
    (requested : canceled = true → s.canceled = true ∨ .client .canceler ∈ calls)
    (unasked : autoCancel = false → asked = false →
      Unasked (program inputs) heap' (↑calls + others)) :
    Sane inputs autoCancel { s with heap := heap', canceled, asked, disturbed }
      (↑calls + others) where
  fine := steps.fine
  calls := by
    rw [steps.balance _ closed_calling rfl (by simp [calling])]
    exact sane.calls
  loop := by
    rw [steps.balance _ closed_looping rfl (by simp [looping])]
    exact sane.loop
  blank before := by
    rw [blank before]
    exact sane.blank before
  uncalled before := by
    rw [steps.balance _ (closed_callbacks inputs) rfl (by simp [callbacks])]
    exact sane.uncalled before
  futures := sane.futures
  value := sane.value
  first := sane.first
  winner index first := by
    obtain ⟨fut, listed, ready⟩ := sane.winner index first
    exact ⟨fut, listed, steps.ready _ ready⟩
  canceling index i member := by
    rcases steps.clients _ member with before | foreign
    · obtain ⟨first, auto, asked⟩ := sane.canceling index i before
      exact ⟨first, auto, asked.mono steps.requested⟩
    · exact absurd rfl ((own_of_foreign foreign).1 index i)
  setting index member := by
    rcases steps.clients _ member with before | foreign
    · obtain ⟨first, asked⟩ := sane.setting index before
      exact ⟨first, fun auto => (asked auto).mono steps.requested⟩
    · exact absurd rfl ((own_of_foreign foreign).2 index)
  visible index futures value auto := (sane.visible index futures value auto).mono steps.requested
  settles := by
    rw [steps.balance _ closed_publishes rfl (by simp)]
    exact sane.settles
  sets := by
    rw [steps.balance _ closed_publishes rfl (by simp)]
    exact sane.sets
  once := sane.once
  arrives index inside := by
    rw [steps.balance _ (closed_arrival inputs index) rfl (by simp [arrival])]
    exact sane.arrives index inside
  results r outcome := sane.results r (steps.outcome r outcome)
  stack called := steps.stack.trans (sane.stack called)
  token called unready := by
    rw [steps.token unready]
    exact sane.token called fun ready => unready (steps.ready _ ready)
  canceled asked := by
    rcases requested asked with before | made
    · rcases sane.canceled before with member | all
      · have later := (Multiset.mem_cons.mp member).resolve_left other.symm
        exact Or.inl (Multiset.mem_add.mpr (Or.inr later))
      · exact Or.inr fun fut member => steps.asked _ (all fut member)
    · exact Or.inl (Multiset.mem_add.mpr (Or.inl (Multiset.mem_coe.mpr made)))
  unasked := unasked

/-- **What the program does itself.** -/
theorem Sane.own (sane : Sane inputs autoCancel s (.client k ::ₘ others))
    (fine : Fine (program inputs) s.heap (↑calls + others)) (same : s'.heap = s.heap)
    (called : s'.called = s.called)
    (whenAny : weight calling.owes (calls : Multiset WhenAnyCall) = calling.own k)
    (loop : weight looping.owes (calls : Multiset WhenAnyCall) + s'.returned.toNat =
      looping.own k + s.returned.toNat)
    (blank : s.called = false → s'.triggered = s.triggered ∧
      weight (callbacks inputs).owes (calls : Multiset WhenAnyCall) = 0)
    (futures : s.called = true → s'.futures = if s'.value.isSome then [] else inputs)
    (value : ∀ index futures, s'.value = some (index, futures) →
      futures = inputs ∧ s'.first = some index)
    (first : s'.first.isSome = s'.triggered)
    (winner : ∀ index, s'.first = some index →
      ∃ fut : Input, inputs[index]? = some fut ∧ s.heap.Ready (some fut.p))
    (grows : ∀ index, s.first = some index → s'.first = some index)
    (canceling : ∀ index i, .client (.cancelOthers index i) ∈ calls →
      s'.first = some index ∧ autoCancel = true ∧ AskedBelow inputs s.heap index i)
    (setting : ∀ index, .client (.setValue index) ∈ calls →
      s'.first = some index ∧ (autoCancel = true → AskedBelow inputs s.heap index inputs.length))
    (visible : ∀ index futures, s'.value = some (index, futures) → autoCancel = true →
      AskedBelow inputs s.heap index inputs.length)
    (settles : weight (counting (some none) Publishes).owes (calls : Multiset WhenAnyCall) +
      s.triggered.toNat = Publishes k + s'.triggered.toNat)
    (sets : weight (counting none Publishes).owes (calls : Multiset WhenAnyCall) + s'.sets +
      s.triggered.toNat = Publishes k + s.sets + s'.triggered.toNat)
    (once : s'.sets = s'.value.isSome.toNat)
    (arrives : s'.triggered = false → ∀ index < inputs.length, (arrival inputs index).own k ≤
      weight (arrival inputs index).owes (calls : Multiset WhenAnyCall))
    (results : ∀ r, .finish none r ∈ calls → r = .value (.plain 0))
    (canceled : s'.canceled = s.canceled) (asked : s'.asked = s.asked)
    (canceler : k = .canceler → ∀ fut ∈ inputs, .requestCancel (some fut.p) ∈ calls)
    (plain : k ≠ .canceler →
      ∀ call ∈ calls, (∀ p, call ≠ .requestCancel p) ∧ call ≠ .client .canceler) :
    Sane inputs autoCancel s' (↑calls + others) := by
  have moves (account : Account Name Closure) :
      account.balance s.heap (↑calls + others) + account.own k = _ :=
    balance_moved account s.heap k calls others
  exact {
    fine := same ▸ fine
    calls := by
      have before := sane.calls
      have moves := moves calling
      rw [same, called]
      omega
    loop := by
      have before := sane.loop
      have moves := moves looping
      rw [same]
      omega
    blank := fun before => by
      rw [called] at before
      rw [same, (blank before).1]
      exact sane.blank before
    uncalled := fun before => by
      rw [called] at before
      have none := sane.uncalled before
      have quiet := (blank before).2
      have moves := moves (callbacks inputs)
      rw [same]
      omega
    futures := fun after => futures (called ▸ after)
    value := value
    first := first
    winner := by rw [same]; exact winner
    canceling := fun index i member => by
      rw [same]
      rcases Multiset.mem_add.mp member with made | other
      · exact canceling index i (Multiset.mem_coe.mp made)
      · obtain ⟨first, rest⟩ := sane.canceling index i (Multiset.mem_cons_of_mem other)
        exact ⟨grows index first, rest⟩
    setting := fun index member => by
      rw [same]
      rcases Multiset.mem_add.mp member with made | other
      · exact setting index (Multiset.mem_coe.mp made)
      · obtain ⟨first, rest⟩ := sane.setting index (Multiset.mem_cons_of_mem other)
        exact ⟨grows index first, rest⟩
    visible := by rw [same]; exact visible
    settles := by
      have before := sane.settles
      have moves := moves (counting (some none) Publishes)
      rw [counting_own] at moves
      rw [same]
      omega
    sets := by
      have before := sane.sets
      have moves := moves (counting none Publishes)
      rw [counting_own] at moves
      rw [same]
      omega
    once := once
    arrives := fun index inside => by
      cases triggered : s'.triggered with
      | true => simp
      | false =>
        have untriggered : s.triggered = false := by
          rw [← sane.first, Option.isSome_eq_false_iff, Option.isNone_iff_eq_none]
          rw [triggered] at first
          cases before : s.first with
          | none => rfl
          | some index =>
            rw [grows index before] at first
            cases first
        have before := sane.arrives index inside
        have moves := moves (arrival inputs index)
        have arrives := arrives triggered index inside
        rw [untriggered] at before
        rw [same]
        omega
    results := fun r outcome => by
      rcases outcome_after _ (by rw [same]) outcome with made | before
      · exact results r made
      · exact sane.results r before
    stack := fun after => by rw [same]; exact sane.stack (called ▸ after)
    token := fun after => by rw [same]; exact sane.token (called ▸ after)
    canceled := fun asked => by
      rw [canceled] at asked
      rw [same]
      rcases sane.canceled asked with member | all
      · rcases Multiset.mem_cons.mp member with now | later
        · refine Or.inr fun fut listed => Or.inr (Multiset.mem_add.mpr (Or.inl ?_))
          cases now
          exact Multiset.mem_coe.mpr (canceler rfl fut listed)
        · exact Or.inl (Multiset.mem_add.mpr (Or.inr later))
      · exact Or.inr fun fut member => (all fut member).client
    unasked := fun auto quiet => by
      rw [asked] at quiet
      rw [same]
      have before := sane.unasked auto quiet
      refine before.after (fun _ => rfl) (plain fun same => ?_)
      rw [same] at before
      exact (before.calls _ (Multiset.mem_cons_self _ _)).2 rfl }

/-- The promise is set once. -/
theorem Sane.unready (sane : Sane inputs autoCancel s pending) {r : Result Name Name}
    (member : .finish none r ∈ pending) : ¬ s.heap.Ready none :=
  Account.unready_of_finish (sane.settles.trans_le (Bool.toNat_le _)) rfl member

theorem Sane.undecided (sane : Sane inputs autoCancel s pending) (before : s.called = false)
    (r : Result Name Name) : .finish none r ∉ pending := by
  intro member
  have owed : (counting (some none) Publishes).owes (.finish none r : WhenAnyCall) ≤
      (counting (some none) Publishes).balance s.heap pending := Account.owes_le_balance member
  rw [sane.settles, (sane.blank before).2] at owed
  simp [Account.owes] at owed

theorem library_step (sane : Sane inputs autoCancel s (call ::ₘ others))
    (library : ∀ k, call ≠ .client k) :
    Sane inputs autoCancel { s with heap := (s.heap.exec call).1 }
      (↑(s.heap.exec call).2 + others) := by
  have expected := sane.fine.expected call (Multiset.mem_cons_self _ _)
  refine sane.steps (sane.fine.library library ?_) (library _) (fun before => ?_) s.canceled s.asked
    s.disturbed Or.inl fun auto quiet => ?_
  · rintro r rfl
    exact sane.unready (Multiset.mem_cons_self _ _)
  · refine sane.fine.library_result library ?_
    rintro r rfl
    exact sane.undecided before r (Multiset.mem_cons_self _ _)
  · have unasked := sane.unasked auto quiet
    have plain := (unasked.calls call (Multiset.mem_cons_self _ _)).1
    refine unasked.exec sane.fine call ?_ (sane.fine.calls call (Multiset.mem_cons_self _ _)) plain
    cases call with
    | client k => exact absurd rfl (library k)
    | finish => trivial
    | thenRun => trivial
    | requestCancel => trivial
    | popCancelationCallback => exact expected.elim
    | unwrapOuter => exact expected.elim
    | unwrapInner => exact expected.elim

theorem calling_le_looping (heap : InputHeap Closure) (pending : Multiset WhenAnyCall) :
    calling.balance heap pending ≤ looping.balance heap pending := by
  rw [calling, looping, balance_counting, balance_counting]
  refine Multiset.sum_map_le_sum_map _ _ fun call _ => owes_le_owes rfl (fun k => ?_) call
  cases k <;> simp

/-- The future is returned after the call. -/
theorem Sane.unreturned (sane : Sane inputs autoCancel s pending) (before : s.called = false) :
    s.returned = false := by
  have calls := sane.calls
  have loop := sane.loop
  have less := calling_le_looping s.heap pending
  rw [before, Bool.toNat_false] at calls
  cases returned : s.returned with
  | false => rfl
  | true =>
    rw [returned, Bool.toNat_true] at loop
    omega

/-- The loop runs after the call. -/
theorem Sane.called_of_loop (sane : Sane inputs autoCancel s (.client k ::ₘ others))
    (later : calling.own k = 0) (loops : looping.own k = 1) : s.called = true := by
  by_contra before
  have before : s.called = false := by simpa using before
  have calls := sane.calls
  have loop := sane.loop
  have less := calling_le_looping s.heap others
  have moved (account : Account Name Closure) :
      account.balance s.heap (↑([] : List WhenAnyCall) + others) + account.own k = _ :=
    balance_moved account s.heap k [] others
  have first := moved calling
  have second := moved looping
  rw [Multiset.coe_nil, zero_add] at first second
  rw [before, Bool.toNat_false] at calls
  rw [weight_zero] at first second
  omega

theorem user_step (sane : Sane inputs autoCancel s (.client .user ::ₘ others))
    (ran : user inputs s choice = some (s', calls)) : Sane inputs autoCancel s' (↑calls + others) := by
  obtain ⟨⟨heap', made⟩, stepped, same⟩ := Option.map_eq_some_iff.mp ran
  cases same
  refine sane.steps (sane.fine.others_step stepped) (by simp) (fun before => ?_) _ _ _
    (fun asked => ?_) fun auto quiet => ?_
  · exact others_result stepped (sane.unreturned before)
  · rcases Bool.or_eq_true_iff.mp asked with before | now
    · exact Or.inl before
    · obtain ⟨rfl, called, unready⟩ := of_decide_eq_true now
      exact Or.inr (others_requestCancel stepped (sane.token called unready) (sane.stack called))
  · obtain ⟨before, other⟩ := Bool.or_eq_false_iff.mp quiet
    refine (sane.unasked auto before).others_step sane.fine stepped ?_
    rintro p rfl
    cases other

/-- Until the promise is set the vector holds the inputs. -/
theorem Sane.unmoved (sane : Sane inputs autoCancel s pending) (called : s.called = true)
    (before : s.triggered = false) : s.futures = inputs := by
  have futures := sane.futures called
  have first := sane.first
  cases value : s.value with
  | none => simpa [value] using futures
  | some result =>
    rw [before, (sane.value result.1 result.2 value).2] at first
    cases first

theorem register_step (sane : Sane inputs autoCancel s (.client (.register i) ::ₘ others)) :
    Sane inputs autoCancel (register i s).1 (↑(register i s).2 + others) := by
  have called := sane.called_of_loop rfl rfl
  have futures := sane.futures called
  simp only [register]
  split
  · refine sane.own (sane.fine.internal (by simp [program])) rfl rfl rfl rfl ?_ sane.futures
      sane.value sane.first sane.winner (fun _ => id) (by simp) (by simp) sane.visible rfl rfl
      sane.once ?_ (by simp) rfl rfl (by simp) (by simp)
    · intro before
      rw [called] at before
      cases before
    · intro _ index _
      simp [arrival, Account.owes]
  · rename_i outside
    refine sane.own (sane.fine.internal (by simp [program])) rfl rfl rfl rfl ?_ sane.futures
      sane.value sane.first sane.winner (fun _ => id) (by simp) (by simp) sane.visible rfl rfl
      sane.once ?_ (by simp) rfl rfl (by simp) (by simp)
    · intro before
      rw [called] at before
      cases before
    · intro untriggered index inside
      rw [sane.unmoved called untriggered] at outside
      have beyond : ¬ i ≤ index := by omega
      simp [arrival, beyond]

theorem index_step (sane : Sane inputs autoCancel s (.client (.index i) ::ₘ others))
    (ran : index i s = some (s', calls)) : Sane inputs autoCancel s' (↑calls + others) := by
  have called := sane.called_of_loop rfl rfl
  obtain ⟨fut, listed, same⟩ := Option.map_eq_some_iff.mp ran
  cases same
  have futures := sane.futures called
  have given : inputs[i]? = some fut := by
    cases value : s.value with
    | none => simpa [futures, value] using listed
    | some result => simp [futures, value] at listed
  refine sane.own (sane.fine.client ?_ ?_) rfl rfl rfl rfl ?_ sane.futures sane.value sane.first
    sane.winner (fun _ => id) (by simp) (by simp) sane.visible rfl rfl sane.once ?_ (by simp) rfl rfl
    (by simp) (by simp)
  · simp only [List.mem_cons, List.not_mem_nil, or_false]
    rintro call (rfl | rfl)
    · exact Or.inr ⟨fut.p, rfl, i, fut, rfl, given, rfl⟩
    · exact sound_internal (by simp [program])
  · simp only [List.mem_cons, List.not_mem_nil, or_false]
    rintro call (rfl | rfl) <;> simp [Expected]
  · intro before
    rw [called] at before
    cases before
  · intro _ index _
    simp only [arrival, weight_cons_coe, weight_nil_coe, Account.owes, add_zero]
    by_cases here : i = index
    · simp [here]
    · by_cases below : i ≤ index
      · have next : (i + 1) % 2 ^ 32 ≤ index := (Nat.mod_le _ _).trans (by omega)
        rw [decide_eq_true next]
        simp [here, below]
      · simp [below]

theorem getFuture_step (sane : Sane inputs autoCancel s (.client .getFuture ::ₘ others)) :
    Sane inputs autoCancel { s with returned := true } (↑([] : List WhenAnyCall) + others) := by
  have called := sane.called_of_loop rfl rfl
  have unreturned : s.returned = false := by
    have loop := sane.loop
    have kept := own_le_balance looping s.heap .getFuture others
    cases returned : s.returned with
    | false => rfl
    | true =>
      rw [returned, Bool.toNat_true] at loop
      simp only [looping, counting_own] at kept loop
      omega
  refine sane.own (sane.fine.internal (by simp)) rfl rfl rfl ?_ ?_ sane.futures sane.value sane.first
    sane.winner (fun _ => id) (by simp) (by simp) sane.visible rfl rfl sane.once ?_ (by simp) rfl rfl
    (by simp) (by simp)
  · simp [looping, unreturned]
  · intro before
    rw [called] at before
    cases before
  · intro _ index _
    simp [arrival]

theorem canceler_step (sane : Sane inputs autoCancel s (.client .canceler ::ₘ others)) :
    Sane inputs autoCancel s (↑(requestCancel inputs s).2 + others) := by
  have quiet (account : Account Name Closure) :
      weight account.owes ((requestCancel inputs s).2 : Multiset WhenAnyCall) = 0 := by
    refine Account.weight_eq_zero fun call member => ?_
    obtain ⟨fut, -, rfl⟩ := List.mem_map.mp member
    rfl
  have only : ∀ call ∈ (requestCancel inputs s).2, ∃ p : ℕ, call = .requestCancel (some p) := by
    intro call member
    obtain ⟨fut, -, rfl⟩ := List.mem_map.mp member
    exact ⟨fut.p, rfl⟩
  refine sane.own (sane.fine.client ?_ ?_) rfl rfl (quiet _) ?_ (fun _ => ⟨rfl, quiet _⟩)
    sane.futures sane.value sane.first sane.winner (fun _ => id) ?_ ?_ sane.visible ?_ ?_ sane.once ?_
    ?_ rfl rfl ?_ (fun other => absurd rfl other)
  · intro call member
    obtain ⟨p, rfl⟩ := only call member
    trivial
  · intro call member
    obtain ⟨p, rfl⟩ := only call member
    simp [Expected]
  · rw [quiet]
    rfl
  · intro index i member
    obtain ⟨p, same⟩ := only _ member
    cases same
  · intro index member
    obtain ⟨p, same⟩ := only _ member
    cases same
  · rw [quiet]
    rfl
  · rw [quiet]
    rfl
  · intro _ index _
    simp [arrival]
  · intro r member
    obtain ⟨p, same⟩ := only _ member
    cases same
  · exact fun _ fut member => List.mem_map.mpr ⟨fut, member, rfl⟩

theorem Sane.called_of_callback (sane : Sane inputs autoCancel s (.client (.callback i) ::ₘ others)) :
    s.called = true := by
  by_contra before
  have none := sane.uncalled (by simpa using before)
  have kept := own_le_balance (callbacks inputs) s.heap (.callback i) others
  rw [none] at kept
  simp [callbacks] at kept

theorem callback_step (sane : Sane inputs autoCancel s (.client (.callback i) ::ₘ others)) :
    Sane inputs autoCancel (callback autoCancel i s).1
      (↑(callback autoCancel i s).2 + others) := by
  have called := sane.called_of_callback
  obtain ⟨p, ⟨index, fut, same, listed, rfl⟩, ready⟩ :=
    sane.fine.ready (Multiset.mem_cons_self _ _) (fun own => own i rfl) (by simp [program])
  cases same
  have uncalled : ∀ {P : Prop}, s.called = false → P := fun before => by
    rw [called] at before
    cases before
  simp only [callback]
  by_cases triggered : s.triggered = true
  · rw [if_pos triggered]
    refine sane.own (sane.fine.internal (by simp)) rfl rfl rfl rfl uncalled sane.futures sane.value
      sane.first sane.winner (fun _ => id) (by simp) (by simp) sane.visible rfl rfl sane.once ?_
      (by simp) rfl rfl (by simp) (by simp)
    intro untriggered
    rw [triggered] at untriggered
    cases untriggered
  · rw [if_neg triggered]
    have triggered : s.triggered = false := by simpa using triggered
    have unset : s.value = none := by
      have first := sane.first
      cases value : s.value with
      | none => rfl
      | some result =>
        rw [triggered, (sane.value result.1 result.2 value).2] at first
        cases first
    have fresh : s.first = none := by
      have first := sane.first
      rw [triggered] at first
      simpa using first
    have one (account : Account Name Closure) (both : ∀ i, account.own (.cancelOthers i 0) =
        account.own (.setValue i)) : weight account.owes
          ((if autoCancel = true then [.client (.cancelOthers i 0)] else [.client (.setValue i)] :
            List WhenAnyCall) : Multiset WhenAnyCall) = account.own (.setValue i) := by
      split
      · rw [weight_cons_coe, weight_nil_coe, add_zero, Account.owes, both]
      · rw [weight_cons_coe, weight_nil_coe, add_zero, Account.owes]
    have only : ∀ call ∈ (if autoCancel = true then [.client (.cancelOthers i 0)]
        else [.client (.setValue i)] : List WhenAnyCall),
        autoCancel = true ∧ call = .client (.cancelOthers i 0) ∨
          autoCancel = false ∧ call = .client (.setValue i) := by
      intro call member
      split at member
      · rename_i auto
        exact Or.inl ⟨auto, List.mem_singleton.mp member⟩
      · rename_i auto
        exact Or.inr ⟨by simpa using auto, List.mem_singleton.mp member⟩
    refine sane.own (sane.fine.internal ?_) rfl rfl ?_ ?_ uncalled sane.futures ?_ rfl ?_ ?_ ?_ ?_
      ?_ ?_ ?_ sane.once ?_ ?_ rfl rfl (by simp) ?_
    · intro call member
      rcases only call member with ⟨-, rfl⟩ | ⟨-, rfl⟩ <;> exact ⟨_, rfl, by simp [program]⟩
    · rw [one _ fun _ => rfl]
      rfl
    · rw [one _ fun _ => rfl]
      rfl
    · intro index futures value
      simp only [unset] at value
      cases value
    · intro index first
      cases first
      exact ⟨fut, listed, ready⟩
    · intro index first
      rw [fresh] at first
      cases first
    · intro index j member
      rcases only _ member with ⟨auto, same⟩ | ⟨-, same⟩
      · cases same
        exact ⟨rfl, auto, fun j below => absurd below (Nat.not_lt_zero j)⟩
      · cases same
    · intro index member
      rcases only _ member with ⟨-, same⟩ | ⟨auto, same⟩
      · cases same
      · cases same
        refine ⟨rfl, fun wanted => ?_⟩
        rw [auto] at wanted
        cases wanted
    · intro index futures value
      simp only [unset] at value
      cases value
    · rw [one _ fun _ => rfl, triggered]
      rfl
    · rw [one _ fun _ => rfl, triggered]
      simp [Publishes, Nat.add_comm]
    · intro untriggered
      cases untriggered
    · intro r member
      rcases only _ member with ⟨-, same⟩ | ⟨-, same⟩ <;> cases same
    · intro _ call member
      rcases only call member with ⟨-, rfl⟩ | ⟨-, rfl⟩ <;> simp

theorem setValue_step (sane : Sane inputs autoCancel s (.client (.setValue i) ::ₘ others)) :
    Sane inputs autoCancel (setValue i s).1 (↑(setValue i s).2 + others) := by
  obtain ⟨first, asked⟩ := sane.setting i (Multiset.mem_cons_self _ _)
  have triggered : s.triggered = true := by
    rw [← sane.first, first]
    rfl
  have called : s.called = true := by
    by_contra before
    rw [(sane.blank (by simpa using before)).2] at triggered
    cases triggered
  have sets := sane.sets
  have kept := own_le_balance (counting none Publishes) s.heap (.setValue i) others
  rw [counting_own, show Publishes (.setValue i) = 1 from rfl] at kept
  have once := sane.once
  have most := Bool.toNat_le s.triggered
  have unset : s.value = none := by
    cases value : s.value with
    | none => rfl
    | some result =>
      rw [value, Option.isSome_some, Bool.toNat_true] at once
      omega
  have futures := sane.futures called
  rw [unset] at futures
  rw [unset, Option.isSome_none, Bool.toNat_false] at once
  refine sane.own (sane.fine.client ?_ ?_) rfl rfl rfl rfl ?_ (fun _ => rfl) ?_ sane.first
    sane.winner (fun _ => id) ?_ ?_ ?_ rfl ?_ ?_ ?_ ?_ rfl rfl (by simp) ?_
  · intro call member
    rw [List.mem_singleton.mp member]
    exact sound_finish _ _
  · intro call member
    rw [List.mem_singleton.mp member]
    rfl
  · exact fun _ => ⟨rfl, rfl⟩
  · intro index moved value
    cases value
    exact ⟨futures, first⟩
  · intro index j member
    cases List.mem_singleton.mp member
  · intro index member
    cases List.mem_singleton.mp member
  · intro index moved value
    cases value
    exact asked
  · rw [once, show (setValue i s).1.sets = s.sets + 1 from rfl, once]
    rfl
  · simp [setValue, once]
  · intro untriggered
    rw [show (setValue i s).1.triggered = s.triggered from rfl, triggered] at untriggered
    cases untriggered
  · intro r member
    cases List.mem_singleton.mp member
    rfl
  · intro _ call member
    rw [List.mem_singleton.mp member]
    simp

/-- The next round of the loop, or what comes after it. -/
theorem Sane.cancelNext
    (sane : Sane inputs autoCancel s (.client (.cancelOthers i j) ::ₘ others)) (next : Closure)
    (internal : (program inputs).internal next) (counts : Publishes next = 1)
    (quiet : calling.own next = 0 ∧ looping.own next = 0 ∧ (callbacks inputs).own next = 0)
    (canceling : ∀ index j, next = .cancelOthers index j →
      s.first = some index ∧ autoCancel = true ∧ AskedBelow inputs s.heap index j)
    (setting : ∀ index, next = .setValue index → s.first = some index ∧
      (autoCancel = true → AskedBelow inputs s.heap index inputs.length))
    (plain : next ≠ .canceler) :
    Sane inputs autoCancel s (↑([.client next] : List WhenAnyCall) + others) := by
  have triggered : s.triggered = true := by
    rw [← sane.first, (sane.canceling i j (Multiset.mem_cons_self _ _)).1]
    rfl
  have one (account : Account Name Closure) :
      weight account.owes (([.client next] : List WhenAnyCall) : Multiset WhenAnyCall) =
        account.own next := by
    rw [weight_cons_coe, weight_nil_coe, add_zero, Account.owes]
  refine sane.own (sane.fine.internal ?_) rfl rfl ?_ ?_ ?_ sane.futures sane.value sane.first
    sane.winner (fun _ => id) ?_ ?_ sane.visible ?_ ?_ sane.once ?_ ?_ rfl rfl (by simp) ?_
  · intro call member
    exact ⟨next, List.mem_singleton.mp member, internal⟩
  · rw [one, quiet.1]
    rfl
  · rw [one, quiet.2.1]
    rfl
  · intro before
    rw [(sane.blank before).2] at triggered
    cases triggered
  · intro index j member
    cases List.mem_singleton.mp member
    exact canceling index j rfl
  · intro index member
    cases List.mem_singleton.mp member
    exact setting index rfl
  · rw [one, counting_own, counts]
    rfl
  · rw [one, counting_own, counts]
    rfl
  · intro untriggered
    rw [triggered] at untriggered
    cases untriggered
  · intro r member
    cases List.mem_singleton.mp member
  · intro _ call member
    rw [List.mem_singleton.mp member]
    exact ⟨by simp, by simpa using plain⟩

/-- User code may be called anywhere. -/
theorem Sane.user (sane : Sane inputs autoCancel s pending) :
    Sane inputs autoCancel s (.client .user ::ₘ pending) := by
  have same (account : Account Name Closure) (quiet : account.own .user = 0) :
      account.balance s.heap (.client .user ::ₘ pending) = account.balance s.heap pending := by
    simp [Account.balance, Account.owes, quiet]
  exact {
    fine := sane.fine.user
    calls := by rw [same _ rfl]; exact sane.calls
    loop := by rw [same _ rfl]; exact sane.loop
    blank := sane.blank
    uncalled := fun before => by rw [same _ rfl]; exact sane.uncalled before
    futures := sane.futures
    value := sane.value
    first := sane.first
    winner := sane.winner
    canceling := fun index i member => sane.canceling index i (by simpa using member)
    setting := fun index member => sane.setting index (by simpa using member)
    visible := sane.visible
    settles := by rw [same _ rfl]; exact sane.settles
    sets := by rw [same _ rfl]; exact sane.sets
    once := sane.once
    arrives := fun index inside => by rw [same _ rfl]; exact sane.arrives index inside
    results := fun r outcome => sane.results r (by simpa [Outcome] using outcome)
    stack := sane.stack
    token := sane.token
    canceled := fun asked => (sane.canceled asked).imp (fun member => by simpa using member)
      fun all fut member => (all fut member).imp_right Multiset.mem_cons_of_mem
    unasked := fun auto quiet => by
      obtain ⟨tokens, calls⟩ := sane.unasked auto quiet
      refine ⟨tokens, fun call member => ?_⟩
      rcases Multiset.mem_cons.mp member with rfl | other
      · simp [program]
      · exact calls call other }

theorem cancelOthers_step (sane : Sane inputs autoCancel s (.client (.cancelOthers i j) ::ₘ others)) :
    Sane inputs autoCancel (cancelOthers i j s).1 (↑(cancelOthers i j s).2 + others) := by
  obtain ⟨first, auto, asked⟩ := sane.canceling i j (Multiset.mem_cons_self _ _)
  have triggered : s.triggered = true := by
    rw [← sane.first, first]
    rfl
  have called : s.called = true := by
    by_contra before
    rw [(sane.blank (by simpa using before)).2] at triggered
    cases triggered
  have futures : s.futures = inputs := by
    have futures := sane.futures called
    have sets := sane.sets
    have once := sane.once
    have kept := own_le_balance (counting none Publishes) s.heap (.cancelOthers i j) others
    rw [counting_own, show Publishes (.cancelOthers i j) = 1 from rfl] at kept
    have most := Bool.toNat_le s.triggered
    cases value : s.value with
    | none => simpa [value] using futures
    | some result =>
      rw [value, Option.isSome_some, Bool.toNat_true] at once
      omega
  -- The loop comes to a next index only if this one is accounted for.
  have further {heap : InputHeap Closure} (below : AskedBelow inputs heap i j)
      (here : j ≠ i → ∀ fut : Input, inputs[j]? = some fut → Requested heap (some fut.p)) :
      AskedBelow inputs heap i ((j + 1) % 2 ^ 32) := by
    intro k inside other fut listed
    have bound : k < j + 1 := inside.trans_le (Nat.mod_le _ _)
    by_cases last : k = j
    · subst last
      exact here other fut listed
    · exact below k (by omega) other fut listed
  simp only [cancelOthers]
  split
  · rename_i outside
    rw [futures] at outside
    refine sane.cancelNext (.setValue i) (by simp [program]) rfl ⟨rfl, rfl, rfl⟩ (by simp) ?_
      (by simp)
    rintro index ⟨⟩
    have bound := List.getElem?_eq_none_iff.mp outside
    exact ⟨first, fun _ k inside => asked k (by omega)⟩
  · rename_i fut listed
    rw [futures] at listed
    split
    · rename_i same
      refine sane.cancelNext (.cancelOthers i ((j + 1) % 2 ^ 32)) (by simp [program]) rfl
        ⟨rfl, rfl, rfl⟩ ?_ (by simp) (by simp)
      rintro index k ⟨⟩
      exact ⟨first, auto, further asked fun other => absurd same other⟩
    · have fine := sane.user.fine
      have steps := (fine.steps (.requestCancel (some fut.p)) trivial trivial (by simp)).user
        (fun _ _ _ => rfl) (by simp) (by simp)
      have after := sane.user.steps steps (by simp) (fun before => by
        rw [called] at before
        cases before) s.canceled s.asked s.disturbed Or.inl (fun other => by
        rw [auto] at other
        cases other)
      have moved (calls : List WhenAnyCall) (last : WhenAnyCall) :
          (↑(calls ++ [last]) + others : Multiset WhenAnyCall) =
            ↑([last] : List WhenAnyCall) + (↑calls + others) := by
        rw [← Multiset.coe_add, add_assoc, add_left_comm]
      rw [Multiset.add_cons] at after
      rw [moved]
      refine after.cancelNext (.cancelOthers i ((j + 1) % 2 ^ 32)) (by simp [program]) rfl
        ⟨rfl, rfl, rfl⟩ ?_ (by simp) (by simp)
      rintro index k ⟨⟩
      refine ⟨first, auto, further (asked.mono steps.requested) fun _ other given => ?_⟩
      obtain rfl : fut = other := Option.some.inj (listed.symm.trans given)
      exact fine.requested fut.p

theorem whenAny_step (sane : Sane inputs autoCancel s (.client .whenAny ::ₘ others))
    (nonempty : inputs ≠ []) :
    Sane inputs autoCancel (whenAny inputs s).1 (↑(whenAny inputs s).2 + others) := by
  have kept := own_le_balance calling s.heap .whenAny others
  rw [show calling.own .whenAny = 1 from rfl] at kept
  have calls := sane.calls
  have before : s.called = false := by
    cases called : s.called with
    | false => rfl
    | true =>
      rw [called, Bool.toNat_true] at calls
      omega
  obtain ⟨blank, untriggered⟩ := sane.blank before
  have unreturned := sane.unreturned before
  have uncalled := sane.uncalled before
  have loop := sane.loop
  have settles := sane.settles
  have sets := sane.sets
  have once := sane.once
  have fresh : s.first = none := by
    have first := sane.first
    rw [untriggered] at first
    simpa using first
  rw [before, Bool.toNat_false] at calls
  rw [untriggered, Bool.toNat_false] at settles sets
  have unset : s.value = none := by
    cases value : s.value with
    | none => rfl
    | some result =>
      rw [value, Option.isSome_some, Bool.toNat_true] at once
      omega
  have moves (account : Account Name Closure) :
      account.balance ((program inputs).makePromise s.heap)
          (↑([.client (.register 0)] : List WhenAnyCall) + others) + account.own .whenAny =
        account.balance s.heap (.client .whenAny ::ₘ others) + account.own (.register 0) := by
    rw [balance_makePromise blank, balance_moved, weight_cons_coe, weight_nil_coe, add_zero,
      Account.owes]
  have own : ∀ call ∈ ([.client (.register 0)] : List WhenAnyCall),
      call = .client (.register 0) := fun call member => List.mem_singleton.mp member
  rw [show whenAny inputs s = ({ s with
      called := true
      heap := (program inputs).makePromise s.heap
      futures := inputs
      lowest := inputs.findIdx? fun fut => decide (s.heap.Ready (some fut.p)) },
    [.client (.register 0)]) from if_neg nonempty]
  exact {
    fine := by
      refine sane.fine.makePromise blank (fun call member => ?_) fun call member => ?_
      · rw [own call member]
        exact sound_internal (by simp [program])
      · rw [own call member]
        trivial
    calls := by
      have moves := moves calling
      simp only [show calling.own .whenAny = 1 from rfl,
        show calling.own (.register 0) = 0 from rfl] at moves
      simp only [Bool.toNat_true]
      omega
    loop := by
      have moves := moves looping
      simp only [show looping.own .whenAny = 1 from rfl,
        show looping.own (.register 0) = 1 from rfl] at moves
      simp only
      omega
    blank := fun after => by cases after
    uncalled := fun after => by cases after
    futures := fun _ => by simp [unset]
    value := fun index futures value => by
      rw [unset] at value
      cases value
    first := sane.first
    winner := fun index first => by
      rw [fresh] at first
      cases first
    canceling := fun index i member => by
      rcases Multiset.mem_add.mp member with made | other
      · cases own _ (Multiset.mem_coe.mp made)
      · have first := (sane.canceling index i (Multiset.mem_cons_of_mem other)).1
        rw [fresh] at first
        cases first
    setting := fun index member => by
      rcases Multiset.mem_add.mp member with made | other
      · cases own _ (Multiset.mem_coe.mp made)
      · have first := (sane.setting index (Multiset.mem_cons_of_mem other)).1
        rw [fresh] at first
        cases first
    visible := fun index futures value => by
      rw [unset] at value
      cases value
    settles := by
      have moves := moves (counting (some none) Publishes)
      simp only [counting_own, show Publishes .whenAny = 0 from rfl,
        show Publishes (.register 0) = 0 from rfl] at moves
      simp only [untriggered, Bool.toNat_false]
      omega
    sets := by
      have moves := moves (counting none Publishes)
      simp only [counting_own, show Publishes .whenAny = 0 from rfl,
        show Publishes (.register 0) = 0 from rfl] at moves
      simp only [untriggered, Bool.toNat_false]
      omega
    once := once
    arrives := fun index inside => by
      have moves := moves (arrival inputs index)
      have arrives := sane.arrives index inside
      simp only [show (arrival inputs index).own .whenAny = 1 from rfl,
        show (arrival inputs index).own (.register 0) = 1 by simp [arrival]] at moves
      simp only
      omega
    results := fun r outcome => by
      rcases outcome with member | result
      · rcases Multiset.mem_add.mp member with made | other
        · cases own _ (Multiset.mem_coe.mp made)
        · exact sane.results r (Or.inl (Multiset.mem_cons_of_mem other))
      · simp [makePromise_result] at result
    stack := fun _ => makePromise_stack
    token := fun _ _ => by rw [makePromise_result]
    canceled := fun asked => by
      rcases sane.canceled asked with member | all
      · have other := (Multiset.mem_cons.mp member).resolve_left (by simp)
        exact Or.inl (Multiset.mem_add.mpr (Or.inr other))
      · exact Or.inr fun fut member =>
          (all fut member).client.imp_left sane.fine.requested_makePromise
    unasked := fun auto quiet => (sane.unasked auto quiet).makePromise fun call member => by
      rw [own call member]
      simp [program] }

/-! ## Runs -/

/-- **Every step keeps the invariant.** -/
theorem exec_step {thread : ℕ} (sane : Sane inputs autoCancel s (call ::ₘ others))
    (nonempty : inputs ≠ []) (ran : exec inputs autoCancel thread choice s call = some (s', calls)) :
    Sane inputs autoCancel s' (↑calls + others) := by
  cases call with
  | client k =>
    cases k with
    | user => exact user_step sane ran
    | whenAny =>
      have stepped := whenAny_step sane nonempty
      rwa [show whenAny inputs s = (s', calls) from Option.some.inj ran] at stepped
    | register i =>
      have stepped := register_step sane
      rwa [show register i s = (s', calls) from Option.some.inj ran] at stepped
    | index i => exact index_step sane ran
    | getFuture =>
      cases ran
      exact getFuture_step sane
    | callback i =>
      have stepped := callback_step sane
      rwa [show callback autoCancel i s = (s', calls) from Option.some.inj ran] at stepped
    | cancelOthers i j =>
      have stepped := cancelOthers_step sane
      rwa [show cancelOthers i j s = (s', calls) from Option.some.inj ran] at stepped
    | setValue i =>
      cases ran
      exact setValue_step sane
    | canceler =>
      cases ran
      exact canceler_step sane
  | finish p r =>
    simp only [exec] at ran
    split at ran
    · cases ran
    · cases ran
      exact library_step sane (by simp)
  | thenRun p f =>
    cases ran
    exact library_step sane (by simp)
  | requestCancel p =>
    cases ran
    exact library_step sane (by simp)
  | popCancelationCallback t =>
    cases ran
    exact library_step sane (by simp)
  | unwrapOuter fut1 sb =>
    cases ran
    exact library_step sane (by simp)
  | unwrapInner fut2 sb token =>
    cases ran
    exact library_step sane (by simp)

theorem pending_start (token : ℕ → ℕ) (threads : ℕ) : (start token threads).pending =
    .client .whenAny ::ₘ Multiset.replicate (threads + 2) (.client .user) :=
  pending_begin _ _ _ threads

theorem sane_start (token : ℕ → ℕ) (threads : ℕ) :
    Sane inputs autoCancel (start token threads).state (start token threads).pending := by
  have user : ∀ call ∈ Multiset.replicate (threads + 2) (Call.client Closure.user : WhenAnyCall),
      call = .client .user := fun call member => Multiset.eq_of_mem_replicate member
  have which : ∀ call ∈ (start token threads).pending,
      call = .client .whenAny ∨ call = .client .user := by
    intro call member
    rw [pending_start] at member
    exact (Multiset.mem_cons.mp member).imp_right (user call)
  have balances (account : Account Name Closure) (quiet : account.own .user = 0) :
      account.balance (start token threads).state.heap (start token threads).pending =
        account.own .whenAny := by
    have none : account.owes (.client .user : WhenAnyCall) = 0 := quiet
    rw [show (start token threads).state.heap = given token from rfl, balance_given, pending_start,
      weight_begin account none]
    rfl
  exact {
    fine := by
      refine fine_given token (fun call member => ?_) fun call member => ?_
      · rcases which call member with rfl | rfl
        · exact sound_internal (by simp [program])
        · exact sound_user
      · rcases which call member with rfl | rfl <;> trivial
    calls := by
      rw [balances _ rfl]
      rfl
    loop := by
      rw [balances _ rfl]
      rfl
    blank := fun _ => ⟨rfl, rfl⟩
    uncalled := fun _ => by
      rw [balances _ rfl]
      rfl
    futures := fun called => by cases called
    value := fun index futures value => by cases value
    first := rfl
    winner := fun index first => by cases first
    canceling := fun index i member => by rcases which _ member with same | same <;> cases same
    setting := fun index member => by rcases which _ member with same | same <;> cases same
    visible := fun index futures value => by cases value
    settles := by
      rw [balances _ rfl]
      rfl
    sets := by
      rw [balances _ rfl]
      rfl
    once := rfl
    arrives := fun index inside => by
      rw [balances _ rfl]
      exact le_rfl
    results := fun r outcome => by
      rcases outcome with member | result
      · rcases which _ member with same | same <;> cases same
      · cases result
    stack := fun called => by cases called
    token := fun called => by cases called
    canceled := fun asked => by cases asked
    unasked := fun _ _ => by
      refine ⟨fun _ => rfl, fun call member => ?_⟩
      rcases which call member with rfl | rfl <;> simp [program] }

/-- The calls with which `when_any` gets from its inputs to its result. -/
def Reporting : WhenAnyCall → Bool
  | .client .whenAny => true
  | .client (.register _) => true
  | .client (.index _) => true
  | .client (.callback _) => true
  | .client (.cancelOthers _ _) => true
  | .client (.setValue _) => true
  | .thenRun _ _ => true
  | .finish _ _ => true
  | _ => false

end Tconcurrent.WhenAny
