import Tconcurrent.WhenAll

/-! `when_all` collects every input in order.

For each input exactly one closure is on its way: it is not registered yet, it waits on the
input, it is called, or its slot is filled.  The count says how many slots are filled, less
the increments that are due, and the last increment is the one that sets the promise. -/
namespace Tconcurrent.WhenAll
open Interleaving FutureInputs

/-- The slots, also after they were moved into the value. -/
def State.collected (s : State) : List (Option Input) := s.value.getD s.finishedFutures

/-- What fills the slot of an input. -/
def arrival (inputs : List Input) (index : ℕ) : Account Name Closure where
  target := none
  own
    | .whenAll => (decide (index < inputs.length)).toNat
    | .callback i _ => (decide (i = index)).toNat
    | _ => 0
  homes := (inputs[index]?).elim ∅ fun fut : Input => {some fut.p}

/-- One call of the program by itself. -/
def single (k : Closure) : Account Name Closure :=
  counting none fun call => (decide (call = k)).toNat

/-- What sets the promise. -/
def settling : Account Name Closure :=
  counting (some none) fun call => (decide (call = .setValue)).toNat

def Filled (s : State) (index : ℕ) : Bool := s.collected[index]?.join.isSome

/-- What holds of every reachable state. -/
structure Sane (inputs : List Input) (s : State) (pending : Multiset WhenAllCall) : Prop where
  fine : Fine (program inputs) s.heap pending
  calls : (single .whenAll).balance s.heap pending + s.called.toNat = 1
  fetches : (single .getFuture).balance s.heap pending ≤ s.called.toNat
  blank : s.called = false → s.heap.states none = {} ∧ s.collected = [] ∧ s.returned = false
  arrives : ∀ index, (arrival inputs index).balance s.heap pending + (Filled s index).toNat =
    (decide (index < inputs.length)).toNat
  slots : ∀ (index : ℕ) (fut : Input), s.collected[index]?.join = some fut →
    inputs[index]? = some fut ∧ s.heap.Ready (some fut.p)
  length : s.called = true → s.collected.length = inputs.length
  count : s.count + (single .increment).balance s.heap pending = s.collected.countP (·.isSome)
  settles : settling.balance s.heap pending = (decide (s.count = inputs.length)).toNat
  sets : (single .setValue).balance s.heap pending + s.sets =
    (decide (s.count = inputs.length)).toNat
  value : s.sets = s.value.isSome.toNat
  results : ∀ r, Outcome s.heap pending none r → r = .value (.plain 0)
  asserts : s.assertFailed = false
  stack : s.called = true → (s.heap.tokens none).doCancels = [.client .canceler]
  token : s.called = true → ¬ s.heap.Ready none →
    (s.heap.states none).cancelationToken = some none
  canceled : s.canceled = true → .client .canceler ∈ pending ∨
    ∀ fut ∈ inputs, Asked s.heap pending (some fut.p)

variable {inputs : List Input} {s s' : State} {pending others : Multiset WhenAllCall}
  {call : WhenAllCall} {calls : List WhenAllCall} {k : Closure} {heap' : InputHeap Closure}
  {index : ℕ} {future : Input} {choice : Choice}

theorem closed_arrival (inputs : List Input) (index : ℕ) :
    (arrival inputs index).Closed (program inputs).wiring := by
  refine closed_place rfl rfl rfl ?_
  rintro q k ⟨i, fut, rfl, listed, same⟩
  exact ⟨i, fut, rfl, listed, same⟩

theorem closed_single (inputs : List Input) (user : k ≠ .user) (canceler : k ≠ .canceler)
    (callback : ∀ index fut, k ≠ .callback index fut) :
    (single k).Closed (program inputs).wiring := by
  apply closed_counting
  · simp [program, user.symm]
  · simp [program, canceler.symm]
  · rintro p call ⟨i, fut, rfl, -, -⟩
    simp [(callback i fut).symm]

theorem closed_settling (inputs : List Input) : settling.Closed (program inputs).wiring := by
  apply closed_counting
  · simp [program]
  · simp [program]
  · rintro p call ⟨i, fut, rfl, -, -⟩
    simp

theorem Sane.undecided (sane : Sane inputs s pending) (nonempty : inputs ≠ [])
    (before : s.called = false) (r : Result Name Name) : .finish none r ∉ pending := by
  intro member
  have owed : settling.owes (.finish none r : WhenAllCall) ≤ settling.balance s.heap pending :=
    Account.owes_le_balance member
  have count := sane.count
  rw [(sane.blank before).2.1, List.countP_nil] at count
  have different : s.count ≠ inputs.length := by
    have positive := List.length_pos_of_ne_nil nonempty
    omega
  rw [sane.settles] at owed
  simp [Account.owes, settling, different] at owed

/-- The promise is set once. -/
theorem Sane.unready (sane : Sane inputs s pending) {r : Result Name Name}
    (member : .finish none r ∈ pending) : ¬ s.heap.Ready none :=
  Account.unready_of_finish (sane.settles.trans_le (Bool.toNat_le _)) rfl member

/-! ## Steps -/

/-- **What the library and other code do.** -/
theorem Sane.steps (sane : Sane inputs s (call ::ₘ others))
    (steps : Steps (program inputs) s.heap (call ::ₘ others) heap' (↑calls + others))
    (other : call ≠ .client .canceler)
    (blank : s.called = false → heap'.states none = s.heap.states none) (canceled : Bool)
    (requested : canceled = true → s.canceled = true ∨ .client .canceler ∈ calls) :
    Sane inputs { s with heap := heap', canceled } (↑calls + others) where
  fine := steps.fine
  calls := by
    rw [steps.balance _ (closed_single inputs (by simp) (by simp) (by simp)) rfl (by simp [single])]
    exact sane.calls
  fetches := by
    rw [steps.balance _ (closed_single inputs (by simp) (by simp) (by simp)) rfl (by simp [single])]
    exact sane.fetches
  blank before := by
    rw [blank before]
    exact sane.blank before
  arrives index := by
    rw [steps.balance _ (closed_arrival inputs index) rfl (by simp [arrival])]
    exact sane.arrives index
  slots index fut filled := by
    obtain ⟨listed, ready⟩ := sane.slots index fut filled
    exact ⟨listed, steps.ready _ ready⟩
  length := sane.length
  count := by
    rw [steps.balance _ (closed_single inputs (by simp) (by simp) (by simp)) rfl (by simp [single])]
    exact sane.count
  settles := by
    rw [steps.balance _ (closed_settling inputs) rfl (by simp [settling])]
    exact sane.settles
  sets := by
    rw [steps.balance _ (closed_single inputs (by simp) (by simp) (by simp)) rfl (by simp [single])]
    exact sane.sets
  value := sane.value
  results r outcome := sane.results r (steps.outcome r outcome)
  asserts := sane.asserts
  stack called := steps.stack.trans (sane.stack called)
  token called unready := by
    rw [steps.token unready]
    exact sane.token called fun ready => unready (steps.ready _ ready)
  canceled asked := by
    rcases requested asked with before | made
    · rcases sane.canceled before with member | all
      · have later := (Multiset.mem_cons.mp member).resolve_left other.symm
        exact Or.inl (Multiset.mem_add.mpr (Or.inr later))
      · exact Or.inr fun fut member => steps.asked _ (all fut member)
    · exact Or.inl (Multiset.mem_add.mpr (Or.inl (Multiset.mem_coe.mpr made)))

theorem library_step (sane : Sane inputs s (call ::ₘ others)) (nonempty : inputs ≠ [])
    (library : ∀ k, call ≠ .client k) :
    Sane inputs { s with heap := (s.heap.exec call).1 } (↑(s.heap.exec call).2 + others) := by
  refine sane.steps (sane.fine.library library ?_) (library _) (fun before => ?_) s.canceled Or.inl
  · rintro r rfl
    exact sane.unready (Multiset.mem_cons_self _ _)
  · refine sane.fine.library_result library ?_
    rintro r rfl
    exact sane.undecided nonempty before r (Multiset.mem_cons_self _ _)

theorem user_step (sane : Sane inputs s (.client .user ::ₘ others))
    (ran : user inputs s choice = some (s', calls)) : Sane inputs s' (↑calls + others) := by
  obtain ⟨⟨heap', made⟩, stepped, same⟩ := Option.map_eq_some_iff.mp ran
  cases same
  refine sane.steps (sane.fine.others_step stepped) (by simp) (fun before => ?_) _ fun asked => ?_
  · exact others_result stepped (sane.blank before).2.2
  · rcases Bool.or_eq_true_iff.mp asked with before | now
    · exact Or.inl before
    · obtain ⟨rfl, called, unready⟩ := of_decide_eq_true now
      exact Or.inr (others_requestCancel stepped (sane.token called unready) (sane.stack called))

/-- **What the program does itself.** -/
theorem Sane.own (sane : Sane inputs s (.client k ::ₘ others))
    (fine : Fine (program inputs) s.heap (↑calls + others)) (same : s'.heap = s.heap)
    (called : s'.called = s.called)
    (blank : s.called = false → s'.collected = s.collected ∧ s'.returned = s.returned)
    (whenAll : weight (single .whenAll).owes (calls : Multiset WhenAllCall) =
      (single .whenAll).own k)
    (fetches : weight (single .getFuture).owes (calls : Multiset WhenAllCall) = 0)
    (fills : ∀ index, weight (arrival inputs index).owes (calls : Multiset WhenAllCall) +
      (Filled s' index).toNat = (arrival inputs index).own k + (Filled s index).toNat)
    (slots : ∀ (index : ℕ) (fut : Input), s'.collected[index]?.join = some fut →
      inputs[index]? = some fut ∧ s.heap.Ready (some fut.p))
    (length : s'.collected.length = s.collected.length)
    (count : s'.count + weight (single .increment).owes (calls : Multiset WhenAllCall) +
        s.collected.countP (·.isSome) =
      s.count + (single .increment).own k + s'.collected.countP (·.isSome))
    (settles : weight settling.owes (calls : Multiset WhenAllCall) +
        (decide (s.count = inputs.length)).toNat =
      settling.own k + (decide (s'.count = inputs.length)).toNat)
    (sets : weight (single .setValue).owes (calls : Multiset WhenAllCall) + s'.sets +
        (decide (s.count = inputs.length)).toNat =
      (single .setValue).own k + s.sets + (decide (s'.count = inputs.length)).toNat)
    (value : s'.sets = s'.value.isSome.toNat)
    (results : ∀ r, .finish none r ∈ calls → r = .value (.plain 0))
    (asserts : s'.assertFailed = false) (canceled : s'.canceled = s.canceled)
    (canceler : k = .canceler → ∀ fut ∈ inputs, .requestCancel (some fut.p) ∈ calls) :
    Sane inputs s' (↑calls + others) := by
  have moves (account : Account Name Closure) :
      account.balance s.heap (↑calls + others) + account.own k = _ :=
    balance_moved account s.heap k calls others
  exact {
    fine := same ▸ fine
    calls := by
      have before := sane.calls
      have moves := moves (single .whenAll)
      rw [same, called]
      omega
    fetches := by
      have before := sane.fetches
      have moves := moves (single .getFuture)
      rw [same, called]
      omega
    blank := fun before => by
      rw [called] at before
      rw [same, (blank before).1, (blank before).2]
      exact sane.blank before
    arrives := fun index => by
      have before := sane.arrives index
      have moves := moves (arrival inputs index)
      have fills := fills index
      rw [same]
      omega
    slots := fun index fut filled => by rw [same]; exact slots index fut filled
    length := fun after => length.trans (sane.length (called ▸ after))
    count := by
      have before := sane.count
      have moves := moves (single .increment)
      rw [same]
      omega
    settles := by
      have before := sane.settles
      have moves := moves settling
      rw [same]
      omega
    sets := by
      have before := sane.sets
      have moves := moves (single .setValue)
      rw [same]
      omega
    value := value
    results := fun r outcome => by
      rcases outcome_after _ (by rw [same]) outcome with made | before
      · exact results r made
      · exact sane.results r before
    asserts := asserts
    stack := fun after => by rw [same]; exact sane.stack (called ▸ after)
    token := fun after => by rw [same]; exact sane.token (called ▸ after)
    canceled := fun asked => by
      rw [canceled] at asked
      rw [same]
      rcases sane.canceled asked with member | all
      · rcases Multiset.mem_cons.mp member with now | later
        · refine Or.inr fun fut listed => Or.inr (Multiset.mem_add.mpr (Or.inl ?_))
          cases now
          exact Multiset.mem_coe.mpr (canceler rfl fut listed)
        · exact Or.inl (Multiset.mem_add.mpr (Or.inr later))
      · exact Or.inr fun fut member => (all fut member).client }

/-- Every input is on its way before `when_all` is called. -/
theorem single_le_arrival (inside : index < inputs.length) :
    (single .whenAll).owes call ≤ (arrival inputs index).owes call := by
  refine owes_le_owes rfl (fun k => ?_) call
  by_cases same : k = .whenAll
  · subst same
    simp [single, arrival, inside]
  · simp [single, same]

/-- The loop of `when_all` has begun when an input is on its way. -/
theorem Sane.called_of_arrives (sane : Sane inputs s (.client k ::ₘ others)) (later : k ≠ .whenAll)
    (owes : 0 < (arrival inputs index).own k) : s.called = true := by
  by_contra before
  have before : s.called = false := by simpa using before
  have calls := sane.calls
  have arrives := sane.arrives index
  have kept := own_le_balance (arrival inputs index) s.heap k others
  have inside : index < inputs.length := by
    by_contra outside
    rw [decide_eq_false outside, Bool.toNat_false] at arrives
    omega
  have less : weight (single .whenAll).owes others ≤ weight (arrival inputs index).owes others :=
    Multiset.sum_map_le_sum_map _ _ fun call _ => single_le_arrival inside
  have other : (single .whenAll).owes (.client k : WhenAllCall) = 0 := by
    simp [Account.owes, single, later]
  rw [before, Bool.toNat_false, add_zero, Account.balance, weight_cons, other] at calls
  rw [Account.balance, weight_cons, decide_eq_true inside, Bool.toNat_true] at arrives
  change 0 < (arrival inputs index).owes (.client k : WhenAllCall) at owes
  have alone : ∑ p ∈ (single .whenAll).homes, (single .whenAll).waiting s.heap p = 0 := rfl
  have unsettled : (single .whenAll).settled s.heap = 0 := rfl
  omega

/-- A filled slot is one of those that are counted. -/
theorem countP_filled (filled : s.collected.countP (·.isSome) = s.collected.length)
    (inside : index < s.collected.length) : Filled s index = true := by
  have every := List.countP_eq_length.mp filled _ (List.getElem_mem inside)
  simp [Filled, inside, every]

/-- As long as a slot is empty, the promise is not set. -/
theorem Sane.unset (sane : Sane inputs s pending) (called : s.called = true)
    (inside : index < inputs.length) (empty : Filled s index = false) :
    s.value = none ∧ s.count + (single .increment).balance s.heap pending < inputs.length := by
  have length := sane.length called
  have fewer : s.collected.countP (·.isSome) < inputs.length := by
    refine lt_of_le_of_ne (length ▸ List.countP_le_length) fun full => ?_
    rw [countP_filled (full.trans length.symm) (length ▸ inside)] at empty
    cases empty
  have count := sane.count
  have sets := sane.sets
  have value := sane.value
  refine ⟨?_, by omega⟩
  rw [decide_eq_false (by omega), Bool.toNat_false] at sets
  cases result : s.value with
  | none => rfl
  | some futures =>
    rw [result, Option.isSome_some, Bool.toNat_true] at value
    omega

theorem callback_step (sane : Sane inputs s (.client (.callback index future) ::ₘ others))
    (small : inputs.length < 2 ^ 32) :
    Sane inputs (callback inputs index future s).1
      (↑(callback inputs index future s).2 + others) := by
  obtain ⟨p, ⟨i, fut, same, listed, rfl⟩, ready⟩ :=
    sane.fine.ready (Multiset.mem_cons_self _ _) (fun own => own index future rfl) (by simp [program])
  cases same
  obtain ⟨inside, -⟩ := List.getElem?_eq_some_iff.mp listed
  have own : (arrival inputs index).own (.callback index future) = 1 := by simp [arrival]
  have called := sane.called_of_arrives (by simp) (own ▸ Nat.one_pos)
  have empty : Filled s index = false := by
    have arrives := sane.arrives index
    have kept := own_le_balance (arrival inputs index) s.heap (.callback index future) others
    have most := Bool.toNat_le (decide (index < inputs.length))
    cases filled : Filled s index with
    | false => rfl
    | true =>
      rw [filled, Bool.toNat_true] at arrives
      omega
  obtain ⟨unset, below⟩ := sane.unset called inside empty
  have collected : s.collected = s.finishedFutures := by simp [State.collected, unset]
  have after : (callback inputs index future s).1.collected =
      s.finishedFutures.set index (some future) := by simp [State.collected, callback, unset]
  have length := sane.length called
  rw [collected] at length
  have here : index < s.finishedFutures.length := length ▸ inside
  have slot : s.finishedFutures[index] = none := by
    simpa [Filled, collected, here] using empty
  refine sane.own (sane.fine.internal (by simp [program, callback])) rfl rfl ?_ rfl rfl ?_ ?_ ?_ ?_ rfl rfl
    sane.value ?_ ?_ rfl ?_
  · intro before
    rw [called] at before
    cases before
  · intro j
    by_cases current : index = j
    · subst current
      have now : Filled (callback inputs index future s).1 index = true := by
        simp [Filled, after, here]
      rw [now, empty, own]
      rfl
    · have still : Filled (callback inputs index future s).1 j = Filled s j := by
        simp [Filled, after, collected, current]
      rw [still]
      simp [arrival, current, callback, Account.owes]
  · intro j fut filled
    rw [after] at filled
    by_cases current : index = j
    · subst current
      obtain rfl : future = fut := by simpa [here] using filled
      exact ⟨listed, ready⟩
    · rw [List.getElem?_set_ne current, ← collected] at filled
      exact sane.slots j fut filled
  · rw [after, collected, List.length_set]
  · have more := List.countP_set (p := (·.isSome)) (l := s.finishedFutures) (a := some future) here
    rw [slot] at more
    rw [after, collected, more]
    simp [callback, Account.owes, single]
    omega
  · intro r member
    simp [callback] at member
  · have checked : s.count < total inputs := by
      rw [total, Nat.mod_eq_of_lt small]
      omega
    simp [callback, sane.asserts, checked]
  · rintro ⟨⟩

theorem increment_step (sane : Sane inputs s (.client .increment ::ₘ others))
    (small : inputs.length < 2 ^ 32) :
    Sane inputs (increment inputs s).1 (↑(increment inputs s).2 + others) := by
  have kept := own_le_balance (single .increment) s.heap .increment others
  rw [show (single .increment).own .increment = 1 from rfl] at kept
  have count := sane.count
  have called : s.called = true := by
    by_contra before
    obtain ⟨-, empty, -⟩ := sane.blank (by simpa using before)
    rw [empty, List.countP_nil] at count
    omega
  have length := sane.length called
  have most : s.collected.countP (·.isSome) ≤ s.collected.length := List.countP_le_length
  have next : (s.count + 1) % 2 ^ 32 = s.count + 1 := Nat.mod_eq_of_lt (by omega)
  have all : total inputs = inputs.length := Nat.mod_eq_of_lt small
  have before : decide (s.count = inputs.length) = false := decide_eq_false (by omega)
  have made : (increment inputs s).2 =
      if s.count + 1 = inputs.length then [.client .setValue] else [] := by
    simp only [increment, next, all]
  have now : (increment inputs s).1.count = s.count + 1 := next
  have setting (account : Account Name Closure) :
      weight account.owes ((increment inputs s).2 : Multiset WhenAllCall) =
        if s.count + 1 = inputs.length then account.own .setValue else 0 := by
    rw [made]
    split <;> simp [Account.owes]
  have sound : Fine (program inputs) s.heap (↑(increment inputs s).2 + others) := by
    refine sane.fine.internal fun call member => ?_
    rw [made] at member
    split at member
    · exact ⟨.setValue, List.mem_singleton.mp member, by simp [program]⟩
    · cases member
  refine sane.own sound rfl rfl ?_ ?_ ?_ ?_ sane.slots rfl ?_ ?_ ?_ sane.value ?_ sane.asserts rfl ?_
  · intro before
    rw [called] at before
    cases before
  · rw [setting]
    simp [single]
  · rw [setting]
    simp [single]
  · intro j
    rw [setting]
    simp [arrival, Filled, State.collected, increment]
  · rw [setting, now]
    simp [single, State.collected, increment]
  · rw [setting, now, before]
    by_cases last : s.count + 1 = inputs.length <;> simp [settling, last]
  · rw [setting, now, before]
    by_cases last : s.count + 1 = inputs.length <;>
      simp [single, last, increment, Nat.add_comm]
  · intro r member
    rw [made] at member
    split at member <;> simp at member
  · rintro ⟨⟩

theorem setValue_step (sane : Sane inputs s (.client .setValue ::ₘ others)) :
    Sane inputs (setValue s).1 (↑(setValue s).2 + others) := by
  have kept := own_le_balance (single .setValue) s.heap .setValue others
  rw [show (single .setValue).own .setValue = 1 from rfl] at kept
  have sets := sane.sets
  have value := sane.value
  have most := Bool.toNat_le (decide (s.count = inputs.length))
  have unset : s.value = none := by
    cases result : s.value with
    | none => rfl
    | some futures =>
      rw [result, Option.isSome_some, Bool.toNat_true] at value
      omega
  rw [unset, Option.isSome_none, Bool.toNat_false] at value
  have collected : (setValue s).1.collected = s.collected := by
    simp [setValue, State.collected, unset]
  refine sane.own (sane.fine.client ?_ ?_) rfl rfl ?_ rfl rfl ?_ ?_ ?_ ?_ ?_ ?_ ?_ ?_ sane.asserts
    rfl ?_
  · intro call member
    rw [List.mem_singleton.mp member]
    exact sound_finish _ _
  · intro call member
    rw [List.mem_singleton.mp member]
    rfl
  · intro before
    exact ⟨collected, rfl⟩
  · intro j
    rw [Filled, collected]
    simp [setValue, Account.owes, arrival, Filled]
  · intro j fut filled
    rw [collected] at filled
    exact sane.slots j fut filled
  · rw [collected]
  · rw [collected]
    simp [setValue, Account.owes, single]
  · rfl
  · rw [value, show (setValue s).1.sets = s.sets + 1 from rfl, value]
    rfl
  · simp [setValue, value]
  · intro r member
    cases List.mem_singleton.mp member
    rfl
  · rintro ⟨⟩

theorem canceler_step (sane : Sane inputs s (.client .canceler ::ₘ others)) :
    Sane inputs s (↑(requestCancel inputs s).2 + others) := by
  have quiet (account : Account Name Closure) :
      weight account.owes ((requestCancel inputs s).2 : Multiset WhenAllCall) = 0 := by
    refine Account.weight_eq_zero fun call member => ?_
    obtain ⟨fut, -, rfl⟩ := List.mem_map.mp member
    rfl
  refine sane.own (sane.fine.client ?_ ?_) rfl rfl ?_ (quiet _) (quiet _) ?_ sane.slots rfl ?_ ?_ ?_
    sane.value ?_ sane.asserts rfl ?_
  · intro call member
    obtain ⟨fut, -, rfl⟩ := List.mem_map.mp member
    trivial
  · intro call member
    obtain ⟨fut, -, rfl⟩ := List.mem_map.mp member
    simp [Expected]
  · exact fun _ => ⟨rfl, rfl⟩
  · intro j
    rw [quiet]
    simp [arrival]
  · rw [quiet]
    simp [single]
  · rw [quiet]
    simp [settling]
  · rw [quiet]
    simp [single]
  · intro r member
    obtain ⟨fut, -, same⟩ := List.mem_map.mp member
    cases same
  · exact fun _ fut member => List.mem_map.mpr ⟨fut, member, rfl⟩

theorem getFuture_step (sane : Sane inputs s (.client .getFuture ::ₘ others)) :
    Sane inputs { s with returned := true } (↑([] : List WhenAllCall) + others) := by
  have called : s.called = true := by
    have fetches := sane.fetches
    have kept := own_le_balance (single .getFuture) s.heap .getFuture others
    rw [show (single .getFuture).own .getFuture = 1 from rfl] at kept
    cases before : s.called with
    | true => rfl
    | false =>
      rw [before, Bool.toNat_false] at fetches
      omega
  refine sane.own (sane.fine.internal (by simp)) rfl rfl ?_ rfl rfl ?_ sane.slots rfl rfl rfl rfl
    sane.value (by simp) sane.asserts rfl (by simp)
  · intro before
    rw [called] at before
    cases before
  · intro j
    simp [arrival, Filled, State.collected]

/-! ## The call of `when_all` -/

theorem mem_registrations (member : call ∈ registrations inputs 0) :
    ∃ index fut, inputs[index]? = some fut ∧
      call = .thenRun (some fut.p) (.client (.callback index fut)) := by
  obtain ⟨⟨fut, index⟩, listed, rfl⟩ := List.mem_map.mp member
  exact ⟨index, fut, List.mk_mem_zipIdx_iff_getElem?.mp listed, rfl⟩

/-- One of them belongs to each input. -/
theorem weight_registrations (all rest : List Input) (first index : ℕ) :
    weight (arrival all index).owes (registrations rest first : Multiset WhenAllCall) =
      (decide (first ≤ index ∧ index < first + rest.length)).toNat := by
  induction rest generalizing first with
  | nil =>
    rw [registrations, List.zipIdx_nil, List.map_nil, weight_nil_coe, decide_eq_false (by simp)]
    rfl
  | cons fut rest ih =>
    have unfolded : registrations (fut :: rest) first =
        .thenRun (some fut.p) (.client (.callback first fut)) :: registrations rest (first + 1) := by
      simp [registrations]
    rw [unfolded, weight_cons_coe, ih]
    by_cases current : first = index
    · subst current
      simp [Account.owes, arrival]
    · have beyond : (first + 1 ≤ index ∧ index < first + 1 + rest.length) ↔
          (first ≤ index ∧ index < first + (rest.length + 1)) := by omega
      have silent : (arrival all index).owes
          (.thenRun (some fut.p) (.client (.callback first fut)) : WhenAllCall) = 0 := by
        simp [Account.owes, arrival, current]
      rw [silent, zero_add, List.length_cons, decide_eq_decide.mpr beyond]

theorem weight_registrations_quiet (account : Account Name Closure) (first : ℕ)
    (quiet : ∀ index fut, account.own (.callback index fut) = 0) :
    weight account.owes (registrations inputs first : Multiset WhenAllCall) = 0 := by
  refine Account.weight_eq_zero fun call member => ?_
  obtain ⟨⟨fut, index⟩, -, rfl⟩ := List.mem_map.mp member
  exact quiet index fut

theorem whenAll_eq (nonempty : inputs ≠ []) :
    whenAll inputs s = ({ s with
      called := true
      heap := (program inputs).makePromise s.heap
      finishedFutures := List.replicate inputs.length none },
      registrations inputs 0 ++ [.client .getFuture]) := if_neg nonempty

theorem whenAll_step (sane : Sane inputs s (.client .whenAll ::ₘ others)) (nonempty : inputs ≠ []) :
    Sane inputs (whenAll inputs s).1 (↑(whenAll inputs s).2 + others) := by
  have kept := own_le_balance (single .whenAll) s.heap .whenAll others
  rw [show (single .whenAll).own .whenAll = 1 from rfl] at kept
  have calls := sane.calls
  have before : s.called = false := by
    cases called : s.called with
    | false => rfl
    | true =>
      rw [called, Bool.toNat_true] at calls
      omega
  obtain ⟨blank, empty, unreturned⟩ := sane.blank before
  have count := sane.count
  have value := sane.value
  have settles := sane.settles
  have sets := sane.sets
  have fetches := sane.fetches
  rw [empty, List.countP_nil] at count
  rw [before, Bool.toNat_false] at calls fetches
  have different : decide (s.count = inputs.length) = false := by
    have positive := List.length_pos_of_ne_nil nonempty
    exact decide_eq_false (by omega)
  rw [different, Bool.toNat_false] at sets settles
  have unset : s.value = none := by
    cases result : s.value with
    | none => rfl
    | some futures =>
      rw [result, Option.isSome_some, Bool.toNat_true] at value
      omega
  rw [whenAll_eq nonempty]
  have moves (account : Account Name Closure) :
      account.balance ((program inputs).makePromise s.heap)
          (↑(registrations inputs 0 ++ [.client .getFuture] : List WhenAllCall) + others) + account.own .whenAll =
        account.balance s.heap (.client .whenAll ::ₘ others) +
          (weight account.owes (registrations inputs 0 : Multiset WhenAllCall) +
            account.own .getFuture) := by
    rw [balance_makePromise blank, balance_moved, ← Multiset.coe_add, weight_add, weight_cons_coe,
      weight_nil_coe, add_zero, Account.owes]
  have fine : Fine (program inputs) ((program inputs).makePromise s.heap)
      (↑(registrations inputs 0 ++ [.client .getFuture] : List WhenAllCall) + others) := by
    refine sane.fine.makePromise blank (fun call member => ?_) fun call member => ?_
    · rcases List.mem_append.mp member with registered | last
      · obtain ⟨index, fut, listed, rfl⟩ := mem_registrations registered
        exact Or.inr ⟨fut.p, rfl, index, fut, rfl, listed, rfl⟩
      · rw [List.mem_singleton.mp last]
        exact sound_internal (by simp [program])
    · rcases List.mem_append.mp member with registered | last
      · obtain ⟨index, fut, -, rfl⟩ := mem_registrations registered
        simp [Expected]
      · rw [List.mem_singleton.mp last]
        trivial
  exact {
    fine := fine
    calls := by
      have moves := moves (single .whenAll)
      rw [weight_registrations_quiet _ _ fun _ _ => rfl] at moves
      simp only [show (single .whenAll).own .whenAll = 1 from rfl,
        show (single .whenAll).own .getFuture = 0 from rfl] at moves
      simp only [Bool.toNat_true]
      omega
    fetches := by
      have moves := moves (single .getFuture)
      rw [weight_registrations_quiet _ _ fun _ _ => rfl] at moves
      simp only [show (single .getFuture).own .whenAll = 0 from rfl,
        show (single .getFuture).own .getFuture = 1 from rfl] at moves
      simp only [Bool.toNat_true]
      omega
    blank := fun after => by cases after
    arrives := fun index => by
      have moves := moves (arrival inputs index)
      have arrives := sane.arrives index
      have unfilled : Filled s index = false := by simp [Filled, empty]
      rw [weight_registrations] at moves
      simp only [arrival, Nat.zero_le, true_and, Nat.zero_add] at moves arrives ⊢
      have blank_slot : Filled { s with
          called := true
          heap := (program inputs).makePromise s.heap
          finishedFutures := List.replicate inputs.length none } index = false := by
        simp only [Filled, State.collected, unset, Option.getD_none, List.getElem?_replicate]
        split <;> rfl
      rw [blank_slot]
      rw [unfilled] at arrives
      omega
    slots := fun index fut filled => by
      simp only [State.collected, unset, Option.getD_none, List.getElem?_replicate] at filled
      split at filled <;> cases filled
    length := fun _ => by simp [State.collected, unset]
    count := by
      have moves := moves (single .increment)
      rw [weight_registrations_quiet _ _ fun _ _ => rfl] at moves
      simp only [show (single .increment).own .whenAll = 0 from rfl,
        show (single .increment).own .getFuture = 0 from rfl] at moves
      simp only [State.collected, unset, Option.getD_none, List.countP_replicate]
      simp only [Option.isSome_none, Bool.false_eq_true, if_false]
      omega
    settles := by
      have moves := moves settling
      rw [weight_registrations_quiet _ _ fun _ _ => rfl] at moves
      simp only [show settling.own .whenAll = 0 from rfl,
        show settling.own .getFuture = 0 from rfl] at moves
      simp only [different, Bool.toNat_false]
      omega
    sets := by
      have moves := moves (single .setValue)
      rw [weight_registrations_quiet _ _ fun _ _ => rfl] at moves
      simp only [show (single .setValue).own .whenAll = 0 from rfl,
        show (single .setValue).own .getFuture = 0 from rfl] at moves
      simp only [different, Bool.toNat_false]
      omega
    value := value
    results := fun r outcome => by
      rcases outcome with member | result
      · rcases Multiset.mem_add.mp member with made | other
        · rcases List.mem_append.mp (Multiset.mem_coe.mp made) with registered | last
          · obtain ⟨index, fut, -, same⟩ := mem_registrations registered
            cases same
          · cases List.mem_singleton.mp last
        · exact sane.results r (Or.inl (Multiset.mem_cons_of_mem other))
      · simp [makePromise_result] at result
    asserts := sane.asserts
    stack := fun _ => makePromise_stack
    token := fun _ _ => by rw [makePromise_result]
    canceled := fun asked => by
      rcases sane.canceled asked with member | all
      · have other := (Multiset.mem_cons.mp member).resolve_left (by simp)
        exact Or.inl (Multiset.mem_add.mpr (Or.inr other))
      · exact Or.inr fun fut member =>
          (all fut member).client.imp_left sane.fine.requested_makePromise }

/-! ## Runs -/

/-- **Every step keeps the invariant.** -/
theorem exec_step {thread : ℕ} (sane : Sane inputs s (call ::ₘ others)) (nonempty : inputs ≠ [])
    (small : inputs.length < 2 ^ 32) (ran : exec inputs thread choice s call = some (s', calls)) :
    Sane inputs s' (↑calls + others) := by
  cases call with
  | client k =>
    cases k with
    | user => exact user_step sane ran
    | whenAll =>
      have stepped := whenAll_step sane nonempty
      rwa [show whenAll inputs s = (s', calls) from Option.some.inj ran] at stepped
    | getFuture =>
      cases ran
      exact getFuture_step sane
    | callback index future =>
      cases ran
      exact callback_step sane small
    | increment =>
      have stepped := increment_step sane small
      rwa [show increment inputs s = (s', calls) from Option.some.inj ran] at stepped
    | setValue =>
      cases ran
      exact setValue_step sane
    | canceler =>
      cases ran
      exact canceler_step sane
  | finish p r =>
    simp only [exec] at ran
    split at ran
    · cases ran
    · cases ran
      exact library_step sane nonempty (by simp)
  | thenRun p f =>
    cases ran
    exact library_step sane nonempty (by simp)
  | requestCancel p =>
    cases ran
    exact library_step sane nonempty (by simp)
  | popCancelationCallback t =>
    cases ran
    exact library_step sane nonempty (by simp)
  | unwrapOuter fut1 sb =>
    cases ran
    exact library_step sane nonempty (by simp)
  | unwrapInner fut2 sb token =>
    cases ran
    exact library_step sane nonempty (by simp)

theorem pending_start (token : ℕ → ℕ) (threads : ℕ) : (start token threads).pending =
    .client .whenAll ::ₘ Multiset.replicate (threads + 2) (.client .user) :=
  pending_begin _ _ _ threads

theorem sane_start (nonempty : inputs ≠ []) (token : ℕ → ℕ) (threads : ℕ) :
    Sane inputs (start token threads).state (start token threads).pending := by
  have user : ∀ call ∈ Multiset.replicate (threads + 2) (Call.client Closure.user : WhenAllCall),
      call = .client .user := fun call member => Multiset.eq_of_mem_replicate member
  have balances (account : Account Name Closure) (quiet : account.own .user = 0) :
      account.balance (given token) (start token threads).pending = account.own .whenAll := by
    have none : account.owes (.client .user : WhenAllCall) = 0 := quiet
    rw [balance_given, pending_start, weight_begin account none]
    rfl
  have positive := List.length_pos_of_ne_nil nonempty
  have different : decide (0 = inputs.length) = false := decide_eq_false (by omega)
  have outcome : ∀ r, ¬ Outcome (given token) (start token threads).pending none r := by
    rintro r (member | result)
    · rw [pending_start] at member
      rcases Multiset.mem_cons.mp member with now | later
      · cases now
      · cases user _ later
    · cases result
  exact {
    fine := by
      rw [pending_start]
      refine fine_given token (fun call member => ?_) fun call member => ?_
      · rcases Multiset.mem_cons.mp member with rfl | other
        · exact sound_internal (by simp [program])
        · rw [user call other]
          exact sound_user
      · rcases Multiset.mem_cons.mp member with rfl | other
        · trivial
        · rw [user call other]
          trivial
    calls := by
      rw [show (start token threads).state.heap = given token from rfl, balances _ rfl]
      rfl
    fetches := by
      rw [show (start token threads).state.heap = given token from rfl, balances _ rfl]
      exact le_rfl
    blank := fun _ => ⟨rfl, rfl, rfl⟩
    arrives := fun index => by
      rw [show (start token threads).state.heap = given token from rfl, balances _ rfl]
      rfl
    slots := fun index fut filled => by simp [State.collected, start] at filled
    length := fun called => by cases called
    count := by
      rw [show (start token threads).state.heap = given token from rfl, balances _ rfl]
      rfl
    settles := by
      rw [show (start token threads).state.heap = given token from rfl, balances _ rfl]
      exact (congrArg Bool.toNat different).symm
    sets := by
      rw [show (start token threads).state.heap = given token from rfl, balances _ rfl]
      exact (congrArg Bool.toNat different).symm
    value := rfl
    results := fun r decided => absurd decided (outcome r)
    asserts := rfl
    stack := fun called => by cases called
    token := fun called => by cases called
    canceled := fun asked => by cases asked }

/-- The calls with which `when_all` gets from its inputs to its result. -/
def Collecting : WhenAllCall → Bool
  | .client .whenAll => true
  | .client (.callback _ _) => true
  | .client .increment => true
  | .client .setValue => true
  | .thenRun _ _ => true
  | .finish _ _ => true
  | _ => false

/-- The result is there exactly when all inputs are ready, it holds them in order and was
set once, and a request on the returned future has reached every input that is not ready. -/
structure CollectsAll (inputs : List Input) (config : Config State WhenAllCall) : Prop where
  ready : config.state.heap.Ready none → ∀ fut ∈ inputs, config.state.heap.Ready (some fut.p)
  complete : (∀ fut ∈ inputs, config.state.heap.Ready (some fut.p)) →
    config.state.heap.Ready none ∨ ∃ call ∈ config.pending, Collecting call = true
  value : config.state.heap.Ready none →
    (config.state.heap.states none).r = some (.value (.plain 0)) ∧
      config.state.value = some (inputs.map some) ∧ config.state.sets = 1
  once : config.state.sets ≤ 1
  asserts : config.state.assertFailed = false
  canceled : config.state.canceled = true → .client .canceler ∈ config.pending ∨
    ∀ fut ∈ inputs, Asked config.state.heap config.pending (some fut.p)

/-- The promise is set when every slot is filled. -/
theorem Sane.full (sane : Sane inputs s pending) (called : s.called = true)
    (all : s.count = inputs.length) :
    s.collected = inputs.map some ∧ ∀ fut ∈ inputs, s.heap.Ready (some fut.p) := by
  have length := sane.length called
  have most : s.collected.countP (·.isSome) ≤ s.collected.length := List.countP_le_length
  have count := sane.count
  have every : ∀ index (inside : index < inputs.length), ∃ fut,
      s.collected[index]?.join = some fut ∧ inputs[index]? = some fut ∧
        s.heap.Ready (some fut.p) := by
    intro index inside
    have filled : Filled s index = true := countP_filled (by omega) (by omega)
    obtain ⟨fut, slot⟩ := Option.isSome_iff_exists.mp filled
    exact ⟨fut, slot, sane.slots index fut slot⟩
  refine ⟨List.ext_getElem? fun index => ?_, fun fut member => ?_⟩
  · by_cases inside : index < inputs.length
    · obtain ⟨fut, slot, listed, -⟩ := every index inside
      rw [List.getElem?_map, listed, Option.map_some]
      rw [List.getElem?_eq_getElem (by omega)] at slot ⊢
      exact congrArg some slot
    · rw [List.getElem?_eq_none (by omega), List.getElem?_eq_none (by simpa using inside)]
  · obtain ⟨index, inside, rfl⟩ := List.getElem_of_mem member
    obtain ⟨fut, -, listed, ready⟩ := every index inside
    rw [List.getElem?_eq_getElem inside] at listed
    rwa [Option.some.inj listed]

/-- Only the last increment sets the promise. -/
theorem Sane.all_of_decided (sane : Sane inputs s pending) (nonempty : inputs ≠ [])
    (decided : 0 < settling.balance s.heap pending) :
    s.called = true ∧ s.count = inputs.length := by
  rw [sane.settles, toNat_pos, decide_eq_true_iff] at decided
  refine ⟨?_, decided⟩
  by_contra before
  obtain ⟨-, empty, -⟩ := sane.blank (by simpa using before)
  have count := sane.count
  have positive := List.length_pos_of_ne_nil nonempty
  rw [empty, List.countP_nil] at count
  omega

/-- What is on its way to a slot, when its input is ready, is a call. -/
theorem Sane.collecting (sane : Sane inputs s pending) (listed : inputs[index]? = some future)
    (ready : s.heap.Ready (some future.p)) (empty : Filled s index = false) :
    ∃ call ∈ pending, Collecting call = true := by
  obtain ⟨inside, -⟩ := List.getElem?_eq_some_iff.mp listed
  have arrives := sane.arrives index
  rw [empty, Bool.toNat_false, add_zero, decide_eq_true inside, Bool.toNat_true] at arrives
  obtain ⟨call, member, owes⟩ | ⟨p, home, f, waits, -⟩ | ⟨p, target, -⟩ :=
    Account.exists_of_balance_pos (arrives ▸ Nat.one_pos)
  · refine ⟨call, member, ?_⟩
    cases call with
    | client k => cases k <;> simp [Account.owes, arrival] at owes <;> rfl
    | finish => rfl
    | thenRun => rfl
    | requestCancel => cases owes
    | popCancelationCallback => cases owes
    | unwrapOuter => simp [Account.owes, arrival] at owes
    | unwrapInner => simp [Account.owes, arrival] at owes
  · simp only [arrival, listed, Option.elim_some, Finset.mem_singleton] at home
    rw [home, sane.fine.drained _ ready] at waits
    cases waits
  · cases target

/-- Once all slots are filled the promise is set, or about to be. -/
theorem Sane.settled (sane : Sane inputs s pending) (nonempty : inputs ≠ [])
    (full : ∀ index < inputs.length, Filled s index = true) :
    s.heap.Ready none ∨ ∃ call ∈ pending, Collecting call = true := by
  have called : s.called = true := by
    by_contra before
    obtain ⟨-, empty, -⟩ := sane.blank (by simpa using before)
    have first := full 0 (List.length_pos_of_ne_nil nonempty)
    simp [Filled, empty] at first
  have length := sane.length called
  have every : s.collected.countP (·.isSome) = s.collected.length := by
    refine List.countP_eq_length.mpr fun slot member => ?_
    obtain ⟨index, inside, rfl⟩ := List.getElem_of_mem member
    simpa [Filled, inside] using full index (by omega)
  have count := sane.count
  by_cases due : 0 < (single .increment).balance s.heap pending
  · obtain ⟨call, member, owes⟩ | ⟨p, home, -⟩ | ⟨p, target, -⟩ := Account.exists_of_balance_pos due
    · refine Or.inr ⟨call, member, ?_⟩
      cases call with
      | client k =>
        simp only [Account.owes, single, counting_own, toNat_pos, decide_eq_true_eq] at owes
        rw [owes]
        rfl
      | finish => rfl
      | thenRun => rfl
      | requestCancel => cases owes
      | popCancelationCallback => cases owes
      | unwrapOuter => simp [Account.owes, single] at owes
      | unwrapInner => simp [Account.owes, single] at owes
    · cases home
    · cases target
  · have settles := sane.settles
    rw [decide_eq_true (by omega), Bool.toNat_true] at settles
    obtain ⟨call, member, owes⟩ | ⟨p, home, -⟩ | ⟨p, target, ready⟩ :=
      Account.exists_of_balance_pos (settles ▸ Nat.one_pos)
    · refine Or.inr ⟨call, member, ?_⟩
      have expected := sane.fine.expected call member
      cases call with
      | client k =>
        simp only [Account.owes, settling, counting_own, toNat_pos, decide_eq_true_eq] at owes
        rw [owes]
        rfl
      | finish => rfl
      | thenRun => rfl
      | requestCancel => cases owes
      | popCancelationCallback => cases owes
      | unwrapOuter => exact expected.elim
      | unwrapInner => exact expected.elim
    · cases home
    · cases target
      exact Or.inl ready

/-- What sets the promise is done when it is ready. -/
theorem single_le_settling : (single .setValue).owes call ≤ settling.owes call :=
  owes_le_owes rfl (fun k => le_of_eq (by rfl)) call

theorem Sane.collects_of_reached {config : Config State WhenAllCall} (nonempty : inputs ≠ [])
    (sane : Sane inputs config.state config.pending) : CollectsAll inputs config where
  ready ready := by
    have decided : 1 ≤ settling.balance config.state.heap config.pending :=
      Account.ready_le_balance rfl ready
    obtain ⟨called, all⟩ := sane.all_of_decided nonempty decided
    exact (sane.full called all).2
  complete ready := by
    by_cases full : ∀ index < inputs.length, Filled config.state index = true
    · exact sane.settled nonempty full
    · push Not at full
      obtain ⟨index, inside, empty⟩ := full
      have listed := List.getElem?_eq_getElem inside
      exact Or.inr (sane.collecting listed (ready _ (List.getElem_mem inside)) (by simpa using empty))
  value ready := by
    have decided : 1 ≤ settling.balance config.state.heap config.pending :=
      Account.ready_le_balance rfl ready
    obtain ⟨called, all⟩ := sane.all_of_decided nonempty decided
    obtain ⟨r, result⟩ := Option.ne_none_iff_exists'.mp ready
    have settles := sane.settles
    have sets := sane.sets
    have value := sane.value
    have less : weight (single .setValue).owes config.pending ≤ weight settling.owes config.pending :=
      Multiset.sum_map_le_sum_map _ _ fun call _ => single_le_settling
    have delivered : settling.settled config.state.heap = 1 := Account.settled_of_ready rfl ready
    rw [decide_eq_true all, Bool.toNat_true] at settles sets
    rw [Account.balance, delivered] at settles
    have nowhere : ∑ p ∈ (single .setValue).homes,
        (single .setValue).waiting config.state.heap p = 0 := rfl
    have unsettled : (single .setValue).settled config.state.heap = 0 := rfl
    rw [Account.balance, nowhere, unsettled] at sets
    have once : config.state.sets = 1 := by omega
    have collected := (sane.full called all).1
    refine ⟨?_, ?_, once⟩
    · rw [result, sane.results r (Or.inr result)]
    · cases set : config.state.value with
      | none =>
        rw [set, Option.isSome_none, Bool.toNat_false] at value
        omega
      | some futures =>
        simp only [State.collected, set, Option.getD_some] at collected
        rw [collected]
  once := by
    have sets := sane.sets
    have most := Bool.toNat_le (decide (config.state.count = inputs.length))
    omega
  asserts := sane.asserts
  canceled := sane.canceled

/-- **`when_all` collects every input in order.**  The inputs are any list shorter than
2^32, in which shared states and tokens may occur more than once; other threads resolve
them before, during and after the call, and cancelation is requested at any time. -/
theorem collectsAll (nonempty : inputs ≠ []) (small : inputs.length < 2 ^ 32) (token : ℕ → ℕ)
    (threads : ℕ) (config : Config State WhenAllCall)
    (reached : Reachable (exec inputs) Anything (start token threads) config) :
    CollectsAll inputs config := by
  refine Sane.collects_of_reached nonempty ?_
  exact reached.invariant (fun s pending => Sane inputs s pending) (sane_start nonempty token threads)
    fun _ _ _ _ _ _ _ sane _ ran => exec_step sane nonempty small ran

/-- Two of three inputs are one shared future, which is ready at the call; the third is
resolved by another thread when cancelation is requested on what was returned. -/
theorem collectsAll_three : ∃ config : Config State WhenAllCall,
    CollectsAll [⟨4, none⟩, ⟨7, some 1⟩, ⟨4, none⟩] config ∧
      config.state.canceled = true ∧ config.state.heap.Ready none := by
  have ran : ((start id 1).run (exec [⟨4, none⟩, ⟨7, some 1⟩, ⟨4, none⟩])
      [(0, .resolve 4 (.value (.plain 3))), (0, .return), (0, .return), (0, .return), (0, .return),
        (0, .return), (0, .return), (0, .return), (0, .return), (0, .return), (0, .return),
        (0, .requestCancel none), (0, .return), (1, .resolve 7 (.exception .operationCanceled)),
        (1, .return), (1, .return), (1, .return), (1, .return)]).map (fun config =>
      decide (config.state.canceled = true ∧ config.state.heap.Ready none)) = some true := by decide
  obtain ⟨config, reached, holds⟩ := reachable_of_replay _ _ ran
  exact ⟨config, collectsAll (by decide) (by decide) id 1 config reached, of_decide_eq_true holds⟩

end Tconcurrent.WhenAll
