import Tconcurrent.WhenAnyWins

/-! What `when_any` reports.

A future that is ready when the loop comes to it has its callback called at once, and the
loop waits for it on the same agenda.  As long as nothing else becomes ready, the loop
therefore does not go past the lowest index that was ready at the call. -/
namespace Tconcurrent.WhenAny
open Interleaving FutureInputs

variable {inputs : List Input} {autoCancel : Bool} {s s' : State}
  {pending others : Multiset WhenAnyCall} {call : WhenAnyCall} {calls rest : List WhenAnyCall}
  {i j l : ℕ} {fut : Input} {choice : Choice}

theorem sane_of_reachable (nonempty : inputs ≠ []) {token : ℕ → ℕ} {threads : ℕ}
    {config : Config State WhenAnyCall}
    (reached : Reachable (exec inputs autoCancel) Anything (start token threads) config) :
    Sane inputs autoCancel config.state config.pending :=
  reached.invariant (fun s pending => Sane inputs autoCancel s pending) (sane_start token threads)
    fun _ _ _ _ _ _ _ sane _ ran => exec_step sane nonempty ran

/-- Nothing has become ready since the call, at which index `l` was the lowest. -/
def Quiet (s : State) (l : ℕ) : Prop :=
  s.triggered = false ∧ s.disturbed = false ∧ s.lowest = some l

/-- A call that has not gone past an index. -/
def Below (l : ℕ) : WhenAnyCall → Prop
  | .client (.register _) => True
  | .client (.index j) => j ≤ l
  | .client (.callback j) => j ≤ l
  | .thenRun _ f => Below l f
  | _ => True

/-- The callback of an index, called or about to be. -/
def Leads (l : ℕ) : WhenAnyCall → Prop
  | .client (.callback j) => j = l
  | .thenRun _ f => Leads l f
  | _ => False

/-- What may come before the callback of an index. -/
def Early (l : ℕ) : WhenAnyCall → Prop
  | .client (.register j) => j ≤ l
  | _ => True

/-- The loop goes past an index only behind its callback. -/
def Ordered (l : ℕ) : List WhenAnyCall → Prop
  | [] => True
  | call :: rest => Leads l call ∨ Early l call ∧ Ordered l rest

theorem Ordered.append (early : ∀ call ∈ calls, Early l call) (ordered : Ordered l rest) :
    Ordered l (calls ++ rest) := by
  induction calls with
  | nil => exact ordered
  | cons call calls ih =>
    refine Or.inr ⟨early call List.mem_cons_self, ih fun other member => ?_⟩
    exact early other (List.mem_cons_of_mem _ member)

/-- What is known of the state until the first callback, and of the callback itself. -/
structure Lowest (inputs : List Input) (s : State) : Prop where
  ready : ∀ l, Quiet s l → (∃ fut : Input, inputs[l]? = some fut ∧ s.heap.Ready (some fut.p)) ∧
    ∀ (j : ℕ) (fut : Input), inputs[j]? = some fut → s.heap.Ready (some fut.p) → l ≤ j
  first : ∀ index l, s.first = some index → s.lowest = some l → s.disturbed = false → index = l
  uncalled : s.called = false → s.lowest = none

/-- What is known of an agenda until then. -/
def Local (s : State) (agenda : List WhenAnyCall) : Prop :=
  ∀ l, Quiet s l → (∀ call ∈ agenda, Below l call) ∧ Ordered l agenda

/-- Calls that are neither of the loop nor callbacks. -/
def Plain : WhenAnyCall → Prop
  | .client (.register _) => False
  | .client (.index _) => False
  | .client (.callback _) => False
  | .thenRun _ f => Plain f
  | _ => True

theorem Plain.below (plain : Plain call) : Below l call := by
  induction call with
  | thenRun p f ih => exact ih plain
  | client k => cases k <;> first | exact plain.elim | trivial
  | _ => trivial

theorem Plain.early (plain : Plain call) : Early l call := by
  cases call with
  | client k => cases k <;> first | exact plain.elim | trivial
  | _ => trivial

theorem local_of_plain (plain : ∀ call ∈ calls, Plain call) : Local s calls := by
  intro l _
  refine ⟨fun call member => (plain call member).below, ?_⟩
  have ordered : Ordered l (calls ++ []) :=
    Ordered.append (fun call member => (plain call member).early) trivial
  rwa [List.append_nil] at ordered

/-- Steps that leave what was known as it was. -/
theorem Local.mono (known : Local s calls) (same : ∀ l, Quiet s' l → Quiet s l) : Local s' calls :=
  fun l quiet => known l (same l quiet)

/-- A step that makes plain calls. -/
theorem Local.plain (known : Local s (call :: rest)) (same : ∀ l, Quiet s' l → Quiet s l)
    (other : ∀ l, ¬ Leads l call) (plain : ∀ l, Quiet s' l → ∀ call ∈ calls, Plain call) :
    Local s' (calls ++ rest) := by
  intro l quiet
  obtain ⟨below, ordered⟩ := known l (same l quiet)
  refine ⟨fun call member => ?_, ?_⟩
  · rcases List.mem_append.mp member with made | later
    · exact (plain l quiet call made).below
    · exact below call (List.mem_cons_of_mem _ later)
  · have behind := (ordered.resolve_left (other l)).2
    exact behind.append fun call member => (plain l quiet call member).early

theorem local_of_triggered (triggered : s.triggered = true) : Local s calls := by
  intro l quiet
  rw [quiet.1] at triggered
  cases triggered

/-! ## Steps -/

theorem Lowest.called (lowest : Lowest inputs s) (quiet : Quiet s l) : s.called = true := by
  by_contra before
  have none := lowest.uncalled (by simpa using before)
  rw [quiet.2.2] at none
  cases none

/-- Steps after which no input is ready that was not before. -/
theorem Lowest.mono (lowest : Lowest inputs s) (called : s'.called = s.called)
    (triggered : s'.triggered = s.triggered) (same : s'.lowest = s.lowest)
    (first : s'.first = s.first) (disturbed : s'.disturbed = false → s.disturbed = false)
    (keeps : ∀ p, s.heap.Ready p → s'.heap.Ready p)
    (back : ∀ l, Quiet s' l → ∀ fut ∈ inputs, s'.heap.Ready (some fut.p) →
      s.heap.Ready (some fut.p)) : Lowest inputs s' where
  ready l quiet := by
    have before : Quiet s l := ⟨triggered ▸ quiet.1, disturbed quiet.2.1, same ▸ quiet.2.2⟩
    obtain ⟨⟨fut, listed, ready⟩, least⟩ := lowest.ready l before
    refine ⟨⟨fut, listed, keeps _ ready⟩, fun j fut listed ready => least j fut listed ?_⟩
    exact back l quiet fut (List.mem_of_getElem? listed) ready
  first index l ran least quiet := lowest.first index l (first ▸ ran) (same ▸ least) (disturbed quiet)
  uncalled before := same.trans (lowest.uncalled (called ▸ before))

/-- Before the call there is neither a loop nor a callback. -/
theorem plain_of_owes (uncalled : (callbacks inputs).owes call = 0)
    (outside : looping.owes call ≤ calling.owes call) : Plain call := by
  induction call with
  | thenRun p f ih => exact ih uncalled outside
  | client k =>
    cases k with
    | register i => exact absurd outside (by simp [Account.owes, looping, calling])
    | index i => exact absurd outside (by simp [Account.owes, looping, calling])
    | callback i => exact absurd uncalled (by simp [Account.owes, callbacks])
    | _ => trivial
  | _ => trivial

theorem Sane.plain (sane : Sane inputs autoCancel s pending) (before : s.called = false)
    (member : call ∈ pending) : Plain call := by
  obtain ⟨others, rfl⟩ := Multiset.exists_cons_of_mem member
  have calls := sane.calls
  have loop := sane.loop
  rw [before, Bool.toNat_false, add_zero, calling, balance_counting, weight_cons] at calls
  rw [sane.unreturned before, Bool.toNat_false, add_zero, looping, balance_counting,
    weight_cons] at loop
  have less : weight calling.owes others ≤ weight looping.owes others :=
    Multiset.sum_map_le_sum_map _ _ fun call _ =>
      owes_le_owes rfl (fun k => by cases k <;> simp [calling, looping]) call
  have owed : (callbacks inputs).owes call ≤
      (callbacks inputs).balance s.heap (call ::ₘ others) := Account.owes_le_balance member
  rw [sane.uncalled before] at owed
  refine plain_of_owes (Nat.le_zero.mp owed) ?_
  change calling.owes call + weight calling.owes others = 1 at calls
  change looping.owes call + weight looping.owes others = 1 at loop
  omega

theorem mem_pending {config : Config State WhenAnyCall} {thread : ℕ} {agenda : List WhenAnyCall}
    (current : config.threads[thread]? = some agenda) (member : call ∈ agenda) :
    call ∈ config.pending :=
  Multiset.mem_coe.mpr (List.mem_flatten.mpr ⟨agenda, List.mem_of_getElem? current, member⟩)

theorem user_order (sane : Sane inputs autoCancel s (.client .user ::ₘ others))
    (ran : user inputs s choice = some (s', calls)) (lowest : Lowest inputs s)
    (known : Local s (.client .user :: rest)) :
    Lowest inputs s' ∧ Local s' (calls ++ rest) ∧ ∀ l, Quiet s' l → Quiet s l := by
  obtain ⟨⟨heap', made⟩, stepped, same⟩ := Option.map_eq_some_iff.mp ran
  cases same
  have steps := sane.fine.others_step stepped
  have earlier {disturbed : Bool} (quiet : (s.disturbed || disturbed) = false) :
      s.disturbed = false ∧ disturbed = false := Bool.or_eq_false_iff.mp quiet
  -- Whoever resolves an input before the first callback disturbs.
  have resolves {fut : Input} {p : ℕ} {r : Result Name Name} (resolve : choice = .resolve p r)
      (member : fut ∈ inputs) (same : fut.p = p) (called : s.called = true)
      (triggered : s.triggered = false)
      (quiet : (s.disturbed || (s.called && !s.triggered && Choice.Resolves inputs choice)) = false) :
      False := by
    have resolved : Choice.Resolves inputs choice = true := by
      rw [resolve]
      exact List.any_eq_true.mpr ⟨fut, member, decide_eq_true same⟩
    rw [called, triggered, resolved] at quiet
    simp at quiet
  have back : ∀ l, Quiet { s with
      heap := heap'
      canceled := s.canceled ||
        decide (choice = .requestCancel none ∧ s.called = true ∧ ¬ s.heap.Ready none)
      asked := s.asked || Choice.Requests choice
      disturbed := s.disturbed || (s.called && !s.triggered && Choice.Resolves inputs choice) } l →
      Quiet s l := fun l quiet => ⟨quiet.1, (earlier quiet.2.1).1, quiet.2.2⟩
  refine ⟨?_, known.plain back (fun l leads => leads) fun l quiet call member => ?_, back⟩
  · refine lowest.mono rfl rfl rfl rfl (fun quiet => (earlier quiet).1) steps.ready ?_
    intro l quiet fut member ready
    rcases ready_of_others stepped ready with before | ⟨p, r, same, resolve⟩
    · exact before
    · exact (resolves resolve member (Option.some.inj same) (lowest.called (back l quiet)) quiet.1
        quiet.2.1).elim
  · rcases sane.fine.others_made stepped member with known | ⟨p, r, resolve, registered⟩
    · rcases known with rfl | rfl <;> trivial
    · have kept := sane.fine.sound.registered _ call registered
      obtain ⟨k, rfl⟩ := client_of_registered kept
      rcases kept with rfl | ⟨q, same, i, fut, rfl, listed, rfl⟩
      · trivial
      · cases same
        exact (resolves resolve (List.mem_of_getElem? listed) rfl (lowest.called (back l quiet))
          quiet.1 quiet.2.1).elim

theorem whenAny_order (sane : Sane inputs autoCancel s (.client .whenAny ::ₘ others))
    (nonempty : inputs ≠ []) (before : s.called = false) :
    Lowest inputs (whenAny inputs s).1 := by
  have fresh : s.first = none := by
    have first := sane.first
    rw [(sane.blank before).2] at first
    simpa using first
  rw [show whenAny inputs s = ({ s with
      called := true
      heap := (program inputs).makePromise s.heap
      futures := inputs
      lowest := inputs.findIdx? fun fut => decide (s.heap.Ready (some fut.p)) },
    [.client (.register 0)]) from if_neg nonempty]
  have state (p : ℕ) : ((program inputs).makePromise s.heap).Ready (some p) ↔
      s.heap.Ready (some p) := by
    rw [Heap.Ready, Heap.Ready, makePromise_states _ (by simp)]
  constructor
  · intro l quiet
    obtain ⟨inside, ready, least⟩ := List.findIdx?_eq_some_iff_getElem.mp quiet.2.2
    refine ⟨⟨inputs[l], List.getElem?_eq_getElem inside, ?_⟩, fun j fut listed ready => ?_⟩
    · exact (state _).mpr (of_decide_eq_true ready)
    · by_contra earlier
      obtain ⟨bound, rfl⟩ := List.getElem?_eq_some_iff.mp listed
      exact least j (by omega) (decide_eq_true ((state _).mp ready))
  · intro index l first
    rw [fresh] at first
    cases first
  · intro called
    cases called

theorem register_quiet (lowest : Lowest inputs s) :
    Lowest inputs (register i s).1 ∧ ∀ l, Quiet (register i s).1 l → Quiet s l := by
  unfold register
  split
  · exact ⟨⟨lowest.ready, lowest.first, lowest.uncalled⟩, fun l quiet => quiet⟩
  · exact ⟨lowest, fun l quiet => quiet⟩

theorem register_order (known : Local s (.client (.register i) :: rest)) :
    Local s ((register i s).2 ++ rest) := by
  intro l quiet
  obtain ⟨below, ordered⟩ := known l quiet
  obtain ⟨early, behind⟩ := ordered.resolve_left id
  have later : ∀ call ∈ rest, Below l call := fun call member =>
    below call (List.mem_cons_of_mem _ member)
  have only : ∀ call ∈ (register i s).2, Below l call ∧ Early l call := by
    intro call member
    simp only [register] at member
    split at member
    · rw [List.mem_singleton.mp member]
      exact ⟨early, trivial⟩
    · rw [List.mem_singleton.mp member]
      exact ⟨trivial, trivial⟩
  exact ⟨fun call member => (List.mem_append.mp member).elim (fun made => (only call made).1)
    (later call), behind.append fun call member => (only call member).2⟩

theorem index_order (known : Local s (.client (.index i) :: rest)) :
    Local s ([.thenRun (some fut.p) (.client (.callback i)),
      .client (.register ((i + 1) % 2 ^ 32))] ++ rest) := by
  intro l quiet
  obtain ⟨below, ordered⟩ := known l quiet
  have here : i ≤ l := below _ List.mem_cons_self
  obtain ⟨-, behind⟩ := ordered.resolve_left id
  refine ⟨fun call member => ?_, ?_⟩
  · rcases List.mem_append.mp member with made | later
    · simp only [List.mem_cons, List.not_mem_nil, or_false] at made
      rcases made with rfl | rfl
      · exact here
      · trivial
    · exact below call (List.mem_cons_of_mem _ later)
  · by_cases last : i = l
    · exact Or.inl last
    · have next : (i + 1) % 2 ^ 32 ≤ l := (Nat.mod_le _ _).trans (by omega)
      exact Or.inr ⟨trivial, Or.inr ⟨next, behind⟩⟩

theorem callback_order (sane : Sane inputs autoCancel s (.client (.callback i) ::ₘ others))
    (lowest : Lowest inputs s) (known : Local s (.client (.callback i) :: rest)) :
    Lowest inputs (callback autoCancel i s).1 ∧ (callback autoCancel i s).1.triggered = true := by
  obtain ⟨p, ⟨index, fut, same, listed, rfl⟩, ready⟩ :=
    sane.fine.ready (Multiset.mem_cons_self _ _) (fun own => own i rfl) (by simp [program])
  cases same
  simp only [callback]
  by_cases triggered : s.triggered = true
  · rw [if_pos triggered]
    exact ⟨lowest, triggered⟩
  · rw [if_neg triggered]
    refine ⟨⟨?_, ?_, lowest.uncalled⟩, rfl⟩
    · rintro l ⟨untriggered, -⟩
      cases untriggered
    · intro index l first least quiet
      cases first
      have before : Quiet s l := ⟨by simpa using triggered, quiet, least⟩
      have most : i ≤ l := (known l before).1 _ List.mem_cons_self
      exact le_antisymm most ((lowest.ready l before).2 i fut listed ready)

theorem library_order (sane : Sane inputs autoCancel s (call ::ₘ others))
    (library : ∀ k, call ≠ .client k) (lowest : Lowest inputs s) (known : Local s (call :: rest)) :
    Lowest inputs { s with heap := (s.heap.exec call).1 } ∧
      Local { s with heap := (s.heap.exec call).1 } ((s.heap.exec call).2 ++ rest) := by
  have expected := sane.fine.expected call (Multiset.mem_cons_self _ _)
  have respects := sane.fine.calls call (Multiset.mem_cons_self _ _)
  have steps := sane.fine.library library (by
    rintro r rfl
    exact sane.unready (Multiset.mem_cons_self _ _))
  constructor
  · refine lowest.mono rfl rfl rfl rfl id steps.ready fun l quiet fut member ready => ?_
    rcases ready_of_exec call ready with before | ⟨r, same⟩
    · exact before
    · rw [same] at expected
      cases expected
  · have plain : ∀ simple : Simple call, (∀ p f, call ≠ .thenRun p f) →
        ∀ made ∈ (s.heap.exec call).2, Plain made := by
      intro simple other made member
      rcases sane.fine.made call simple member with (rfl | rfl) | ⟨p, r, same, waits⟩ | ⟨p, same⟩
      · trivial
      · trivial
      · rw [same] at expected
        obtain rfl : p = none := expected
        have kept := sane.fine.sound.registered _ made waits
        obtain ⟨k, rfl⟩ := client_of_registered kept
        rcases kept with rfl | ⟨q, impossible, -⟩
        · trivial
        · cases impossible
      · exact absurd same (other p made)
    cases call with
    | client k => exact absurd rfl (library k)
    | finish p r =>
      exact known.plain (fun l quiet => quiet) (fun l leads => leads)
        fun l quiet => plain trivial (by simp)
    | requestCancel p =>
      exact known.plain (fun l quiet => quiet) (fun l leads => leads)
        fun l quiet => plain trivial (by simp)
    | popCancelationCallback => exact expected.elim
    | unwrapOuter => exact expected.elim
    | unwrapInner => exact expected.elim
    | thenRun p f =>
      intro l quiet
      obtain ⟨below, ordered⟩ := known l quiet
      have first : Below l (.thenRun p f) := below _ List.mem_cons_self
      have here : Below l f := first
      have later : ∀ call ∈ rest, Below l call := fun call member =>
        below call (List.mem_cons_of_mem _ member)
      have registered : Registered (program inputs).wiring s.heap p f := respects
      obtain ⟨k, rfl⟩ := client_of_registered registered
      have callback : k = .user ∨ ∃ i fut, k = .callback i ∧ inputs[i]? = some fut ∧
          p = some fut.p := by
        rcases registered with rfl | ⟨q, rfl, i, fut, rfl, listed, rfl⟩
        · exact Or.inl rfl
        · exact Or.inr ⟨i, fut, rfl, listed, rfl⟩
      simp only [Heap.exec, Heap.thenRun]
      split
      · rename_i unresolved
        refine ⟨later, ?_⟩
        rcases ordered with leads | ⟨-, behind⟩
        · rcases callback with rfl | ⟨i, fut, rfl, listed, rfl⟩
          · exact leads.elim
          · obtain rfl : i = l := leads
            obtain ⟨⟨other, given, ready⟩, -⟩ := lowest.ready i quiet
            rw [Option.some.inj (given.symm.trans listed)] at ready
            exact absurd ready (Heap.not_ready.mpr unresolved)
        · exact behind
      · refine ⟨fun call member => ?_, ?_⟩
        · rcases List.mem_append.mp member with made | after
          · rw [List.mem_singleton.mp made]
            exact here
          · exact later call after
        · rcases ordered with leads | ⟨-, behind⟩
          · exact Or.inl leads
          · refine Or.inr ⟨?_, behind⟩
            rcases callback with rfl | ⟨i, fut, rfl, -, -⟩ <;> trivial

/-- `whenAny` begins to register the callbacks, and nothing has been posted before. -/
theorem whenAny_local
    (plain : ∀ call ∈ ((.client .whenAny :: rest) : List WhenAnyCall), Plain call) :
    Local s' ([.client (.register 0)] ++ rest) := by
  intro l _
  refine ⟨fun call member => ?_, Or.inr ⟨Nat.zero_le l, ?_⟩⟩
  · rcases List.mem_cons.mp member with rfl | later
    · trivial
    · exact (plain call (List.mem_cons_of_mem _ later)).below
  · have ordered : Ordered l (rest ++ []) := Ordered.append
      (fun call member => (plain call (List.mem_cons_of_mem _ member)).early) trivial
    rwa [List.append_nil] at ordered

theorem cancelOthers_order {i j : ℕ} (triggered : s.triggered = true) (lowest : Lowest inputs s)
    (ran : cancelOthers i j s = (s', calls)) : Lowest inputs s' ∧ s'.triggered = true := by
  have same : s' = { s with heap := s'.heap } := by
    simp only [cancelOthers] at ran
    split at ran
    · cases ran
      rfl
    · split at ran <;> cases ran <;> rfl
  have after : s'.triggered = true := by
    rw [same]
    exact triggered
  refine ⟨⟨fun l quiet => ?_, ?_, ?_⟩, after⟩
  · rw [quiet.1] at after
    cases after
  · rw [same]
    exact lowest.first
  · rw [same]
    exact lowest.uncalled

/-- **Every step keeps the order.** -/
theorem order_step {config : Config State WhenAnyCall} {thread : ℕ} (nonempty : inputs ≠ [])
    (sane : Sane inputs autoCancel config.state config.pending)
    (current : config.threads[thread]? = some (call :: rest))
    (ran : exec inputs autoCancel thread choice config.state call = some (s', calls))
    (lowest : Lowest inputs config.state)
    (known : ∀ agenda ∈ config.threads, Local config.state agenda) :
    Lowest inputs s' ∧ Local s' (calls ++ rest) ∧ ∀ other ≠ thread, ∀ agenda,
      config.threads[other]? = some agenda → Local s' agenda := by
  have own := known _ (List.mem_of_getElem? current)
  obtain ⟨others, pending⟩ := Multiset.exists_cons_of_mem (mem_pending current List.mem_cons_self)
  have all := sane
  rw [pending] at sane
  have elsewhere (same : ∀ l, Quiet s' l → Quiet config.state l) : ∀ other ≠ thread, ∀ agenda,
      config.threads[other]? = some agenda → Local s' agenda :=
    fun other _ agenda listed => (known agenda (List.mem_of_getElem? listed)).mono same
  have library (library : ∀ k, call ≠ .client k) : Lowest inputs
      { config.state with heap := (config.state.heap.exec call).1 } ∧
      Local { config.state with heap := (config.state.heap.exec call).1 }
        ((config.state.heap.exec call).2 ++ rest) := library_order sane library lowest own
  have won (triggered : config.state.triggered = true) (same : s'.triggered = true) :
      Local s' (calls ++ rest) ∧ ∀ other ≠ thread, ∀ agenda,
        config.threads[other]? = some agenda → Local s' agenda :=
    ⟨local_of_triggered same, fun _ _ _ _ => local_of_triggered same⟩
  cases call with
  | client k =>
    cases k with
    | user =>
      obtain ⟨lowest, own, same⟩ := user_order sane ran lowest own
      exact ⟨lowest, own, elsewhere same⟩
    | whenAny =>
      have before : config.state.called = false := by
        have calls := sane.calls
        have kept := own_le_balance calling config.state.heap .whenAny others
        rw [show calling.own .whenAny = 1 from rfl] at kept
        cases called : config.state.called with
        | false => rfl
        | true =>
          rw [called, Bool.toNat_true] at calls
          omega
      have plain {other : ℕ} {agenda : List WhenAnyCall}
          (listed : config.threads[other]? = some agenda) : ∀ call ∈ agenda, Plain call :=
        fun call member => all.plain before (mem_pending listed member)
      have made := whenAny_order sane nonempty before
      rw [show whenAny inputs config.state = (s', calls) from Option.some.inj ran] at made
      refine ⟨made, ?_, fun other _ agenda listed => local_of_plain (plain listed)⟩
      obtain rfl : calls = [.client (.register 0)] := by
        have same := Option.some.inj ran
        simp only [whenAny, if_neg nonempty, Prod.mk.injEq] at same
        exact same.2.symm
      exact whenAny_local (plain current)
    | register i =>
      obtain ⟨after, same⟩ := @register_quiet inputs config.state i lowest
      have made := (register_order own).mono same
      rw [show register i config.state = (s', calls) from Option.some.inj ran] at after same made
      exact ⟨after, made, elsewhere same⟩
    | index i =>
      obtain ⟨fut, -, same⟩ := Option.map_eq_some_iff.mp ran
      cases same
      exact ⟨⟨lowest.ready, lowest.first, lowest.uncalled⟩, index_order own,
        elsewhere fun l quiet => quiet⟩
    | getFuture =>
      cases ran
      exact ⟨⟨lowest.ready, lowest.first, lowest.uncalled⟩,
        own.plain (fun l quiet => quiet) (fun l leads => leads) (fun l quiet => by simp),
        elsewhere fun l quiet => quiet⟩
    | callback i =>
      have made := callback_order sane lowest own
      rw [show callback autoCancel i config.state = (s', calls) from Option.some.inj ran] at made
      exact ⟨made.1, local_of_triggered made.2, fun _ _ _ _ => local_of_triggered made.2⟩
    | cancelOthers i j =>
      have triggered : config.state.triggered = true := by
        rw [← sane.first, (sane.canceling i j (Multiset.mem_cons_self _ _)).1]
        rfl
      obtain ⟨lowest', after⟩ := cancelOthers_order triggered lowest (Option.some.inj ran)
      exact ⟨lowest', won triggered after⟩
    | setValue i =>
      have triggered : config.state.triggered = true := by
        rw [← sane.first, (sane.setting i (Multiset.mem_cons_self _ _)).1]
        rfl
      cases ran
      exact ⟨⟨lowest.ready, lowest.first, lowest.uncalled⟩, won triggered triggered⟩
    | canceler =>
      cases ran
      refine ⟨lowest, own.plain (fun l quiet => quiet) (fun l leads => leads)
        (fun l quiet call member => ?_), elsewhere fun l quiet => quiet⟩
      obtain ⟨fut, -, rfl⟩ := List.mem_map.mp member
      trivial
  | finish p r =>
    simp only [exec] at ran
    split at ran
    · cases ran
    · cases ran
      exact ⟨(library (by simp)).1, (library (by simp)).2, elsewhere fun l quiet => quiet⟩
  | thenRun p f =>
    cases ran
    exact ⟨(library (by simp)).1, (library (by simp)).2, elsewhere fun l quiet => quiet⟩
  | requestCancel p =>
    cases ran
    exact ⟨(library (by simp)).1, (library (by simp)).2, elsewhere fun l quiet => quiet⟩
  | popCancelationCallback t =>
    cases ran
    exact ⟨(library (by simp)).1, (library (by simp)).2, elsewhere fun l quiet => quiet⟩
  | unwrapOuter fut1 sb =>
    cases ran
    exact ⟨(library (by simp)).1, (library (by simp)).2, elsewhere fun l quiet => quiet⟩
  | unwrapInner fut2 sb token =>
    cases ran
    exact ⟨(library (by simp)).1, (library (by simp)).2, elsewhere fun l quiet => quiet⟩

theorem lowest_of_reachable (nonempty : inputs ≠ []) {token : ℕ → ℕ} {threads : ℕ}
    {config : Config State WhenAnyCall}
    (reached : Reachable (exec inputs autoCancel) Anything (start token threads) config) :
    Lowest inputs config.state := by
  have initial : Lowest inputs (start token threads).state := by
    constructor
    · rintro l ⟨-, -, least⟩
      cases least
    · intro index l first
      cases first
    · intro
      rfl
  have agendas : ∀ agenda ∈ (start token threads).threads, Local (start token threads).state agenda := by
    rintro agenda - l ⟨-, -, least⟩
    cases least
  refine (reached.invariant_agendas (Lowest inputs) Local initial agendas ?_).1
  intro config thread choice call rest state' calls earlier current _ ran lowest known
  exact order_step nonempty (sane_of_reachable nonempty earlier) current ran lowest known

/-! ## The loop and the vector -/

/-- The loop between its comparison and its indexing. -/
def indexes : WhenAnyCall → ℕ
  | .client (.index _) => 1
  | _ => 0

/-- Between the two the vector holds the inputs, unless it was moved out meanwhile. -/
structure Compared (inputs : List Input) (s : State) (pending : Multiset WhenAnyCall) : Prop where
  once : weight indexes pending = s.comparing.toNat
  whole : s.comparing = true → s.raced = false → s.futures = inputs
  inside : ∀ i, .client (.index i) ∈ pending → i < inputs.length

theorem weight_indexes (none : ∀ i, .client (.index i) ∉ calls) :
    weight indexes (calls : Multiset WhenAnyCall) = 0 := by
  refine Multiset.sum_eq_zero fun count member => ?_
  obtain ⟨call, made, rfl⟩ := Multiset.mem_map.mp member
  cases call with
  | client k =>
    cases k with
    | index i => exact absurd (Multiset.mem_coe.mp made) (none i)
    | _ => rfl
  | _ => rfl

theorem indexes_eq_zero (other : ∀ i, call ≠ .client (.index i)) : indexes call = 0 := by
  cases call with
  | client k =>
    cases k with
    | index i => exact absurd rfl (other i)
    | _ => rfl
  | _ => rfl

/-- A step that is not one of the loop's. -/
theorem Compared.other (compared : Compared inputs s (call ::ₘ others))
    (other : ∀ i, call ≠ .client (.index i)) (none : ∀ i, .client (.index i) ∉ calls)
    (comparing : s'.comparing = s.comparing)
    (whole : s.comparing = true → s'.raced = false → s'.futures = inputs) :
    Compared inputs s' (↑calls + others) where
  once := by
    have before := compared.once
    rw [weight_cons, indexes_eq_zero other, zero_add] at before
    rw [weight_add, weight_indexes none, zero_add, before, comparing]
  whole := by
    rw [comparing]
    exact whole
  inside i member := by
    rcases Multiset.mem_add.mp member with made | later
    · exact absurd (Multiset.mem_coe.mp made) (none i)
    · exact compared.inside i (Multiset.mem_cons_of_mem later)

/-- What is registered on the inputs are callbacks, and closures of other code. -/
theorem Sane.foreign_thens (sane : Sane inputs autoCancel s pending) {p : Name}
    (waits : .client (.index i) ∈ (s.heap.states p).thens) : False := by
  rcases sane.fine.sound.registered _ _ waits with user | ⟨q, -, index, fut, callback, -⟩
  · cases user
  · cases callback

theorem Sane.no_index (sane : Sane inputs autoCancel s pending)
    (respects : Sound (program inputs).wiring s.heap call) :
    .client (.index i) ∉ (s.heap.exec call).2 := by
  intro member
  rcases exec_clients sane.fine.sound respects member with
    canceler | ⟨p, user | ⟨q, -, index, fut, callback, -⟩⟩
  · rcases canceler with same | same <;> cases same
  · cases user
  · cases callback

theorem user_compared (sane : Sane inputs autoCancel s (.client .user ::ₘ others))
    (compared : Compared inputs s (.client .user ::ₘ others))
    (ran : user inputs s choice = some (s', calls)) : Compared inputs s' (↑calls + others) := by
  obtain ⟨⟨heap', made⟩, stepped, same⟩ := Option.map_eq_some_iff.mp ran
  cases same
  refine compared.other (by simp) (fun i member => ?_) rfl compared.whole
  rcases sane.fine.others_made stepped member with known | ⟨p, r, -, waits⟩
  · rcases known with same | same <;> cases same
  · exact sane.foreign_thens waits

/-- The loop compares its index with the size of the vector. -/
theorem register_compared (sane : Sane inputs autoCancel s (.client (.register i) ::ₘ others))
    (compared : Compared inputs s (.client (.register i) ::ₘ others)) :
    Compared inputs (register i s).1 (↑(register i s).2 + others) := by
  unfold register
  split
  · rename_i inside
    have futures : s.futures = inputs := by
      rw [sane.futures (sane.called_of_loop rfl rfl)] at inside ⊢
      split at inside
      · exact absurd inside (Nat.not_lt_zero i)
      · rename_i unset
        rw [if_neg unset]
    rw [futures] at inside
    have none : weight indexes others = 0 := by
      have less : weight indexes others ≤ weight looping.owes others :=
        Multiset.sum_map_le_sum_map _ _ fun call _ => by
          cases call with
          | client k => cases k <;> simp [indexes, looping, Account.owes]
          | _ => exact Nat.zero_le _
      have loop := sane.loop
      rw [looping, balance_counting, weight_cons] at loop
      change 1 + weight looping.owes others + _ = 1 at loop
      omega
    constructor
    · rw [weight_add, weight_cons_coe, weight_nil_coe, none]
      rfl
    · exact fun _ _ => futures
    · intro j member
      rcases Multiset.mem_add.mp member with made | later
      · cases List.mem_singleton.mp (Multiset.mem_coe.mp made)
        exact inside
      · exact compared.inside j (Multiset.mem_cons_of_mem later)
  · exact compared.other (by simp) (by simp) rfl compared.whole

theorem index_compared (compared : Compared inputs s (.client (.index i) ::ₘ others))
    (ran : index i s = some (s', calls)) : Compared inputs s' (↑calls + others) := by
  obtain ⟨fut, -, same⟩ := Option.map_eq_some_iff.mp ran
  cases same
  have once := compared.once
  have most := Bool.toNat_le s.comparing
  rw [weight_cons, show indexes (.client (.index i)) = 1 from rfl] at once
  constructor
  · rw [weight_add, weight_indexes (by simp)]
    simp only [Bool.toNat_false]
    omega
  · intro comparing
    cases comparing
  · intro j member
    rcases Multiset.mem_add.mp member with made | later
    · simp at made
    · exact compared.inside j (Multiset.mem_cons_of_mem later)

theorem Compared.indexed (compared : Compared inputs s pending)
    (member : .client (.index i) ∈ pending) (raced : s.raced = false) :
    s.futures = inputs ∧ i < inputs.length := by
  refine ⟨compared.whole ?_ raced, compared.inside i member⟩
  have counts : 1 ≤ weight indexes pending := measure_le_weight indexes member
  rw [compared.once] at counts
  cases comparing : s.comparing with
  | true => rfl
  | false =>
    rw [comparing] at counts
    cases counts

/-- **Every step keeps it.** -/
theorem compared_step {thread : ℕ} (sane : Sane inputs autoCancel s (call ::ₘ others))
    (ran : exec inputs autoCancel thread choice s call = some (s', calls))
    (compared : Compared inputs s (call ::ₘ others)) : Compared inputs s' (↑calls + others) := by
  have library (library : ∀ k, call ≠ .client k) :
      Compared inputs { s with heap := (s.heap.exec call).1 } (↑(s.heap.exec call).2 + others) :=
    compared.other (fun i => library _)
      (fun i => sane.no_index (sane.fine.calls call (Multiset.mem_cons_self _ _))) rfl
      compared.whole
  cases call with
  | client k =>
    cases k with
    | user => exact user_compared sane compared ran
    | whenAny =>
      have stepped := Option.some.inj ran
      simp only [whenAny] at stepped
      split at stepped <;> cases stepped
      · exact compared.other (by simp) (by simp) rfl compared.whole
      · exact compared.other (by simp) (by simp) rfl fun _ _ => rfl
    | register i =>
      have stepped := register_compared sane compared
      rwa [show register i s = (s', calls) from Option.some.inj ran] at stepped
    | index i => exact index_compared compared ran
    | getFuture =>
      cases ran
      exact compared.other (by simp) (by simp) rfl compared.whole
    | callback i =>
      have stepped := Option.some.inj ran
      simp only [callback] at stepped
      split at stepped <;> cases stepped
      · exact compared.other (by simp) (by simp) rfl compared.whole
      · exact compared.other (by simp) (by split <;> simp) rfl compared.whole
    | cancelOthers i j =>
      have stepped := Option.some.inj ran
      simp only [cancelOthers] at stepped
      split at stepped
      · cases stepped
        exact compared.other (by simp) (by simp) rfl compared.whole
      · split at stepped <;> cases stepped
        · exact compared.other (by simp) (by simp) rfl compared.whole
        · rename_i fut _ _
          refine compared.other (by simp) (fun index member => ?_) rfl compared.whole
          rcases List.mem_append.mp member with made | last
          · have asks : Sound (program inputs).wiring s.heap (.requestCancel (some fut.p)) :=
              trivial
            exact sane.no_index asks made
          · cases List.mem_singleton.mp last
    | setValue i =>
      cases ran
      refine compared.other (by simp) (by simp) rfl fun comparing raced => ?_
      simp [comparing] at raced
    | canceler =>
      cases ran
      exact compared.other (by simp) (by simp) rfl compared.whole
  | finish p r =>
    simp only [exec] at ran
    split at ran
    · cases ran
    · cases ran
      exact library (by simp)
  | thenRun | requestCancel | popCancelationCallback | unwrapOuter | unwrapInner =>
    cases ran
    exact library (by simp)

theorem compared_of_reachable (nonempty : inputs ≠ []) {token : ℕ → ℕ} {threads : ℕ}
    {config : Config State WhenAnyCall}
    (reached : Reachable (exec inputs autoCancel) Anything (start token threads) config) :
    Compared inputs config.state config.pending := by
  have both : Sane inputs autoCancel config.state config.pending ∧
      Compared inputs config.state config.pending := by
    refine reached.invariant
      (fun s pending => Sane inputs autoCancel s pending ∧ Compared inputs s pending)
      ⟨sane_start token threads, ?_⟩ ?_
    · rw [pending_start]
      constructor
      · simp [weight, indexes, start]
      · intro comparing
        cases comparing
      · intro i member
        simp [Multiset.mem_replicate] at member
    · rintro _ _ _ _ _ _ _ ⟨sane, compared⟩ - ran
      exact ⟨exec_step sane nonempty ran, compared_step sane ran compared⟩
  exact both.2

/-! ## The result -/

/-- The result is set once.  It names the input whose callback ran first, which is ready,
and holds all inputs in order; with `auto_cancel` the others were asked to cancel before it
is there, and otherwise none is asked by `when_any`; a request on the returned future
reaches every input that is not ready.  The loop indexes the vector while it holds the
inputs, unless a callback on another thread has moved it out since the comparison. -/
structure ReportsFirst (inputs : List Input) (autoCancel : Bool)
    (config : Config State WhenAnyCall) : Prop where
  once : config.state.sets ≤ 1
  complete : (∃ fut ∈ inputs, config.state.heap.Ready (some fut.p)) →
    config.state.heap.Ready none ∨ ∃ call ∈ config.pending, Reporting call = true
  result : config.state.heap.Ready none → ∃ (index : ℕ) (fut : Input),
    (config.state.heap.states none).r = some (.value (.plain 0)) ∧
      config.state.value = some (index, inputs) ∧ config.state.sets = 1 ∧
      config.state.first = some index ∧ inputs[index]? = some fut ∧
      config.state.heap.Ready (some fut.p)
  lowest : ∀ index futures l, config.state.value = some (index, futures) →
    config.state.lowest = some l → config.state.disturbed = false → index = l
  others : autoCancel = true → ∀ index futures, config.state.value = some (index, futures) →
    AskedBelow inputs config.state.heap index inputs.length
  alone : autoCancel = false → config.state.asked = false →
    ∀ t, (config.state.heap.tokens t).isCancelRequested = false
  canceled : config.state.canceled = true → .client .canceler ∈ config.pending ∨
    ∀ fut ∈ inputs, Asked config.state.heap config.pending (some fut.p)
  indexes : config.state.raced = false → ∀ i, .client (.index i) ∈ config.pending →
    config.state.futures = inputs ∧ i < inputs.length

/-- What sets the promise is done when it is ready. -/
theorem Sane.published (sane : Sane inputs autoCancel s pending) (ready : s.heap.Ready none) :
    s.sets = 1 := by
  have settles := sane.settles
  have sets := sane.sets
  have delivered : (counting (some none) Publishes).settled s.heap = 1 :=
    Account.settled_of_ready rfl ready
  have less : weight (counting none Publishes).owes pending ≤
      weight (counting (some none) Publishes).owes pending :=
    Multiset.sum_map_le_sum_map _ _ fun call _ => owes_le_owes rfl (fun k => le_of_eq (by rfl)) call
  have most := Bool.toNat_le s.triggered
  rw [Account.balance, delivered] at settles
  rw [balance_counting] at sets
  omega

theorem Sane.reporting (sane : Sane inputs autoCancel s pending) (listed : inputs[i]? = some fut)
    (ready : s.heap.Ready (some fut.p)) :
    s.heap.Ready none ∨ ∃ call ∈ pending, Reporting call = true := by
  obtain ⟨inside, -⟩ := List.getElem?_eq_some_iff.mp listed
  cases triggered : s.triggered with
  | true =>
    have settles := sane.settles
    rw [triggered, Bool.toNat_true] at settles
    obtain ⟨call, member, owes⟩ | ⟨p, home, -⟩ | ⟨p, target, ready⟩ :=
      Account.exists_of_balance_pos (settles ▸ Nat.one_pos)
    · refine Or.inr ⟨call, member, ?_⟩
      have expected := sane.fine.expected call member
      cases call with
      | client k => cases k <;> first | rfl | cases owes
      | finish => rfl
      | thenRun => rfl
      | requestCancel => cases owes
      | popCancelationCallback => cases owes
      | unwrapOuter => exact expected.elim
      | unwrapInner => exact expected.elim
    · cases home
    · cases target
      exact Or.inl ready
  | false =>
    have arrives := sane.arrives i inside
    rw [triggered, Bool.toNat_false, add_zero] at arrives
    obtain ⟨call, member, owes⟩ | ⟨p, home, f, waits, -⟩ | ⟨p, target, -⟩ :=
      Account.exists_of_balance_pos arrives
    · refine Or.inr ⟨call, member, ?_⟩
      have expected := sane.fine.expected call member
      cases call with
      | client k => cases k <;> first | rfl | cases owes
      | finish => rfl
      | thenRun => rfl
      | requestCancel => cases owes
      | popCancelationCallback => cases owes
      | unwrapOuter => exact expected.elim
      | unwrapInner => exact expected.elim
    · simp only [arrival, listed, Option.elim_some, Finset.mem_singleton] at home
      rw [home, sane.fine.drained _ ready] at waits
      cases waits
    · cases target

/-- **`when_any` reports the callback that ran first.**  The inputs are any list in which
shared states and tokens may occur more than once; other threads resolve them before, during
and after the call, and inside the loop that cancels the others. -/
theorem reportsFirst (nonempty : inputs ≠ []) (autoCancel : Bool) (token : ℕ → ℕ) (threads : ℕ)
    (config : Config State WhenAnyCall)
    (reached : Reachable (exec inputs autoCancel) Anything (start token threads) config) :
    ReportsFirst inputs autoCancel config := by
  have sane := sane_of_reachable nonempty reached
  have order := lowest_of_reachable nonempty reached
  have sets := sane.sets
  have most := Bool.toNat_le config.state.triggered
  have compared := compared_of_reachable nonempty reached
  refine ⟨by omega, ?_, fun ready => ?_, ?_, ?_, fun auto quiet => (sane.unasked auto quiet).tokens,
    sane.canceled, fun raced i member => compared.indexed member raced⟩
  · rintro ⟨fut, member, ready⟩
    obtain ⟨i, listed⟩ := List.getElem?_of_mem member
    exact sane.reporting listed ready
  · have once := sane.once
    have published := sane.published ready
    obtain ⟨r, result⟩ := Option.ne_none_iff_exists'.mp ready
    cases value : config.state.value with
    | none =>
      rw [value, Option.isSome_none, Bool.toNat_false] at once
      omega
    | some both =>
      obtain ⟨index, futures⟩ := both
      obtain ⟨rfl, first⟩ := sane.value index futures value
      obtain ⟨fut, listed, won⟩ := sane.winner index first
      refine ⟨index, fut, ?_, rfl, published, first, listed, won⟩
      rw [result, sane.results r (Or.inr result)]
  · intro index futures l value least quiet
    exact order.first index l (sane.value index futures value).2 least quiet
  · exact fun auto index futures value => sane.visible index futures value auto

/-- Of three inputs the last is ready at the call; the second is the first one again. -/
theorem reportsFirst_three : ∃ config : Config State WhenAnyCall,
    ReportsFirst [⟨4, none⟩, ⟨4, none⟩, ⟨7, some 1⟩] true config ∧
      config.state.value = some (2, [⟨4, none⟩, ⟨4, none⟩, ⟨7, some 1⟩]) ∧
      config.state.heap.Ready none := by
  have ran : ((start id 0).run (exec [⟨4, none⟩, ⟨4, none⟩, ⟨7, some 1⟩] true)
      ((0, .resolve 7 (.value (.plain 3))) :: List.replicate 18 (0, .return))).map (fun config =>
      decide (config.state.value = some (2, [⟨4, none⟩, ⟨4, none⟩, ⟨7, some 1⟩]) ∧
        config.state.heap.Ready none)) = some true := by decide
  obtain ⟨config, reached, holds⟩ := reachable_of_replay _ _ ran
  exact ⟨config, reportsFirst (by decide) true id 0 config reached, of_decide_eq_true holds⟩

/-- The second of two inputs is ready at the call, and the first is resolved by another
thread before the loop comes to the second: the result names the first.  And where it is
resolved after the loop has compared its index, the loop indexes the moved vector. -/
theorem ready_at_call_is_not_reported :
    (∃ config, Reachable (exec [⟨4, none⟩, ⟨7, none⟩] false) Anything (start id 1) config ∧
      config.state.value = some (0, [⟨4, none⟩, ⟨7, none⟩]) ∧ config.state.lowest = some 1) ∧
    ∃ config, Reachable (exec [⟨4, none⟩, ⟨7, none⟩] false) Anything (start id 1) config ∧
      config.call 0 = some (.client (.index 1)) ∧ config.state.futures = [] := by
  constructor
  · have ran : ((start id 1).run (exec [⟨4, none⟩, ⟨7, none⟩] false)
        [(1, .resolve 7 (.value (.plain 3))), (0, .return), (0, .return), (0, .return),
          (0, .return), (0, .return), (1, .resolve 4 (.value (.plain 5))), (1, .return),
          (1, .return)]).map (fun config =>
        decide (config.state.value = some (0, [⟨4, none⟩, ⟨7, none⟩]) ∧
          config.state.lowest = some 1)) = some true := by decide
    obtain ⟨config, reached, holds⟩ := reachable_of_replay _ _ ran
    exact ⟨config, reached, of_decide_eq_true holds⟩
  · have ran : ((start id 1).run (exec [⟨4, none⟩, ⟨7, none⟩] false)
        [(0, .return), (0, .return), (0, .return), (0, .return), (0, .return), (0, .return),
          (1, .resolve 4 (.value (.plain 5))), (1, .return), (1, .return)]).map (fun config =>
        decide (config.call 0 = some (.client (.index 1)) ∧ config.state.futures = [])) =
          some true := by decide
    obtain ⟨config, reached, holds⟩ := reachable_of_replay _ _ ran
    exact ⟨config, reached, of_decide_eq_true holds⟩

end Tconcurrent.WhenAny
