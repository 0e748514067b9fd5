import Tconcurrent.TokenCallbacks

/-! No cancelation is lost on a cancelation token.

Once cancelation is requested, whatever comes to the top of the stack is selected by the
operation that has brought it there.  So a callback is popped after it was selected, and the
callbacks that were on the stack are selected from top to bottom. -/
namespace Tconcurrent.TokenCallbacks
open Interleaving

variable {s s' : State} {before after between : List Event} {thread t i j : ℕ} {e : Event}
  {current : List ℕ} {choice : Choice}

/-! ## The history of a token -/

/-- The callbacks that are on the stack, the top first. -/
def stack : List Event → List ℕ
  | [] => []
  | .pushed _ i :: before => i :: stack before
  | .popped _ _ :: before => (stack before).tail
  | _ :: before => stack before

def Requested (log : List Event) : Prop := ∃ t, .requested t ∈ log

/-- When something happens to a callback. -/
def Fits : Event → List Event → Prop
  | .popped t i, before => (stack before).head? = some i ∧ (Requested before →
      ∃ t', .selected t' i ∈ before ∧ (.invoked t' i ∈ before ∨ t' ≠ t))
  | .selected _ i, before => Requested before ∧ (stack before).head? = some i
  | .invoked t i, before => .selected t i ∈ before
  | .pushed _ i, before => ∀ j ∈ stack before, j < i
  | .requested _, _ => True

def History (log : List Event) : Prop :=
  ∀ after e before, log = after ++ e :: before → Fits e before

/-- The thread that pushes, pops or requests. -/
def Event.operator : Event → Option ℕ
  | .pushed t _ | .popped t _ | .requested t => some t
  | _ => none

/-- An operation that leaves a callback on top once cancelation is requested selects it. -/
def Selects (log : List Event) : Prop :=
  ∀ after e before t i, log = after ++ e :: before → e.operator = some t →
    Requested (e :: before) → (stack (e :: before)).head? = some i →
      ∃ later, after = later ++ [.selected t i]

theorem History.cons (history : History before) (fits : Fits e before) : History (e :: before) := by
  intro after e' earlier split
  cases after with
  | nil =>
    obtain ⟨rfl, rfl⟩ := List.cons.inj split
    exact fits
  | cons first after =>
    obtain ⟨-, same⟩ := List.cons.inj split
    exact history after e' earlier same

theorem History.tail (history : History (e :: before)) : History before := fun after e' earlier split =>
  history (e :: after) e' earlier (by rw [split, List.cons_append])

theorem History.of_append (history : History (after ++ before)) : History before := by
  induction after with
  | nil => exact history
  | cons e after ih => exact ih history.tail

/-- Callbacks are pushed in order, so the newer ones are above. -/
theorem History.newest (history : History before) : (stack before).Pairwise (· > ·) := by
  induction before with
  | nil => exact List.Pairwise.nil
  | cons e before ih =>
    have earlier := ih history.tail
    have fits := history [] e before rfl
    cases e with
    | pushed t i => exact List.pairwise_cons.mpr ⟨fits, earlier⟩
    | popped t i => exact earlier.tail
    | requested t => exact earlier
    | selected t i => exact earlier
    | invoked t i => exact earlier

/-- A callback stays until it is popped. -/
theorem History.popped_of_gone (history : History (between ++ before)) (there : i ∈ stack before)
    (gone : i ∉ stack (between ++ before)) :
    ∃ late t early, between = late ++ .popped t i :: early := by
  induction between with
  | nil => exact absurd there gone
  | cons e between ih =>
    by_cases still : i ∈ stack (between ++ before)
    · have fits := history [] e (between ++ before) rfl
      cases e with
      | popped t k =>
        obtain ⟨top, -⟩ := fits
        obtain ⟨below, held⟩ := List.head?_eq_some_iff.mp top
        have left : i ∉ below := by
          rw [List.cons_append, stack, held] at gone
          exact gone
        rw [held] at still
        obtain rfl := (List.mem_cons.mp still).resolve_right left
        exact ⟨[], t, between, rfl⟩
      | pushed t k => exact absurd (List.mem_cons_of_mem k still) gone
      | requested t => exact absurd still gone
      | selected t k => exact absurd still gone
      | invoked t k => exact absurd still gone
    · obtain ⟨late, t, early, split⟩ := ih history.tail still
      exact ⟨e :: late, t, early, by rw [split, List.cons_append]⟩

/-- Callbacks are selected from top to bottom. -/
theorem History.top_to_bottom (history : History (.selected t j :: (between ++ before)))
    (requested : Requested before) (above : [i, j].Sublist (stack before)) :
    ∃ t', .selected t' i ∈ between ++ before := by
  obtain ⟨-, top⟩ := history [] _ _ rfl
  have there : i ∈ stack before := above.subset List.mem_cons_self
  have newer : j < i := by
    have pair := history.tail.of_append.newest.sublist above
    simpa using pair
  obtain ⟨below, held⟩ := List.head?_eq_some_iff.mp top
  have gone : i ∉ stack (between ++ before) := by
    have order := history.tail.newest
    rw [held, List.pairwise_cons] at order
    rw [held]
    intro member
    rcases List.mem_cons.mp member with rfl | member
    · exact Nat.lt_irrefl _ newer
    · exact Nat.lt_asymm newer (order.1 i member)
  obtain ⟨late, t', early, rfl⟩ := history.tail.popped_of_gone there gone
  have popped := history.tail late (.popped t' i) (early ++ before) (by simp)
  obtain ⟨t'', requested_by⟩ := requested
  obtain ⟨t₁, selected, -⟩ := popped.2 ⟨t'', List.mem_append_right _ requested_by⟩
  refine ⟨t₁, ?_⟩
  rw [List.append_assoc]
  exact List.mem_append_right _ (List.mem_cons_of_mem _ selected)

theorem Selects.cons (selects : Selects before) (e : Event)
    (own : ∀ t i, e.operator = some t → Requested (e :: before) →
      (stack (e :: before)).head? ≠ some i) : Selects (e :: before) := by
  intro after e' earlier t i split operates requested top
  cases after with
  | nil =>
    obtain ⟨rfl, rfl⟩ := List.cons.inj split
    exact absurd top (own t i operates requested)
  | cons first after =>
    obtain ⟨-, same⟩ := List.cons.inj split
    obtain ⟨later, rfl⟩ := selects after e' earlier t i same operates requested top
    exact ⟨first :: later, rfl⟩

/-- An operation that selects the callback that it leaves on top. -/
theorem Selects.selected (selects : Selects before) (operates : e.operator = some thread)
    (top : (stack (e :: before)).head? = some j) :
    Selects (.selected thread j :: e :: before) := by
  intro after e' earlier t i split operates' requested top'
  rcases after with _ | ⟨first, _ | ⟨second, after⟩⟩
  · obtain ⟨rfl, -⟩ := List.cons.inj split
    cases operates'
  · obtain ⟨rfl, same⟩ := List.cons.inj split
    obtain ⟨rfl, rfl⟩ := List.cons.inj same
    obtain rfl := Option.some.inj (operates.symm.trans operates')
    obtain rfl := Option.some.inj (top.symm.trans top')
    exact ⟨[], rfl⟩
  · obtain ⟨-, rest⟩ := List.cons.inj split
    obtain ⟨-, same⟩ := List.cons.inj rest
    obtain ⟨later, rfl⟩ := selects after e' earlier t i same operates' requested top'
    exact ⟨first :: second :: later, rfl⟩

/-- Nothing is called before cancelation is requested. -/
theorem History.requested_of_invoked (history : History (.invoked t i :: before)) :
    Requested before := by
  obtain ⟨late, early, rfl⟩ := List.append_of_mem (history [] _ before rfl)
  obtain ⟨⟨t', earlier⟩, -⟩ := history.tail late _ early rfl
  exact ⟨t', List.mem_append_right _ (List.mem_cons_of_mem _ earlier)⟩

/-! ## Every step -/

structure Sane (s : State) : Prop where
  held : stack s.log = s.token.doCancels
  requested : s.token.isCancelRequested = true ↔ Requested s.log
  below : ∀ i ∈ s.token.doCancels, i < s.pushed
  history : History s.log
  selects : Selects s.log
  top : s.token.isCancelRequested = true → ∀ i, s.token.doCancels.head? = some i →
    ∃ t, .selected t i ∈ s.log

/-- A thread has called what it has selected, or is about to. -/
structure Calls (thread : ℕ) (s : State) (agenda : List TokenCall) : Prop where
  selected : ∀ i, s.log.count (.selected thread i) =
    s.log.count (.invoked thread i) + agenda.count (.current i)
  next : ∀ i, .current i ∉ agenda.tail

/-- What an operation does before it selects. -/
def Changes (thread : ℕ) (s s' : State) (events : List Event) : Choice → Prop
  | .push => events = [.pushed thread s.pushed] ∧ s'.pushed = s.pushed + 1 ∧
      s'.token.doCancels = s.pushed :: s.token.doCancels ∧
      s'.token.isCancelRequested = s.token.isCancelRequested
  | .pop => events = s.token.doCancels.head?.toList.map (.popped thread) ∧
      s'.pushed = s.pushed ∧ s'.token.doCancels = s.token.doCancels.tail ∧
      s'.token.isCancelRequested = s.token.isCancelRequested
  | .requestCancel => events = [.requested thread] ∧ s'.pushed = s.pushed ∧
      s'.token.doCancels = s.token.doCancels ∧ s'.token.isCancelRequested = true
  | .return => False

/-- Then it selects what is on top. -/
theorem operate_spec (ran : operate thread s choice = some (s', current)) :
    ∃ events, Changes thread s s' events choice ∧
      s'.log = current.map (.selected thread) ++ (events ++ s.log) ∧
      current = if s'.token.isCancelRequested then s'.token.doCancels.head?.toList else [] := by
  cases choice with
  | push =>
    cases ran
    exact ⟨_, ⟨rfl, rfl, rfl, rfl⟩, rfl, rfl⟩
  | pop =>
    cases ran
    exact ⟨_, ⟨rfl, rfl, rfl, rfl⟩, List.append_assoc .., rfl⟩
  | requestCancel =>
    cases ran
    exact ⟨_, ⟨rfl, rfl, rfl, rfl⟩, rfl, rfl⟩
  | «return» => cases ran

/-- Nothing is selected yet. -/
theorem Sane.changed {events : List Event} (sane : Sane s)
    (called : ∀ i, .selected thread i ∈ s.log → .invoked thread i ∈ s.log)
    (permitted : choice = .pop → s.token.doCancels ≠ [])
    (changes : Changes thread s s' events choice) :
    stack (events ++ s.log) = s'.token.doCancels ∧
      (s'.token.isCancelRequested = true ↔ Requested (events ++ s.log)) ∧
      (∀ i ∈ s'.token.doCancels, i < s'.pushed) ∧ History (events ++ s.log) := by
  cases choice with
  | push =>
    obtain ⟨rfl, pushed, cancels, same⟩ := changes
    refine ⟨?_, ?_, ?_, ?_⟩
    · rw [cancels, ← sane.held]
      rfl
    · rw [same, sane.requested]
      simp [Requested]
    · intro i member
      rw [cancels] at member
      rw [pushed]
      rcases List.mem_cons.mp member with rfl | member
      · exact Nat.lt_succ_self _
      · exact Nat.lt_succ_of_lt (sane.below i member)
    · apply sane.history.cons
      intro j member
      rw [sane.held] at member
      exact sane.below j member
  | pop =>
    obtain ⟨rfl, pushed, cancels, same⟩ := changes
    obtain ⟨i, below, held⟩ := List.exists_cons_of_ne_nil (permitted rfl)
    rw [held] at cancels ⊢
    refine ⟨?_, ?_, ?_, ?_⟩
    · rw [cancels]
      simp [stack, sane.held, held]
    · rw [same, sane.requested]
      simp [Requested]
    · intro j member
      rw [cancels] at member
      rw [pushed]
      exact sane.below j (by rw [held]; exact List.mem_of_mem_tail member)
    · apply sane.history.cons
      refine ⟨by rw [sane.held, held]; rfl, fun requested => ?_⟩
      obtain ⟨t, selected⟩ := sane.top (sane.requested.mpr requested) i (by rw [held]; rfl)
      by_cases own : t = thread
      · subst own
        exact ⟨t, selected, Or.inl (called i selected)⟩
      · exact ⟨t, selected, Or.inr own⟩
  | requestCancel =>
    obtain ⟨rfl, pushed, cancels, same⟩ := changes
    refine ⟨?_, ?_, ?_, ?_⟩
    · rw [cancels, ← sane.held]
      rfl
    · rw [same]
      exact ⟨fun _ => ⟨thread, List.mem_cons_self⟩, fun _ => rfl⟩
    · rw [cancels, pushed]
      exact sane.below
    · exact sane.history.cons trivial
  | «return» => exact changes.elim

theorem requested_map_append {log : List Event} :
    Requested (current.map (.selected thread) ++ log) ↔ Requested log := by
  simp [Requested]

theorem stack_map_append {log : List Event} :
    stack (current.map (.selected thread) ++ log) = stack log := by
  induction current with
  | nil => rfl
  | cons i current ih => exact ih

/-- What is logged of an operation is one event. -/
theorem Changes.single {events : List Event} (changes : Changes thread s s' events choice)
    (permitted : choice = .pop → s.token.doCancels ≠ []) :
    ∃ e, events = [e] ∧ e.operator = some thread := by
  cases choice with
  | push => exact ⟨_, changes.1, rfl⟩
  | pop =>
    obtain ⟨i, below, held⟩ := List.exists_cons_of_ne_nil (permitted rfl)
    refine ⟨.popped thread i, ?_, rfl⟩
    rw [changes.1, held]
    rfl
  | requestCancel => exact ⟨_, changes.1, rfl⟩
  | «return» => exact changes.elim

theorem Sane.operate (sane : Sane s)
    (called : ∀ i, .selected thread i ∈ s.log → .invoked thread i ∈ s.log)
    (permitted : choice = .pop → s.token.doCancels ≠ [])
    (ran : operate thread s choice = some (s', current)) : Sane s' := by
  obtain ⟨events, changes, log, selects⟩ := operate_spec ran
  obtain ⟨same, requested, below, history⟩ := sane.changed called permitted changes
  obtain ⟨e, rfl, operates⟩ := changes.single permitted
  constructor
  · rw [log, stack_map_append, same]
  · rw [log, requested_map_append, requested]
  · exact below
  · rw [log]
    cases asked : s'.token.isCancelRequested with
    | false =>
      rw [asked] at selects
      subst selects
      exact history
    | true =>
      rw [asked] at selects
      cases first : s'.token.doCancels.head? with
      | none =>
        rw [first] at selects
        subst selects
        exact history
      | some i =>
        rw [first] at selects
        subst selects
        apply history.cons
        exact ⟨requested.mp asked, by rw [same, first]⟩
  · rw [log]
    cases asked : s'.token.isCancelRequested with
    | false =>
      rw [asked] at selects
      subst selects
      refine sane.selects.cons e fun t i _ requests => ?_
      rw [requested.mpr requests] at asked
      cases asked
    | true =>
      rw [asked] at selects
      cases first : s'.token.doCancels.head? with
      | none =>
        rw [first] at selects
        subst selects
        refine sane.selects.cons e fun t i _ _ top => ?_
        rw [List.singleton_append] at same
        rw [same, first] at top
        cases top
      | some i =>
        rw [first] at selects
        subst selects
        refine sane.selects.selected operates ?_
        rw [List.singleton_append] at same
        rw [same, first]
  · intro asked i first
    rw [asked, first] at selects
    exact ⟨thread, by rw [log, selects]; exact List.mem_cons_self⟩

theorem Changes.count {events : List Event} (changes : Changes thread s s' events choice) (t : ℕ) :
    events.count (.selected t i) = 0 ∧ events.count (.invoked t i) = 0 := by
  cases choice with
  | push =>
    obtain ⟨rfl, -⟩ := changes
    simp
  | pop =>
    obtain ⟨rfl, -⟩ := changes
    cases s.token.doCancels <;> simp
  | requestCancel =>
    obtain ⟨rfl, -⟩ := changes
    simp
  | «return» => exact changes.elim

/-- What an operation selects, it selects for its own thread. -/
theorem count_operate (ran : operate thread s choice = some (s', current)) (t : ℕ) :
    s'.log.count (.selected t i) =
        s.log.count (.selected t i) + (if t = thread then current.count i else 0) ∧
      s'.log.count (.invoked t i) = s.log.count (.invoked t i) := by
  obtain ⟨events, changes, log, -⟩ := operate_spec ran
  obtain ⟨selected, invoked⟩ := changes.count (i := i) t
  have uninvoked : (current.map (Event.selected thread)).count (.invoked t i) = 0 := by
    rw [List.count_eq_zero]
    simp
  have counted : (current.map (Event.selected thread)).count (.selected t i) =
      if t = thread then current.count i else 0 := by
    split
    · rename_i same
      rw [same]
      exact List.count_map_of_injective _ _ (fun a b equal => by injection equal) _
    · rename_i other
      rw [List.count_eq_zero]
      simp [Ne.symm other]
  simp only [log, List.count_append, selected, invoked, uninvoked, counted]
  omega

theorem current_short (ran : operate thread s choice = some (s', current)) :
    current = [] ∨ ∃ i, current = [i] := by
  obtain ⟨-, -, -, rfl⟩ := operate_spec ran
  split
  · cases s'.token.doCancels.head? with
    | none => exact Or.inl rfl
    | some i => exact Or.inr ⟨i, rfl⟩
  · exact Or.inl rfl

variable {call : TokenCall} {rest : List TokenCall}

/-- Code that goes on has no callback to call. -/
theorem Calls.nothing_due (calls : Calls thread s (call :: rest)) (code : ∀ i, call ≠ .current i) :
    ∀ i, (call :: rest).count (.current i) = 0 := by
  intro i
  rw [List.count_eq_zero]
  intro member
  rcases List.mem_cons.mp member with same | member
  · exact code i same.symm
  · exact calls.next i member

theorem Calls.invoked (calls : Calls thread s (call :: rest)) (code : ∀ i, call ≠ .current i)
    (selected : .selected thread i ∈ s.log) : .invoked thread i ∈ s.log := by
  have counted := calls.selected i
  rw [calls.nothing_due code] at counted
  have positive := List.count_pos_iff.mpr selected
  exact List.count_pos_iff.mp (by omega)

theorem Calls.operate (calls : Calls thread s (call :: rest)) (code : ∀ i, call ≠ .current i)
    (ran : operate thread s choice = some (s', current)) :
    Calls thread s' (current.map .current ++ [call] ++ rest) := by
  have none_due := calls.nothing_due code
  constructor
  · intro i
    obtain ⟨selected, invoked⟩ := count_operate ran (i := i) thread
    have pending : (current.map TokenCall.current).count (.current i) = current.count i :=
      List.count_map_of_injective _ _ (fun a b equal => by injection equal) _
    have before := calls.selected i
    rw [List.append_assoc, List.count_append, List.singleton_append, none_due, pending, selected,
      invoked, before, none_due, if_pos rfl]
    omega
  · intro i member
    have nowhere : TokenCall.current i ∉ call :: rest := List.count_eq_zero.mp (none_due i)
    rcases current_short ran with rfl | ⟨j, rfl⟩
    · exact nowhere (List.mem_cons_of_mem _ member)
    · exact nowhere member

/-- What one call does. -/
theorem exec_cases {calls : List TokenCall} (ran : exec thread choice s call = some (s', calls)) :
    (∃ i, call = .current i ∧ s' = { s with log := .invoked thread i :: s.log } ∧
      calls = [.callback i]) ∨ (∀ i, call ≠ .current i) ∧ ((s' = s ∧ calls = []) ∨
      ∃ current, TokenCallbacks.operate thread s choice = some (s', current) ∧
        calls = current.map .current ++ [call]) := by
  have operates : ∀ {step : Option (State × List ℕ)},
      (step.map fun next => (next.1, next.2.map .current ++ [call])) = some (s', calls) →
      ∃ current, step = some (s', current) ∧ calls = current.map .current ++ [call] := by
    intro step ran
    obtain ⟨⟨next, current⟩, operated, same⟩ := Option.map_eq_some_iff.mp ran
    obtain ⟨rfl, rfl⟩ := Prod.mk.inj same
    exact ⟨current, operated, rfl⟩
  cases call with
  | current i =>
    cases ran
    exact Or.inl ⟨i, rfl, rfl, rfl⟩
  | user | callback =>
    refine Or.inr ⟨by simp, ?_⟩
    cases choice with
    | «return» =>
      cases ran
      exact Or.inl ⟨rfl, rfl⟩
    | push | pop | requestCancel => exact Or.inr (operates ran)

theorem Calls.other {other : ℕ} {agenda calls : List TokenCall} (due : Calls other s agenda)
    (apart : other ≠ thread) (ran : exec thread choice s call = some (s', calls)) :
    Calls other s' agenda := by
  suffices same : ∀ i, s'.log.count (.selected other i) = s.log.count (.selected other i) ∧
      s'.log.count (.invoked other i) = s.log.count (.invoked other i) from
    ⟨fun i => by rw [(same i).1, (same i).2]; exact due.selected i, due.next⟩
  intro i
  obtain ⟨j, -, rfl, -⟩ | ⟨-, ⟨rfl, -⟩ | ⟨current, operated, -⟩⟩ := exec_cases ran
  · have elsewhere : Event.invoked thread j ≠ .invoked other i := by simp [Ne.symm apart]
    exact ⟨List.count_cons_of_ne (by simp), List.count_cons_of_ne elsewhere⟩
  · exact ⟨rfl, rfl⟩
  · obtain ⟨selected, invoked⟩ := count_operate operated (i := i) other
    rw [if_neg apart] at selected
    exact ⟨selected, invoked⟩

theorem Sane.step {calls : List TokenCall} (sane : Sane s) (due : Calls thread s (call :: rest))
    (permitted : PopsPushed s call choice) (ran : exec thread choice s call = some (s', calls)) :
    Sane s' ∧ Calls thread s' (calls ++ rest) := by
  obtain ⟨i, rfl, rfl, rfl⟩ | ⟨code, ⟨rfl, rfl⟩ | ⟨current, operated, rfl⟩⟩ := exec_cases ran
  · have counted := due.selected i
    have waiting : Event.selected thread i ∈ s.log := by
      rw [List.count_cons_self] at counted
      exact List.count_pos_iff.mp (by omega)
    have selects : Selects (.invoked thread i :: s.log) :=
      sane.selects.cons _ fun t j operates => by cases operates
    refine ⟨⟨sane.held, ?_, sane.below, sane.history.cons waiting, selects, ?_⟩, ?_, ?_⟩
    · rw [sane.requested]
      simp [Requested]
    · intro asked j first
      obtain ⟨t, selected⟩ := sane.top asked j first
      exact ⟨t, List.mem_cons_of_mem _ selected⟩
    · intro j
      have before := due.selected j
      simp only [List.count_cons, List.singleton_append] at before ⊢
      by_cases same : i = j
      · subst same
        simp at before ⊢
        omega
      · simpa [same] using before
    · intro j member
      exact due.next j member
  · refine ⟨sane, fun i => ?_, fun i member => due.next i (List.mem_of_mem_tail member)⟩
    have before := due.selected i
    rw [due.nothing_due code] at before
    have nowhere : TokenCall.current i ∉ rest := due.next i
    rw [List.nil_append, List.count_eq_zero.mpr nowhere, before]
  · exact ⟨sane.operate (fun i => due.invoked code) permitted operated, due.operate code operated⟩

/-! ## Every run -/

/-- No cancelation is lost. -/
structure NoneLost (config : Config State TokenCall) : Prop where
  /-- Whatever is on top once cancelation is requested has been selected, by whoever has brought
  it there. -/
  top : config.state.token.isCancelRequested = true →
    ∀ i, config.state.token.doCancels.head? = some i → ∃ t, .selected t i ∈ config.state.log
  /-- Every operation that leaves a callback on top then selects it, also one that was selected
  before. -/
  selects : Selects config.state.log
  /-- A thread that has selected a callback has called it, or calls it next, once for each time
  that it has selected it. -/
  called : ∀ (t : ℕ) agenda, config.threads[t]? = some agenda → ∀ i,
    config.state.log.count (.selected t i) = config.state.log.count (.invoked t i) +
      (decide (agenda.head? = some (.current i))).toNat
  /-- A callback that is popped was selected before, and was called before unless other threads
  have selected it. -/
  popped : ∀ after t i before, config.state.log = after ++ .popped t i :: before →
    Requested before → ∃ t', .selected t' i ∈ before ∧ (.invoked t' i ∈ before ∨ t' ≠ t)
  /-- Of two callbacks on the stack the upper one is selected first. -/
  order : ∀ after t j between before i,
    config.state.log = after ++ .selected t j :: (between ++ before) → Requested before →
    [i, j].Sublist (stack before) → ∃ t', .selected t' i ∈ between ++ before
  early : ∀ after t i before, config.state.log = after ++ .invoked t i :: before →
    Requested before

variable {threads : ℕ} {config : Config State TokenCall}

theorem sane_of_reachable (reached : Reachable exec PopsPushed (start threads) config) :
    Sane config.state ∧ ∀ thread agenda, config.threads[thread]? = some agenda →
      Calls thread config.state agenda := by
  apply reached.invariant_threads
  case initial =>
    refine ⟨rfl, by simp [start, Requested], by simp [start], fun after e before split => ?_,
      fun after e before t i split => ?_, by simp [start]⟩
    · simp [start] at split
    · simp [start] at split
  case initially =>
    intro thread agenda listed
    obtain rfl : agenda = [.user] := List.eq_of_mem_replicate (List.mem_of_getElem? listed)
    exact ⟨fun i => by simp [start], fun i => by simp⟩
  case step =>
    intro thread choice s call rest s' calls sane due permitted ran
    obtain ⟨after, kept⟩ := sane.step due permitted ran
    exact ⟨after, kept, fun other apart agenda waiting => waiting.other apart ran⟩

theorem noneLost (reached : Reachable exec PopsPushed (start threads) config) :
    NoneLost config := by
  obtain ⟨sane, due⟩ := sane_of_reachable reached
  refine ⟨sane.top, sane.selects, fun t agenda listed i => ?_, fun after t i before split => ?_, ?_,
    ?_⟩
  · have calls := due t agenda listed
    rw [calls.selected i]
    cases agenda with
    | nil => rfl
    | cons call rest =>
      have once : rest.count (.current i) = 0 := List.count_eq_zero.mpr (calls.next i)
      rw [List.count_cons, once, zero_add]
      by_cases next : call = .current i <;> simp [next]
  · exact (sane.history after _ before split).2
  · intro after t j between before i split requested above
    have history := sane.history
    rw [split] at history
    exact history.of_append.top_to_bottom requested above
  · intro after t i before split
    have history := sane.history
    rw [split] at history
    exact history.of_append.requested_of_invoked

def popsPushed (s : State) (_ : TokenCall) (choice : Choice) : Bool :=
  choice != .pop || !s.token.doCancels.isEmpty

theorem popsPushed_sound (s : State) (call : TokenCall) (choice : Choice)
    (permitted : popsPushed s call choice = true) : PopsPushed s call choice := by
  rintro rfl
  simpa [popsPushed] using permitted

/-- Callback 1 pops itself, and the request goes on to callback 0. -/
theorem noneLost_nested : ∃ config : Config State TokenCall,
    config.state.log = [.invoked 0 0, .selected 0 0, .popped 0 1, .invoked 0 1, .selected 0 1,
      .requested 0, .pushed 0 1, .pushed 0 0] ∧ NoneLost config := by
  have ran : ((start 1).runWithin exec popsPushed
      [(0, .push), (0, .push), (0, .requestCancel), (0, .return), (0, .pop), (0, .return)]).map
      (fun config => decide (config.state.log = [.invoked 0 0, .selected 0 0, .popped 0 1,
        .invoked 0 1, .selected 0 1, .requested 0, .pushed 0 1, .pushed 0 0])) = some true := by
    decide
  obtain ⟨config, reached, holds⟩ := reachable_of_replay_within popsPushed_sound _ _ ran
  exact ⟨config, of_decide_eq_true holds, noneLost reached⟩

/-- Thread 1 selects a callback, which thread 0 pops before it is called. -/
theorem popped_before_called : ∃ config : Config State TokenCall,
    Reachable exec PopsPushed (start 2) config ∧ config.call 1 = some (.current 0) ∧
      ∃ before, config.state.log = .popped 0 0 :: before ∧ Requested before ∧
        ∀ t, .invoked t 0 ∉ before := by
  have ran : ((start 2).runWithin exec popsPushed
      [(0, .push), (1, .requestCancel), (0, .pop)]).map
      (fun config => decide (config.call 1 = some (.current 0) ∧
        config.state.log = [.popped 0 0, .selected 1 0, .requested 1, .pushed 0 0])) =
      some true := by
    decide
  obtain ⟨config, reached, holds⟩ := reachable_of_replay_within popsPushed_sound _ _ ran
  obtain ⟨current, log⟩ := of_decide_eq_true holds
  exact ⟨config, reached, current, _, log, ⟨1, by simp⟩, by simp⟩

end Tconcurrent.TokenCallbacks
