import Tconcurrent.FutureGroup

/-! A `task_canceler` that is called again from within a call.

`_mutex` is not recursive, and it is held while `run` calls the function it is given and
while `terminate` cancels.  Each call that a thread has to make is marked when it is made
from within such a call. -/
namespace Tconcurrent.FutureGroup.Nesting
open Interleaving

structure NestedCall where
  /-- `run`, `terminate` or the destructor has not returned yet. -/
  inside : Bool
  call : GroupCall
  deriving DecidableEq

/-- The calls that lock `_mutex`. -/
def locks : GroupCall → Choice → Bool
  | .user, .run | .user, .terminate | .user, .destroy => true
  | _, _ => false

/-- The calls that unlock it at their end. -/
def unlocks : GroupCall → Bool
  | .functionReturn | .cancelTaken _ _ _ => true
  | _ => false

/-- What is called before the mutex is unlocked is called from within. -/
def mark (inside : Bool) : List GroupCall → List NestedCall
  | [] => []
  | call :: rest => ⟨inside || unlocks call || rest.any unlocks, call⟩ :: mark inside rest

structure State where
  group : FutureGroup.State
  /-- The thread that holds `_mutex`. -/
  holder : Option ℕ := none
  /-- Code called from within has called `run`, `terminate` or the destructor. -/
  nested : Bool := false
  /-- A thread has tried to lock what it holds. -/
  lockedTwice : Bool := false

/-- One step of a thread.  It is undefined to lock a mutex twice, and the program is not
followed any further. -/
def exec : Machine State NestedCall Choice
  | thread, choice, s, ⟨inside, call⟩ =>
    if s.lockedTwice then none
    else if locks call choice && s.group.locked then
      if s.holder = some thread then
        some ({ s with nested := s.nested || inside, lockedTwice := true }, [])
      else none
    else
      (FutureGroup.exec thread choice s.group call).map fun (group, calls) =>
        ({ s with
            group
            holder :=
              if group.locked then if s.group.locked then s.holder else some thread else none
            nested := s.nested || inside && locks call choice },
          mark inside calls)

/-- An empty `task_canceler`, and any number of threads that use it. -/
def start (token : ℕ → ℕ) (threads : ℕ) : Config State NestedCall :=
  ⟨{ group := { kind := .taskCanceler, token } }, List.replicate threads [⟨false, .user⟩]⟩

/-- No thread has tried to lock a mutex that it holds. -/
def NeverLocksTwice (config : Config State NestedCall) : Prop :=
  config.state.lockedTwice = false

/-! ## How a step uses the mutex -/

variable {s s' : FutureGroup.State} {call : GroupCall} {choice : Choice} {calls : List GroupCall}
variable {thread : ℕ} {inside : Bool}

inductive LockStep (s s' : FutureGroup.State) (call : GroupCall) (choice : Choice) :
    List GroupCall → Prop where
  | quiet {calls : List GroupCall} : unlocks call = false → s'.locked = s.locked →
      (∀ made ∈ calls, unlocks made = false) → LockStep s s' call choice calls
  /-- It is locked until a call that is made before the others. -/
  | take (above below : List GroupCall) (last : GroupCall) : locks call choice = true →
      unlocks call = false → s'.locked = true → unlocks last = true →
      (∀ made ∈ above ++ below, unlocks made = false) →
      LockStep s s' call choice (above ++ last :: below)
  | keep (above : List GroupCall) (last : GroupCall) : unlocks call = true →
      s'.locked = s.locked → unlocks last = true → (∀ made ∈ above, unlocks made = false) →
      LockStep s s' call choice (above ++ [last])
  | give : unlocks call = true → s'.locked = false → LockStep s s' call choice []

theorem complete_lockStep {u : ℕ} {r : Outcome} :
    LockStep s (complete u r s).1 .user (.complete u r) (complete u r s).2 := by
  refine .quiet rfl rfl fun made member => ?_
  rcases List.mem_append.mp member with entry | last
  · obtain ⟨k, -, entry⟩ := List.mem_flatMap.mp entry
    rcases List.mem_cons.mp entry with rfl | entry
    · rfl
    · rw [List.mem_singleton.mp entry]
      rfl
  · rw [List.mem_singleton.mp last]
    rfl

theorem cancelReturned_lockStep {i : ℕ} :
    LockStep s (cancelReturned i s).1 .user (.cancelReturned i) (cancelReturned i s).2 := by
  unfold cancelReturned
  split
  · exact .quiet rfl rfl (by simp [unlocks])
  · split
    · refine .quiet rfl rfl fun made member => ?_
      rcases List.mem_append.mp member with entry | last
      · obtain ⟨k, -, rfl⟩ := List.mem_map.mp entry
        rfl
      · rw [List.mem_singleton.mp last]
        rfl
    · exact .quiet rfl rfl (by simp [unlocks])

theorem user_lockStep (ran : user s choice = some (s', calls)) :
    LockStep s s' .user choice calls := by
  cases choice with
  | «return» =>
    cases ran
    exact .quiet rfl rfl (by simp)
  | add u =>
    simp only [user] at ran
    split at ran
    · cases ran
    · cases ran
      refine .quiet rfl ?_ (by simp [unlocks])
      unfold add
      split
      · rfl
      · split <;> rfl
  | run =>
    simp only [user] at ran
    split at ran
    · cases ran
    · have made : run s = (s', calls) := Option.some.inj ran
      unfold run at made
      split at made
      · cases made
        exact .quiet rfl rfl (by simp [unlocks])
      · cases made
        exact .take [.user] [.user] .functionReturn rfl rfl rfl rfl (by simp [unlocks])
  | terminate =>
    simp only [user] at ran
    split at ran
    · cases ran
    · split at ran <;>
      · cases ran
        exact .take [] [.user] _ rfl rfl rfl rfl (by simp [unlocks])
  | destroy =>
    simp only [user] at ran
    split at ran
    · cases ran
    · cases ran
      exact .take [] [.user] _ rfl rfl rfl rfl (by simp [unlocks])
  | complete u r =>
    simp only [user] at ran
    split at ran
    · cases ran
    · have made : complete u r s = (s', calls) := Option.some.inj ran
      have step : LockStep s (complete u r s).1 .user (.complete u r) (complete u r s).2 :=
        complete_lockStep
      rwa [made] at step
  | requestCancel u =>
    simp only [user] at ran
    split at ran
    · cases ran
      exact .quiet rfl rfl (by simp [unlocks])
    · cases ran
      exact .quiet rfl rfl (by simp [unlocks])
  | cancelReturned i =>
    have made : cancelReturned i s = (s', calls) := Option.some.inj ran
    have step : LockStep s (cancelReturned i s).1 .user (.cancelReturned i)
      (cancelReturned i s).2 := cancelReturned_lockStep
    rwa [made] at step
  | future u => cases ran
  | throw => cases ran

theorem cancelEntry_locked {k : ℕ} : (cancelEntry k s).1.locked = s.locked ∧
    ∀ made ∈ (cancelEntry k s).2, unlocks made = false := by
  unfold cancelEntry
  split
  · exact ⟨rfl, by simp [unlocks]⟩
  · exact ⟨rfl, by simp⟩

theorem cancelTaken_lockStep {late : Bool} {rest requested : List ℕ} :
    LockStep s (cancelTaken late requested s rest).1 (.cancelTaken late rest requested) choice
      (cancelTaken late requested s rest).2 := by
  cases rest with
  | nil => exact .give rfl rfl
  | cons k rest =>
    have unlocking : unlocks (.cancelTaken late (k :: rest) requested) = true := rfl
    simp only [cancelTaken]
    split
    · obtain ⟨locked, made⟩ := cancelEntry_locked (s := s) (k := k)
      exact .keep _ (.cancelTaken late rest (requested ++ [k])) unlocking locked rfl made
    · exact .keep [] (.cancelTaken late rest requested) unlocking rfl rfl (by simp)

/-- **How a step uses the mutex**: it leaves it alone, locks it until a later call, keeps
it, or unlocks it. -/
theorem exec_lockStep (ran : FutureGroup.exec thread choice s call = some (s', calls)) :
    LockStep s s' call choice calls := by
  cases call with
  | user => exact user_lockStep ran
  | toVoid k =>
    cases ran
    refine .quiet rfl ?_ (by simp)
    unfold toVoid
    split <;> rfl
  | functionReturn =>
    cases choice with
    | future u =>
      cases ran
      refine .give rfl ?_
      unfold functionReturn
      dsimp only
      split <;> rfl
    | throw =>
      cases ran
      exact .give rfl rfl
    | _ => cases ran
  | cancelEntry k =>
    have made : cancelEntry k s = (s', calls) := Option.some.inj ran
    have locked : (cancelEntry k s).1.locked = s.locked ∧ _ := cancelEntry_locked
    rw [made] at locked
    exact .quiet rfl locked.1 locked.2
  | cancelTaken late rest requested =>
    have made : cancelTaken late requested s rest = (s', calls) := Option.some.inj ran
    have step : LockStep s (cancelTaken late requested s rest).1 (.cancelTaken late rest requested)
      choice (cancelTaken late requested s rest).2 := cancelTaken_lockStep
    rwa [made] at step

/-! ## Who holds the mutex -/

variable {nested nested' : State} {agenda rest made : List NestedCall}

theorem mark_quiet (quiet : ∀ call ∈ calls, unlocks call = false) :
    mark inside calls = calls.map (⟨inside, ·⟩) := by
  induction calls with
  | nil => rfl
  | cons call rest ih =>
    have first := quiet call List.mem_cons_self
    have later : rest.any unlocks = false := by
      simpa using fun call member => quiet call (List.mem_cons_of_mem _ member)
    rw [mark, first, later, ih fun call member => quiet call (List.mem_cons_of_mem _ member)]
    simp

/-- Calls before the one that unlocks, and that one, are made from within. -/
theorem mark_section {above below : List GroupCall} {last : GroupCall}
    (unlocking : unlocks last = true) (quiet : ∀ call ∈ below, unlocks call = false) :
    mark inside (above ++ last :: below) =
      above.map (⟨true, ·⟩) ++ ⟨true, last⟩ :: below.map (⟨inside, ·⟩) := by
  induction above with
  | nil => simp [mark, unlocking, mark_quiet quiet]
  | cons call above ih => simp [mark, unlocking, ih]

/-- A call that is made from outside of the object, and leaves the mutex alone. -/
def Outside (made : NestedCall) : Prop := made.inside = false ∧ unlocks made.call = false

/-- What a thread that holds the mutex still has to do: calls from within, up to the one
that unlocks. -/
structure Holding (agenda : List NestedCall) : Prop where
  split : ∃ above last below, agenda = above ++ last :: below ∧
    (∀ made ∈ above, made.inside = true ∧ unlocks made.call = false) ∧
    last.inside = true ∧ unlocks last.call = true ∧ ∀ made ∈ below, Outside made

/-- Only the holder of the mutex is within a call. -/
structure Placed (thread : ℕ) (s : State) (agenda : List NestedCall) : Prop where
  holding : s.holder = some thread → Holding agenda
  outside : s.holder ≠ some thread → ∀ made ∈ agenda, Outside made

structure Locked (s : State) : Prop where
  held : s.group.locked = s.holder.isSome
  twice : s.lockedTwice = s.nested

/-- The next call of a holder that does not unlock is made from within. -/
theorem Holding.next {made : NestedCall} (holding : Holding (made :: rest))
    (quiet : unlocks made.call = false) :
    made.inside = true ∧ Holding rest := by
  obtain ⟨above, last, below, split, within, marked, unlocking, outside⟩ := holding
  cases above with
  | nil =>
    obtain ⟨rfl, rfl⟩ := List.cons.inj split
    rw [quiet] at unlocking
    cases unlocking
  | cons first above =>
    obtain ⟨rfl, rfl⟩ := List.cons.inj split
    exact ⟨(within _ List.mem_cons_self).1, above, last, below, rfl,
      fun made member => within made (List.mem_cons_of_mem _ member), marked, unlocking, outside⟩

/-- After the call that unlocks, a holder is outside. -/
theorem Holding.last {made : NestedCall} (holding : Holding (made :: rest))
    (unlocking : unlocks made.call = true) : ∀ made ∈ rest, Outside made := by
  obtain ⟨above, last, below, split, within, -, -, outside⟩ := holding
  cases above with
  | nil =>
    obtain ⟨rfl, rfl⟩ := List.cons.inj split
    exact outside
  | cons first above =>
    obtain ⟨rfl, rfl⟩ := List.cons.inj split
    rw [(within _ List.mem_cons_self).2] at unlocking
    cases unlocking

theorem Holding.push {above : List GroupCall} (holding : Holding rest)
    (quiet : ∀ call ∈ above, unlocks call = false) :
    Holding (above.map (⟨true, ·⟩) ++ rest) := by
  obtain ⟨more, last, below, split, within, marked, unlocking, outside⟩ := holding
  refine ⟨above.map (⟨true, ·⟩) ++ more, last, below, by simp [split], ?_, marked, unlocking,
    outside⟩
  intro made member
  rcases List.mem_append.mp member with new | old
  · obtain ⟨call, listed, rfl⟩ := List.mem_map.mp new
    exact ⟨rfl, quiet call listed⟩
  · exact within made old

theorem holding_section {above : List GroupCall} {last : GroupCall}
    (quiet : ∀ call ∈ above, unlocks call = false) (unlocking : unlocks last = true)
    (outside : ∀ made ∈ rest, Outside made) :
    Holding (above.map (⟨true, ·⟩) ++ ⟨true, last⟩ :: rest) := by
  refine ⟨above.map (⟨true, ·⟩), ⟨true, last⟩, rest, rfl, ?_, rfl, unlocking, outside⟩
  intro made member
  obtain ⟨call, listed, rfl⟩ := List.mem_map.mp member
  exact ⟨rfl, quiet call listed⟩

theorem outside_map (quiet : ∀ call ∈ calls, unlocks call = false) :
    ∀ made ∈ calls.map (NestedCall.mk false), Outside made := by
  intro made member
  obtain ⟨call, listed, rfl⟩ := List.mem_map.mp member
  exact ⟨rfl, quiet call listed⟩

theorem Placed.same_holder {other : ℕ} (same : nested'.holder = nested.holder)
    (placed : Placed other nested agenda) : Placed other nested' agenda :=
  ⟨fun held => placed.holding (same ▸ held), fun free => placed.outside (same ▸ free)⟩

/-- Whoever unlocks the mutex holds it. -/
theorem Placed.own (placed : Placed thread nested (⟨inside, call⟩ :: rest))
    (unlocked : unlocks call = true) : nested.holder = some thread := by
  by_contra free
  have quiet := (placed.outside free _ List.mem_cons_self).2
  rw [unlocked] at quiet
  cases quiet

/-! ## Runs -/

/-- What a step does: it locks what the thread holds, or it is one of the object's. -/
theorem exec_spec (ran : exec thread choice nested ⟨inside, call⟩ = some (nested', made)) :
    nested.lockedTwice = false ∧
    ((locks call choice = true ∧ nested.holder = some thread ∧ made = [] ∧
        nested' = { nested with nested := nested.nested || inside, lockedTwice := true }) ∨
      ((locks call choice = true → nested.group.locked = false) ∧ ∃ group calls,
        FutureGroup.exec thread choice nested.group call = some (group, calls) ∧
        made = mark inside calls ∧
        nested' = { nested with
          group
          holder :=
            if group.locked then
              if nested.group.locked then nested.holder else some thread
            else none
          nested := nested.nested || inside && locks call choice })) := by
  simp only [exec] at ran
  split at ran
  · cases ran
  · rename_i once
    refine ⟨by simpa using once, ?_⟩
    split at ran
    · rename_i taken
      obtain ⟨locking, -⟩ := Bool.and_eq_true_iff.mp taken
      split at ran
      · rename_i own
        cases ran
        exact .inl ⟨locking, own, rfl, rfl⟩
      · cases ran
    · rename_i free
      obtain ⟨⟨group, calls⟩, stepped, made⟩ := Option.map_eq_some_iff.mp ran
      cases made
      exact .inr ⟨fun locking => by simpa [locking] using free, group, calls, stepped, rfl, rfl⟩

theorem quiet_of_locks (locking : locks call choice = true) : unlocks call = false := by
  cases call <;> first | rfl | cases locking

/-- The thread that steps, and the others, stay where the mutex says they are. -/
theorem step_placed (locked : Locked nested) (placed : Placed thread nested (⟨inside, call⟩ :: rest))
    (ran : exec thread choice nested ⟨inside, call⟩ = some (nested', made)) :
    Locked nested' ∧ Placed thread nested' (made ++ rest) ∧
      ∀ other ≠ thread, ∀ agenda, Placed other nested agenda → Placed other nested' agenda := by
  obtain ⟨once, ⟨locking, own, rfl, rfl⟩ | ⟨free, group, calls, stepped, rfl, rfl⟩⟩ :=
    exec_spec ran
  · obtain ⟨within, holding⟩ := (placed.holding own).next (quiet_of_locks locking)
    refine ⟨⟨locked.held, by simp [show inside = true from within]⟩, ?_, ?_⟩
    · exact ⟨fun _ => holding, fun lost => absurd own lost⟩
    · exact fun other _ agenda before => before.same_holder (by rfl)
  · have outside (locking : locks call choice = true) : inside = false := by
      have none : nested.holder ≠ some thread := by
        have held := locked.held
        rw [free locking] at held
        intro own
        simp [own] at held
      exact (placed.outside none _ List.mem_cons_self).1
    have twice : nested.lockedTwice = (nested.nested || inside && locks call choice) := by
      cases locking : locks call choice with
      | false => simpa using locked.twice
      | true => simpa [outside locking] using locked.twice
    cases exec_lockStep stepped with
    | quiet quiet same quietly =>
      have holder : (if group.locked then
          if nested.group.locked then nested.holder else some thread else none) =
          nested.holder := by
        rw [same, locked.held]
        cases nested.holder <;> rfl
      refine ⟨⟨?_, twice⟩, ?_, fun other _ agenda before => before.same_holder holder⟩
      · simpa [holder] using same.trans locked.held
      · refine Placed.same_holder holder ⟨fun own => ?_, fun free made member => ?_⟩
        · obtain ⟨within, holding⟩ := (placed.holding own).next quiet
          rw [mark_quiet quietly, show inside = true from within]
          exact holding.push quietly
        · have all := placed.outside free
          rw [mark_quiet quietly, show inside = false from (all _ List.mem_cons_self).1] at member
          rcases List.mem_append.mp member with new | old
          · exact outside_map quietly made new
          · exact all made (List.mem_cons_of_mem _ old)
    | take above below last locking quiet taken unlocking quietly =>
      have unlocked := free locking
      have nobody : nested.holder = none := by
        have held := locked.held
        rw [unlocked] at held
        simpa using held.symm
      have all := placed.outside (by rw [nobody]; simp)
      have before := fun made member => quietly made (List.mem_append_left _ member)
      have after := fun made member => quietly made (List.mem_append_right _ member)
      refine ⟨⟨by simp [taken, unlocked], twice⟩, ⟨fun _ => ?_, fun lost => ?_⟩, ?_⟩
      · rw [mark_section unlocking after, outside locking, List.append_assoc, List.cons_append]
        refine holding_section before unlocking fun made member => ?_
        rcases List.mem_append.mp member with new | old
        · exact outside_map after made new
        · exact all made (List.mem_cons_of_mem _ old)
      · simp [taken, unlocked] at lost
      · intro other different agenda earlier
        refine ⟨fun own => ?_, fun _ => earlier.outside (by rw [nobody]; simp)⟩
        simp only [taken, unlocked, if_true, Bool.false_eq_true, if_false, Option.some.injEq] at own
        exact absurd own.symm different
    | keep above last unlocked same unlocking quietly =>
      have own := placed.own unlocked
      have held : nested.group.locked = true := by rw [locked.held, own]; rfl
      have holder : (if group.locked then
          if nested.group.locked then nested.holder else some thread else none) =
          nested.holder := by simp [same, held]
      refine ⟨⟨?_, twice⟩, ⟨fun _ => ?_, fun lost => ?_⟩,
        fun other _ agenda before => before.same_holder holder⟩
      · simpa [holder] using same.trans locked.held
      · rw [mark_section unlocking (by simp), List.append_assoc]
        exact holding_section quietly unlocking ((placed.holding own).last unlocked)
      · exact absurd (holder.trans own) lost
    | give unlocked given =>
      have own := placed.own unlocked
      refine ⟨⟨by simp [given], twice⟩, ⟨fun held => ?_, fun _ => ?_⟩, ?_⟩
      · simp [given] at held
      · exact (placed.holding own).last unlocked
      · intro other different agenda before
        refine ⟨fun held => by simp [given] at held, fun _ => before.outside ?_⟩
        rw [own]
        simpa using different.symm

variable {config : Config State NestedCall} {token : ℕ → ℕ} {threads : ℕ}

theorem placed_start (agenda : List NestedCall)
    (listed : (start token threads).threads[thread]? = some agenda) :
    Placed thread (start token threads).state agenda := by
  refine ⟨fun held => by simp [start] at held, fun _ made member => ?_⟩
  obtain rfl : agenda = [⟨false, .user⟩] :=
    List.eq_of_mem_replicate (List.mem_of_getElem? listed)
  obtain rfl := List.mem_singleton.mp member
  exact ⟨rfl, rfl⟩

/-- A thread tries to lock a mutex that it holds in exactly those runs in which `run`,
`terminate` or the destructor is called from within such a call: by the function given
to `run`, or by what a cancelation runs. -/
theorem neverLocksTwice_iff (reached : Reachable exec Anything (start token threads) config) :
    NeverLocksTwice config ↔ config.state.nested = false := by
  have locked := (reached.invariant_threads Locked Placed ⟨rfl, rfl⟩
    (fun thread agenda listed => placed_start agenda listed)
    fun _ _ _ _ _ _ _ locked placed _ ran => step_placed locked placed ran).1
  rw [NeverLocksTwice, locked.twice]

/-- `terminate` cancels two tasks, whose continuations call nothing of the object. -/
theorem neverLocksTwice_two : ∃ config : Config State NestedCall,
    (NeverLocksTwice config ↔ config.state.nested = false) ∧
    config.state.nested = false ∧ config.state.group.locked = true ∧
    config.state.group.user 1 = some (.exception .operationCanceled) := by
  have ran : ((start id 1).run exec
      [(0, .run), (0, .return), (0, .future 0), (0, .run), (0, .return), (0, .future 1),
        (0, .terminate), (0, .return), (0, .complete 0 (.exception .operationCanceled)),
        (0, .return), (0, .return), (0, .return), (0, .return),
        (0, .complete 1 (.exception .operationCanceled))]).map (fun config =>
      decide (config.state.nested = false ∧ config.state.group.locked = true ∧
        config.state.group.user 1 = some (.exception .operationCanceled))) = some true := by
    decide
  obtain ⟨config, reached, holds⟩ := reachable_of_replay _ _ ran
  exact ⟨config, neverLocksTwice_iff reached, of_decide_eq_true holds⟩

/-- A task's continuation calls `run` while `terminate` cancels the task. -/
theorem nested_run_locks_twice : ∃ config,
    Reachable exec Anything (start id 1) config ∧ ¬NeverLocksTwice config := by
  have ran : ((start id 1).run exec
      [(0, .run), (0, .return), (0, .future 0), (0, .terminate), (0, .return),
        (0, .run)]).map (fun config => config.state.lockedTwice) = some true := by decide
  obtain ⟨config, reached, twice⟩ := reachable_of_replay _ _ ran
  exact ⟨config, reached, by simp [NeverLocksTwice, twice]⟩

end Tconcurrent.FutureGroup.Nesting
