import Mathlib.Algebra.BigOperators.Group.Multiset.Basic
import Mathlib.Algebra.Order.BigOperators.Group.Multiset
import Mathlib.Algebra.Order.Group.Nat
import Mathlib.Data.Multiset.AddSub
import Mathlib.Tactic.Push

/-! Threads that keep the calls they still have to make on an explicit agenda.

A call runs in one atomic step and names the calls its thread makes next, so
nested and re-entrant calls are a prefix of the agenda and another thread may
step between any two of them.  A choice carried by each step stands for what
the program under study does not decide.  Nothing here knows what a call does. -/
namespace Tconcurrent.Interleaving

variable {σ ι κ : Type}

/-- What one call does on a thread, given a choice of the environment: the next
state and the calls its thread makes before the rest of its agenda.  `none`
means that the call has to wait. -/
abbrev Machine (σ ι κ : Type) := ℕ → κ → σ → ι → Option (σ × List ι)

/-- A shared state and the agenda of every thread, the next call first. -/
structure Config (σ ι : Type) where
  state : σ
  threads : List (List ι)

namespace Config

/-- The call a thread makes next. -/
def call (config : Config σ ι) (thread : ℕ) : Option ι :=
  config.threads[thread]?.bind List.head?

/-- One atomic step of a thread. -/
def next (machine : Machine σ ι κ) (config : Config σ ι) (thread : ℕ) (choice : κ) :
    Option (Config σ ι) :=
  match config.threads[thread]? with
  | some (call :: rest) =>
    (machine thread choice config.state call).map fun (state, calls) =>
      ⟨state, config.threads.set thread (calls ++ rest)⟩
  | _ => none

/-- Every call that some thread still has to make. -/
def pending (config : Config σ ι) : Multiset ι := (config.threads.flatten : List ι)

/-- The configuration in terms of other states and calls. -/
def map {σ' ι' : Type} (f : σ → σ') (g : ι → ι') (config : Config σ ι) : Config σ' ι' :=
  ⟨f config.state, config.threads.map (List.map g)⟩

/-- Threads that all begin with the same call. -/
theorem pending_replicate (state : σ) (threads : ℕ) (call : ι) :
    Config.pending ⟨state, List.replicate threads [call]⟩ = Multiset.replicate threads call := by
  have flat : (List.replicate threads [call]).flatten = List.replicate threads call := by
    induction threads with
    | zero => rfl
    | succ threads ih =>
      rw [List.replicate_succ, List.replicate_succ, List.flatten_cons, ih]
      rfl
  rw [Config.pending, flat, Multiset.coe_replicate]

/-- The steps of a list in order, each of which is permitted. -/
def runWithin (machine : Machine σ ι κ) (permits : σ → ι → κ → Bool) :
    Config σ ι → List (ℕ × κ) → Option (Config σ ι)
  | config, [] => some config
  | config, (thread, choice) :: rest =>
    if (config.call thread).all (permits config.state · choice) then
      (config.next machine thread choice).bind (runWithin machine permits · rest)
    else none

/-- The steps of a list, in order. -/
def run (machine : Machine σ ι κ) (config : Config σ ι) (steps : List (ℕ × κ)) :
    Option (Config σ ι) :=
  config.runWithin machine (fun _ _ _ => true) steps

theorem flatten_set (threads : List (List ι)) (thread : ℕ) (call : ι)
    (rest calls : List ι) (current : threads[thread]? = some (call :: rest)) :
    ∃ others : Multiset ι, (threads.flatten : Multiset ι) = call ::ₘ others ∧
      ((threads.set thread (calls ++ rest)).flatten : Multiset ι) = ↑calls + others := by
  induction threads generalizing thread with
  | nil => simp at current
  | cons agenda threads ih =>
    cases thread with
    | zero =>
      simp only [List.getElem?_cons_zero, Option.some.injEq] at current
      subst current
      exact ⟨↑(rest ++ threads.flatten), by simp, by simp [List.append_assoc]⟩
    | succ thread =>
      obtain ⟨others, before, after⟩ := ih thread (by simpa using current)
      refine ⟨↑agenda + others, ?_, ?_⟩
      · rw [List.flatten_cons, ← Multiset.coe_add, before, Multiset.add_cons]
      · rw [List.set_cons_succ, List.flatten_cons, ← Multiset.coe_add, after, ← add_assoc, ← add_assoc,
          add_comm (agenda : Multiset ι)]

/-- A step takes one pending call and replaces it by the calls it makes. -/
theorem next_spec {machine : Machine σ ι κ} {config config' : Config σ ι} {thread : ℕ}
    {choice : κ} (stepped : config.next machine thread choice = some config') :
    ∃ (call : ι) (calls : List ι) (others : Multiset ι), config.call thread = some call ∧
      config.pending = call ::ₘ others ∧ config'.pending = ↑calls + others ∧
      machine thread choice config.state call = some (config'.state, calls) := by
  unfold next at stepped
  split at stepped
  · rename_i call rest current
    obtain ⟨⟨state, calls⟩, ran, rfl⟩ := Option.map_eq_some_iff.mp stepped
    obtain ⟨others, before, after⟩ := flatten_set config.threads thread call rest calls current
    exact ⟨call, calls, others, by simp [Config.call, current], before, after, ran⟩
  · cases stepped

end Config

/-- The configurations reached from `start` by steps whose calls are allowed
in the state they start from. -/
inductive Reachable (machine : Machine σ ι κ) (allowed : σ → ι → κ → Prop)
    (start : Config σ ι) : Config σ ι → Prop where
  | start : Reachable machine allowed start start
  | next {config config' : Config σ ι} {thread : ℕ} {choice : κ} :
      Reachable machine allowed start config →
      (∀ call, config.call thread = some call → allowed config.state call choice) →
      config.next machine thread choice = some config' →
      Reachable machine allowed start config'

/-- Every step is allowed. -/
abbrev Anything : σ → ι → κ → Prop := fun _ _ _ => True

variable {machine : Machine σ ι κ} {allowed : σ → ι → κ → Prop} {start config : Config σ ι}

/-- **The invariant rule.**  What holds at the start, and is kept when any one
pending call runs, holds of every reachable state and its pending calls. -/
theorem Reachable.invariant (Inv : σ → Multiset ι → Prop)
    (reached : Reachable machine allowed start config)
    (initial : Inv start.state start.pending)
    (step : ∀ thread choice state call others state' (calls : List ι),
      Inv state (call ::ₘ others) → allowed state call choice →
      machine thread choice state call = some (state', calls) → Inv state' (↑calls + others)) :
    Inv config.state config.pending := by
  induction reached with
  | start => exact initial
  | next _ permitted stepped ih =>
    obtain ⟨call, calls, others, current, before, after, ran⟩ := Config.next_spec stepped
    rw [before] at ih
    rw [after]
    exact step _ _ _ call others _ calls ih (permitted call current) ran

/-- The invariant rule for a single thread, whose agenda is a list. -/
theorem Reachable.invariant_agenda {state : σ} {agenda : List ι} (Inv : σ → List ι → Prop)
    (reached : Reachable machine allowed ⟨state, [agenda]⟩ config) (initial : Inv state agenda)
    (step : ∀ thread choice state call rest state' (calls : List ι),
      Inv state (call :: rest) → allowed state call choice →
      machine thread choice state call = some (state', calls) → Inv state' (calls ++ rest)) :
    ∃ agenda', config.threads = [agenda'] ∧ Inv config.state agenda' := by
  induction reached with
  | start => exact ⟨agenda, rfl, initial⟩
  | @next before after thread choice _ permitted stepped ih =>
    obtain ⟨agenda', threads, kept⟩ := ih
    unfold Config.next at stepped
    split at stepped
    · rename_i call rest current
      obtain ⟨⟨state', calls⟩, ran, rfl⟩ := Option.map_eq_some_iff.mp stepped
      rw [threads] at current
      obtain ⟨bound, same⟩ := List.getElem?_eq_some_iff.mp current
      obtain rfl : thread = 0 := by simpa using bound
      simp only [List.getElem_cons_zero] at same
      subst same
      refine ⟨calls ++ rest, by simp [threads], ?_⟩
      refine step _ _ _ call rest _ calls kept (permitted call ?_) ran
      simp [Config.call, threads]
    · cases stepped

/-- The invariant rule for what holds of the state and, thread by thread, of the agendas. -/
theorem Reachable.invariant_threads (Inv : σ → Prop) (Local : ℕ → σ → List ι → Prop)
    (reached : Reachable machine allowed start config) (initial : Inv start.state)
    (initially : ∀ thread agenda, start.threads[thread]? = some agenda →
      Local thread start.state agenda)
    (step : ∀ thread choice state call rest state' (calls : List ι), Inv state →
      Local thread state (call :: rest) → allowed state call choice →
      machine thread choice state call = some (state', calls) →
      Inv state' ∧ Local thread state' (calls ++ rest) ∧
        ∀ other ≠ thread, ∀ agenda, Local other state agenda → Local other state' agenda) :
    Inv config.state ∧ ∀ thread agenda, config.threads[thread]? = some agenda →
      Local thread config.state agenda := by
  induction reached with
  | start => exact ⟨initial, initially⟩
  | @next before after thread choice _ permitted stepped ih =>
    obtain ⟨holds, locally⟩ := ih
    unfold Config.next at stepped
    split at stepped
    · rename_i call rest current
      obtain ⟨⟨state', calls⟩, ran, rfl⟩ := Option.map_eq_some_iff.mp stepped
      obtain ⟨kept, own, others⟩ := step thread choice _ call rest state' calls holds
        (locally thread _ current) (permitted call (by simp [Config.call, current])) ran
      refine ⟨kept, fun other agenda listed => ?_⟩
      by_cases same : other = thread
      · subst same
        rw [List.getElem?_set_self (List.getElem?_eq_some_iff.mp current).1] at listed
        obtain rfl := Option.some.inj listed
        exact own
      · rw [List.getElem?_set_ne (Ne.symm same)] at listed
        exact others other same agenda (locally other agenda listed)
    · cases stepped

/-- The invariant rule for what holds of the state and of every agenda, where a step may
rely on what is known of the configurations that are reached. -/
theorem Reachable.invariant_agendas (Inv : σ → Prop) (Local : σ → List ι → Prop)
    (reached : Reachable machine allowed start config) (initial : Inv start.state)
    (initially : ∀ agenda ∈ start.threads, Local start.state agenda)
    (step : ∀ (config : Config σ ι) thread choice call rest state' (calls : List ι),
      Reachable machine allowed start config →
      config.threads[thread]? = some (call :: rest) → allowed config.state call choice →
      machine thread choice config.state call = some (state', calls) → Inv config.state →
      (∀ agenda ∈ config.threads, Local config.state agenda) →
      Inv state' ∧ Local state' (calls ++ rest) ∧
        ∀ other ≠ thread, ∀ agenda, config.threads[other]? = some agenda → Local state' agenda) :
    Inv config.state ∧ ∀ agenda ∈ config.threads, Local config.state agenda := by
  induction reached with
  | start => exact ⟨initial, initially⟩
  | @next before after thread choice earlier permitted stepped ih =>
    obtain ⟨holds, locally⟩ := ih
    unfold Config.next at stepped
    split at stepped
    · rename_i call rest current
      obtain ⟨⟨state', calls⟩, ran, rfl⟩ := Option.map_eq_some_iff.mp stepped
      obtain ⟨kept, own, others⟩ := step before thread choice call rest state' calls earlier current
        (permitted call (by simp [Config.call, current])) ran holds locally
      refine ⟨kept, fun agenda member => ?_⟩
      obtain ⟨other, inside, rfl⟩ := List.getElem_of_mem member
      have bound : other < before.threads.length := by simpa using inside
      by_cases same : other = thread
      · subst same
        simpa using own
      · simp only [List.getElem_set_ne (Ne.symm same)]
        exact others other same _ (List.getElem?_eq_getElem bound)
    · cases stepped

/-- Threads that make no calls: each step is an action that the choice names. -/
def ofActions (step : κ → σ → Option σ) : Machine σ Unit κ :=
  fun _ action state _ => (step action state).map fun state => (state, [()])

/-- The invariant rule for actions. -/
theorem Reachable.invariant_actions {step : κ → σ → Option σ} {allowed : σ → Unit → κ → Prop}
    {start config : Config σ Unit} (Inv : σ → Prop)
    (reached : Reachable (ofActions step) allowed start config) (initial : Inv start.state)
    (kept : ∀ action state state', Inv state → allowed state () action →
      step action state = some state' → Inv state') : Inv config.state := by
  apply reached.invariant (fun state _ => Inv state) initial
  intro thread action state call others state' calls holds permitted ran
  obtain ⟨next, stepped, same⟩ := Option.map_eq_some_iff.mp ran
  cases same
  exact kept action state state' holds permitted stepped

theorem Reachable.trans {middle : Config σ ι} (first : Reachable machine allowed start middle)
    (second : Reachable machine allowed middle config) :
    Reachable machine allowed start config := by
  induction second with
  | start => exact first
  | next _ permitted stepped ih => exact .next ih permitted stepped

/-- Fewer restrictions reach at least as much. -/
theorem Reachable.mono {wider : σ → ι → κ → Prop}
    (weaker : ∀ state call choice, allowed state call choice → wider state call choice)
    (reached : Reachable machine allowed start config) :
    Reachable machine wider start config := by
  induction reached with
  | start => exact .start
  | next _ permitted stepped ih =>
    exact .next ih (fun call current => weaker _ _ _ (permitted call current)) stepped

/-- **The simulation rule.**  If each step of a machine is one of another machine in terms of
the images of its states and calls, or changes nothing there, then the image of every run is one. -/
theorem Reachable.simulates {σ' ι' κ' : Type} {machine' : Machine σ' ι' κ'}
    {allowed' : σ' → ι' → κ' → Prop} (f : σ → σ') (g : ι → ι')
    (step : ∀ thread choice state call state' calls, allowed state call choice →
      machine thread choice state call = some (state', calls) →
      (f state' = f state ∧ calls.map g = [g call]) ∨
      ∃ choice', allowed' (f state) (g call) choice' ∧
        machine' thread choice' (f state) (g call) = some (f state', calls.map g))
    (reached : Reachable machine allowed start config) :
    Reachable machine' allowed' (start.map f g) (config.map f g) := by
  induction reached with
  | start => exact .start
  | @next before after thread choice _ permitted stepped ih =>
    unfold Config.next at stepped
    split at stepped
    · rename_i call rest current
      obtain ⟨⟨state', calls⟩, ran, rfl⟩ := Option.map_eq_some_iff.mp stepped
      have mapped : (before.map f g).threads[thread]? = some (g call :: rest.map g) := by
        simp [Config.map, current]
      rcases step thread choice _ call state' calls
        (permitted call (by simp [Config.call, current])) ran with
        ⟨same, again⟩ | ⟨choice', permitted', ran'⟩
      · have unchanged : (before.map f g).threads.set thread (g call :: rest.map g) =
            (before.map f g).threads := by
          obtain ⟨bound, here⟩ := List.getElem?_eq_some_iff.mp mapped
          rw [← here, List.set_getElem_self]
        have image : Config.map f g ⟨state', before.threads.set thread (calls ++ rest)⟩ =
            before.map f g := by
          simp only [Config.map, List.map_set, List.map_append, again, same] at unchanged ⊢
          rw [List.singleton_append, unchanged]
        rw [image]
        exact ih
      · refine @Reachable.next _ _ _ machine' allowed' (start.map f g) (before.map f g) _ thread
          choice' ih (fun call' current' => ?_) ?_
        · simp only [Config.call, mapped, Option.bind_some, List.head?_cons, Option.some.injEq]
            at current'
          exact current' ▸ permitted'
        · rw [Config.next, mapped]
          simp [ran', Config.map, List.map_set]
    · cases stepped

/-- The rule for a machine that takes the same steps. -/
theorem Reachable.simulated {σ' ι' κ' : Type} {machine' : Machine σ' ι' κ'}
    {allowed' : σ' → ι' → κ' → Prop} (f : σ → σ') (g : ι → ι')
    (step : ∀ thread choice state call state' calls, allowed state call choice →
      machine thread choice state call = some (state', calls) →
      ∃ choice', allowed' (f state) (g call) choice' ∧
        machine' thread choice' (f state) (g call) = some (f state', calls.map g))
    (reached : Reachable machine allowed start config) :
    Reachable machine' allowed' (start.map f g) (config.map f g) :=
  reached.simulates f g fun thread choice state call state' calls permitted ran =>
    .inr (step thread choice state call state' calls permitted ran)

/-- A step of a thread that is alone. -/
theorem Reachable.step_alone {state state' : σ} {call : ι} {rest calls : List ι} {choice : κ}
    (permitted : allowed state call choice)
    (ran : machine 0 choice state call = some (state', calls)) :
    Reachable machine allowed ⟨state, [call :: rest]⟩ ⟨state', [calls ++ rest]⟩ := by
  refine @Reachable.next _ _ _ machine allowed _ _ _ 0 choice .start (fun other current => ?_) ?_
  · cases current
    exact permitted
  · simp [Config.next, ran]

/-- A replayed list of steps reaches the configuration it ends in. -/
theorem reachable_of_runWithin {permits : σ → ι → κ → Bool} {steps : List (ℕ × κ)}
    (sound : ∀ state call choice, permits state call choice = true → allowed state call choice)
    (ran : start.runWithin machine permits steps = some config) :
    Reachable machine allowed start config := by
  induction steps generalizing start with
  | nil =>
    cases ran
    exact .start
  | cons step steps ih =>
    simp only [Config.runWithin] at ran
    split at ran
    · rename_i permitted
      obtain ⟨middle, stepped, rest⟩ := Option.bind_eq_some_iff.mp ran
      refine (Reachable.next .start (fun call current => ?_) stepped).trans (ih rest)
      rw [current] at permitted
      exact sound _ _ _ permitted
    · cases ran

/-- Replaying a list of permitted steps decides what is true where it ends. -/
theorem reachable_of_replay_within {permits : σ → ι → κ → Bool}
    (sound : ∀ state call choice, permits state call choice = true → allowed state call choice)
    (holds : Config σ ι → Bool) (steps : List (ℕ × κ))
    (ran : (start.runWithin machine permits steps).map holds = some true) :
    ∃ config, Reachable machine allowed start config ∧ holds config = true := by
  obtain ⟨config, reached, held⟩ := Option.map_eq_some_iff.mp ran
  exact ⟨config, reachable_of_runWithin sound reached, held⟩

/-- Replaying a list of steps decides what is true where it ends. -/
theorem reachable_of_replay (holds : Config σ ι → Bool) (steps : List (ℕ × κ))
    (ran : (start.run machine steps).map holds = some true) :
    ∃ config, Reachable machine Anything start config ∧ holds config = true :=
  reachable_of_replay_within (fun _ _ _ _ => trivial) holds steps ran

/-- After a step there are the calls it makes and the others. -/
theorem mem_after {P : ι → Prop} {calls : List ι} {others : Multiset ι}
    (made : ∀ call ∈ calls, P call) (other : ∀ call ∈ others, P call) :
    ∀ call ∈ (↑calls + others : Multiset ι), P call := by
  intro call member
  rcases Multiset.mem_add.mp member with member | member
  · exact made call (Multiset.mem_coe.mp member)
  · exact other call member

/-- Calls that may be made anywhere do no harm around those of a step. -/
theorem around (Inv : Multiset ι → Prop) {before after calls : List ι} {others : Multiset ι}
    (harmless : ∀ call ∈ before ++ after, ∀ pending, Inv pending → Inv (call ::ₘ pending))
    (inside : Inv (↑calls + others)) : Inv (↑(before ++ calls ++ after) + others) := by
  have ahead : ∀ (more : List ι) (pending : Multiset ι), (∀ call ∈ more, call ∈ before ++ after) →
      Inv pending → Inv (↑more + pending) := by
    intro more pending listed kept
    induction more with
    | nil => simpa using kept
    | cons call more ih =>
      rw [← Multiset.cons_coe, Multiset.cons_add]
      exact harmless call (listed call List.mem_cons_self) _
        (ih fun call member => listed call (List.mem_cons_of_mem _ member))
  have same : (↑(before ++ calls ++ after) : Multiset ι) + others =
      ↑before + (↑after + (↑calls + others)) := by
    rw [← Multiset.coe_add, ← Multiset.coe_add, add_assoc, add_assoc, add_left_comm (calls : Multiset ι)]
  rw [same]
  apply ahead before _ (fun call member => List.mem_append_left _ member)
  exact ahead after _ (fun call member => List.mem_append_right _ member) inside

/-! ## Weighing the pending calls -/

/-- The total weight of a collection of calls. -/
def weight (measure : ι → ℕ) (calls : Multiset ι) : ℕ := (calls.map measure).sum

variable {measure : ι → ℕ} {call : ι} {calls others : Multiset ι}

@[simp] theorem weight_zero : weight measure 0 = 0 := rfl

@[simp] theorem weight_cons : weight measure (call ::ₘ others) = measure call + weight measure others := by
  simp [weight]

@[simp] theorem weight_add : weight measure (calls + others) = weight measure calls + weight measure others := by
  simp [weight]

@[simp] theorem weight_nil_coe : weight measure (([] : List ι) : Multiset ι) = 0 := rfl

@[simp] theorem weight_cons_coe {tail : List ι} :
    weight measure ((call :: tail : List ι) : Multiset ι) = measure call + weight measure (tail : Multiset ι) := by
  simp [weight]

@[simp] theorem weight_singleton : weight measure {call} = measure call := by simp [weight]

theorem measure_le_weight (measure : ι → ℕ) (member : call ∈ calls) : measure call ≤ weight measure calls :=
  Multiset.single_le_sum (fun _ _ => Nat.zero_le _) _ (Multiset.mem_map_of_mem measure member)

theorem exists_of_weight_pos (positive : 0 < weight measure calls) :
    ∃ call ∈ calls, 0 < measure call := by
  by_contra none
  push Not at none
  have empty : weight measure calls = 0 := Multiset.sum_eq_zero fun value member => by
    obtain ⟨call, held, rfl⟩ := Multiset.mem_map.mp member
    exact Nat.le_zero.mp (none call held)
  omega

/-! ## A lock held over several steps -/

/-- How a lock shows on the agendas: the calls that will release it, and the
calls that are made only at the bottom of an agenda. -/
structure LockUse (σ ι : Type) where
  /-- How often a thread holds the lock. -/
  held : σ → ℕ → ℕ
  /-- How often a call releases it more than it acquires it. -/
  releases : ι → ℕ
  bottom : ι → Prop

namespace LockUse

variable (lock : LockUse σ ι)

/-- One call of a thread does with the lock what its agenda says. -/
structure Respected (thread : ℕ) (state state' : σ) (call : ι) (calls : List ι) : Prop where
  own : lock.held state' thread + lock.releases call =
    lock.held state thread + weight lock.releases (calls : Multiset ι)
  others : ∀ other ≠ thread, lock.held state' other = lock.held state other
  below : calls.Pairwise fun call later => lock.bottom call → lock.releases later = 0
  kept : ∀ later ∈ calls, lock.bottom later → lock.bottom call

/-- The agendas account for every hold of the lock. -/
structure Balanced (config : Config σ ι) : Prop where
  held : ∀ thread, lock.held config.state thread =
    weight lock.releases ((config.threads[thread]?.getD [] : List ι) : Multiset ι)
  below : ∀ agenda ∈ config.threads,
    agenda.Pairwise fun call later => lock.bottom call → lock.releases later = 0

variable {lock}

private theorem weight_append {calls rest : List ι} :
    weight measure ((calls ++ rest : List ι) : Multiset ι) =
      weight measure (calls : Multiset ι) + weight measure (rest : Multiset ι) := by
  rw [← Multiset.coe_add, weight_add]

theorem Balanced.next {config' : Config σ ι} {thread : ℕ} {choice : κ}
    (balanced : lock.Balanced config) (stepped : config.next machine thread choice = some config')
    (respected : ∀ call calls, config.call thread = some call →
      lock.releases call ≤ lock.held config.state thread →
      machine thread choice config.state call = some (config'.state, calls) →
      lock.Respected thread config.state config'.state call calls) :
    lock.Balanced config' := by
  unfold Config.next at stepped
  split at stepped
  · rename_i call rest current
    obtain ⟨⟨state, calls⟩, ran, rfl⟩ := Option.map_eq_some_iff.mp stepped
    obtain ⟨inside, agenda⟩ := List.getElem?_eq_some_iff.mp current
    have before := balanced.held thread
    rw [current, Option.getD_some, weight_cons_coe] at before
    have does := respected call calls (by simp [Config.call, current]) (by omega) ran
    have order := balanced.below _ (List.mem_of_getElem? current)
    rw [List.pairwise_cons] at order
    refine ⟨fun other => ?_, fun agenda member => ?_⟩
    · by_cases same : other = thread
      · subst same
        have own := does.own
        simp only [List.getElem?_set_self inside, Option.getD_some, weight_append]
        simp only at own
        omega
      · rw [does.others other same, balanced.held other,
          List.getElem?_set_ne (Ne.symm same)]
    · rcases List.mem_or_eq_of_mem_set member with old | rfl
      · exact balanced.below agenda old
      · refine List.pairwise_append.mpr ⟨does.below, order.2, fun later first last held low => ?_⟩
        exact order.1 last held (does.kept later first low)
  · cases stepped

/-- A call from the bottom of an agenda that finds the lock free, or held by its
own thread, finds it held by nobody. -/
theorem Balanced.free {thread : ℕ} {call : ι} {others : Multiset ι} (balanced : lock.Balanced config)
    (current : config.call thread = some call) (pending : config.pending = call ::ₘ others)
    (low : lock.bottom call) (quiet : lock.releases call = 0)
    (alone : ∀ other ≠ thread, 0 < lock.held config.state thread ∨ lock.held config.state other = 0) :
    weight lock.releases others = 0 := by
  obtain ⟨agenda, inside, first⟩ := Option.bind_eq_some_iff.mp current
  obtain ⟨rest, rfl⟩ : ∃ rest, agenda = call :: rest := by
    cases agenda with
    | nil => cases first
    | cons head rest => exact ⟨rest, by simpa using first⟩
  have own : lock.held config.state thread = 0 := by
    have order := List.pairwise_cons.mp (balanced.below _ (List.mem_of_getElem? inside))
    rw [balanced.held, inside, Option.getD_some, weight_cons_coe, quiet, zero_add]
    exact Multiset.sum_eq_zero fun value member => by
      obtain ⟨later, held, rfl⟩ := Multiset.mem_map.mp member
      exact order.1 later held low
  have nothing : ∀ agenda ∈ config.threads, weight lock.releases (agenda : Multiset ι) = 0 := by
    intro agenda member
    obtain ⟨other, bound, rfl⟩ := List.getElem_of_mem member
    have count := balanced.held other
    rw [List.getElem?_eq_getElem bound, Option.getD_some] at count
    rw [← count]
    by_cases same : other = thread
    · rw [same, own]
    · rcases alone other same with positive | zero
      · omega
      · exact zero
  have total : weight lock.releases config.pending = 0 := by
    refine Multiset.sum_eq_zero fun value member => ?_
    obtain ⟨later, held, rfl⟩ := Multiset.mem_map.mp member
    obtain ⟨agenda, listed, held⟩ := List.mem_flatten.mp (Multiset.mem_coe.mp held)
    have small := measure_le_weight lock.releases (Multiset.mem_coe.mpr held)
    have zero := nothing agenda listed
    omega
  rw [pending, weight_cons] at total
  omega

end LockUse

variable {lock : LockUse σ ι}

/-- The agendas account for the lock in every reachable configuration. -/
theorem Reachable.balanced (Inv : σ → Multiset ι → Prop)
    (reached : Reachable machine allowed start config) (initial : lock.Balanced start)
    (invariant : ∀ config, Reachable machine allowed start config →
      Inv config.state config.pending)
    (respected : ∀ thread choice state call others state' (calls : List ι),
      Inv state (call ::ₘ others) → lock.releases call ≤ lock.held state thread →
      machine thread choice state call = some (state', calls) →
      lock.Respected thread state state' call calls) :
    lock.Balanced config := by
  induction reached with
  | start => exact initial
  | next earlier _ stepped ih =>
    refine ih.next stepped fun call calls current holds ran => ?_
    obtain ⟨call', _, others, current', before, -, -⟩ := Config.next_spec stepped
    obtain rfl : call = call' := Option.some.inj (current.symm.trans current')
    have kept := invariant _ earlier
    rw [before] at kept
    exact respected _ _ _ _ others _ _ kept holds ran

/-- The invariant rule where a step may rely on what a lock excludes: a call from
the bottom of an agenda that takes the lock leaves no other call inside it. -/
theorem Reachable.invariant_locked (Inv : σ → Multiset ι → Prop)
    (reached : Reachable machine allowed start config)
    (balanced : ∀ config, Reachable machine allowed start config → lock.Balanced config)
    (initial : Inv start.state start.pending)
    (step : ∀ thread choice state call others state' (calls : List ι),
      Inv state (call ::ₘ others) → allowed state call choice →
      (lock.bottom call → lock.releases call = 0 →
        (∀ other ≠ thread, 0 < lock.held state thread ∨ lock.held state other = 0) →
        weight lock.releases others = 0) →
      machine thread choice state call = some (state', calls) → Inv state' (↑calls + others)) :
    Inv config.state config.pending := by
  induction reached with
  | start => exact initial
  | next earlier permitted stepped ih =>
    obtain ⟨call, calls, others, current, before, after, ran⟩ := Config.next_spec stepped
    have free := (balanced _ earlier).free current before
    rw [before] at ih
    rw [after]
    exact step _ _ _ call others _ calls ih (permitted call current) free ran

end Tconcurrent.Interleaving
