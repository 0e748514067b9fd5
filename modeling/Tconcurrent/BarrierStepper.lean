import Tconcurrent.Interleaving
import Tconcurrent.Monitor

/-! `barrier` and `stepper`: threads that meet, and threads that take turns. -/
namespace Tconcurrent.BarrierStepper
open Monitor

/-! ## `barrier` -/

/-- Where a thread is in the call of a barrier. -/
inductive Phase where
  | arriving
  /-- In `_cond.wait`. -/
  | waiting
  | passed
  deriving DecidableEq

/-- `barrier::operator()`.  The state is `_waiting`. -/
def barrier (target : ℕ) : Code Phase ℕ
  | .arriving, waiting =>
    let waiting := waiting + 1
    let done := waiting = target
    if done then some (.leave .passed waiting .all) else some (.wait .waiting waiting)
  | .waiting, waiting =>
    if waiting = target then some (.leave .passed waiting .none) else some (.wait .waiting waiting)
  | .passed, _ => none

/-- So many threads call the barrier. -/
def calls (n : ℕ) : Config Phase ℕ := ⟨0, List.replicate n (.outside .arriving)⟩

variable {target n : ℕ} {config : Config Phase ℕ}

theorem barrier_blocked {waiting : ℕ} {t : Phase} :
    Blocked (barrier target) waiting t ↔ t = .waiting ∧ waiting ≠ target := by
  cases t with
  | arriving =>
    simp only [Blocked, barrier]
    split <;> simp
  | waiting =>
    simp only [Blocked, barrier]
    split <;> simp_all
  | passed => simp [Blocked, barrier]

/-- What a thread does in the barrier. -/
theorem barrier_entered {waiting waiting' : ℕ} {t t' : Phase}
    (entered : Entered (barrier target) t waiting t' waiting') :
    waiting' = waiting + (if t = .arriving then 1 else 0) ∧ t' ≠ .arriving ∧
      (t' = .passed → waiting' = target) := by
  cases entered with
  | wait ran =>
    cases t with
    | arriving | waiting =>
      simp only [barrier] at ran
      split at ran <;> cases ran
      simp
    | passed => cases ran
  | leave ran =>
    cases t with
    | arriving | waiting =>
      simp only [barrier] at ran
      split at ran <;> cases ran
      simp_all
    | passed => cases ran

theorem barrier_announces : Announces (barrier target) where
  wait {t t' waiting waiting'} ran := by
    simp only [barrier_blocked]
    cases t with
    | arriving | waiting =>
      simp only [barrier] at ran
      split at ran
      · cases ran
      · rename_i unmet
        cases ran
        exact ⟨⟨rfl, unmet⟩, fun u blocked => ⟨blocked.1, unmet⟩⟩
    | passed => cases ran
  leave {t t' waiting waiting' notify} ran := by
    cases t with
    | arriving | waiting =>
      simp only [barrier] at ran
      split at ran <;> cases ran
      simp
    | passed => cases ran

/-- `_waiting` counts the threads that have arrived, and they pass when all have. -/
structure BarrierInv (target n waiting : ℕ) (states : List Phase) : Prop where
  counted : waiting + states.count .arriving = n
  met : .passed ∈ states → waiting = target

theorem barrier_inv (le : n ≤ target) (reached : Reachable (barrier target) (calls n) config) :
    BarrierInv target n config.shared config.states := by
  refine reached.invariant (BarrierInv target n) ⟨?_, ?_⟩ ?_
  · simp [calls, Config.states, Thread.state]
  · simp [calls, Config.states, Thread.state]
  · intro waiting states i t t' waiting' inv at_i entered
    obtain ⟨bound, rfl⟩ := List.getElem?_eq_some_iff.mp at_i
    obtain ⟨rfl, later, met⟩ := barrier_entered entered
    have counted := inv.counted
    have some : states[i] = .arriving → 0 < states.count .arriving :=
      fun arriving => List.count_pos_iff.mpr (arriving ▸ List.getElem_mem bound)
    refine ⟨?_, fun passed => ?_⟩
    · rw [List.count_set bound]
      split <;> rename_i arriving <;> simp_all
    · rcases List.mem_or_eq_of_mem_set passed with before | same
      · have all := inv.met before
        split
        · rename_i arriving
          have pos := some arriving
          omega
        · exact all
      · exact met same.symm

/-- Every thread leaves the barrier once. -/
def Phase.left : Phase → ℕ
  | .arriving | .waiting => 1
  | .passed => 0

theorem barrier_advances : Advances (barrier target) Phase.left where
  wait {t t' waiting waiting'} ran := by
    cases t with
    | arriving | waiting =>
      simp only [barrier] at ran
      split at ran <;> cases ran
      exact le_refl 1
    | passed => cases ran
  leave {t t' waiting waiting' notify} ran := by
    cases t with
    | arriving | waiting =>
      simp only [barrier] at ran
      split at ran <;> cases ran
      exact Nat.zero_lt_one
    | passed => cases ran

theorem calls_weight : (calls n).weight Phase.left = n * (n + 4) := by
  simp [calls, Config.weight, Thread.weight, Phase.left]

/-- **A barrier** lets nobody pass before its target is reached, and then everybody: its calls
cannot get stuck, and come to an end unless threads keep waking up by themselves. -/
theorem barrier_meets {actions : List Action} (le : n ≤ target)
    (ran : (calls n).run (barrier target) actions = some config) :
    config.shared ≤ target ∧
      (.passed ∈ config.states → n = target ∧ .arriving ∉ config.states) ∧
      (config.Quiet (barrier target) → ∀ t ∈ config.states,
        t = if n = target then .passed else .waiting) ∧
      actions.length ≤ n * (n + 4) + 2 * actions.countP (·.isWake) := by
  have reached := reachable_of_run ran
  have inv := barrier_inv le reached
  have counted := inv.counted
  have met (passed : .passed ∈ config.states) : n = target ∧ .arriving ∉ config.states := by
    have all := inv.met passed
    refine ⟨by omega, fun member => ?_⟩
    have some := List.count_pos_iff.mpr member
    omega
  refine ⟨by omega, met, fun quiet t member => ?_, calls_weight ▸ length_le barrier_advances ran⟩
  have told : Told (barrier target) config := by
    refine reached.told_of_all barrier_announces ?_ ?_
    · intro t t' s s' notify ran
      cases t with
      | arriving | waiting =>
        simp only [barrier] at ran
        split at ran <;> cases ran
        simp
      | passed => cases ran
    · intro thread member
      exact ⟨_, List.eq_of_mem_replicate member⟩
  have arrived : .arriving ∉ config.states := by
    intro member
    rcases told.state_quiet quiet member with finished | blocked
    · simp only [barrier] at finished
      split at finished <;> cases finished
    · cases (barrier_blocked.mp blocked).1
  rcases told.state_quiet quiet member with finished | blocked
  · cases t with
    | arriving | waiting =>
      simp only [barrier] at finished
      split at finished <;> cases finished
    | passed => rw [if_pos (met member).1]
  · obtain ⟨rfl, unmet⟩ := barrier_blocked.mp blocked
    rw [if_neg]
    rintro rfl
    rw [List.count_eq_zero_of_not_mem arrived, add_zero] at counted
    exact unmet counted

/-- Two threads have met. -/
def haveMet : Config Phase ℕ := ⟨2, [.outside .passed, .outside .passed]⟩

theorem haveMet_of_run : (calls 2).run (barrier 2)
    [.run 0, .run 1, .notify 1 none, .run 0, .notify 0 none] = some haveMet := rfl

theorem haveMet_passed : .passed ∈ haveMet.states ∧ .arriving ∉ haveMet.states :=
  ⟨List.mem_cons_self, ((barrier_meets (le_refl 2) haveMet_of_run).2.1 List.mem_cons_self).2⟩

/-! ## `stepper` -/

structure Stepper where
  nextStep : ℕ := 1
  /-- The steps that were taken, in order. -/
  taken : List ℕ := []
  deriving DecidableEq

/-- `stepper::operator()`, which a thread calls with one step after the other. -/
def stepper : Code (List ℕ) Stepper
  | [], _ => none
  | step :: steps, s =>
    if step ≤ s.nextStep then
      some (.leave steps ⟨s.nextStep + 1, s.taken ++ [step]⟩ .all)
    else some (.wait (step :: steps) s)

/-- Each thread calls the stepper with its own steps. -/
def programs (steps : List (List ℕ)) : Config (List ℕ) Stepper := ⟨{}, steps.map .outside⟩

theorem stepper_blocked {s : Stepper} {steps : List ℕ} :
    Blocked stepper s steps ↔ ∃ step rest, steps = step :: rest ∧ s.nextStep < step := by
  cases steps with
  | nil => simp [Blocked, stepper]
  | cons step rest =>
    simp only [Blocked, stepper]
    split
    · rename_i le
      simpa using le
    · rename_i lt
      simpa using lt

theorem stepper_announces : Announces stepper where
  wait {steps steps' s s'} ran := by
    cases steps with
    | nil => cases ran
    | cons step rest =>
      have waits := ran
      simp only [stepper] at ran
      split at ran <;> cases ran
      exact ⟨waits, fun _ => id⟩
  leave {steps steps' s s' notify} ran := by
    cases steps with
    | nil => cases ran
    | cons step rest =>
      simp only [stepper] at ran
      split at ran <;> cases ran
      simp

theorem stepper_advances : Advances stepper List.length where
  wait {steps steps' s s'} ran := by
    cases steps with
    | nil => cases ran
    | cons step rest =>
      simp only [stepper] at ran
      split at ran <;> cases ran
      exact le_refl _
  leave {steps steps' s s' notify} ran := by
    cases steps with
    | nil => cases ran
    | cons step rest =>
      simp only [stepper] at ran
      split at ran <;> cases ran
      exact Nat.lt_succ_self _

/-- The steps up to the next one were taken in order, and the rest is still to be taken. -/
structure StepperInv (n : ℕ) (s : Stepper) (states : List (List ℕ)) : Prop where
  taken : s.taken = List.range' 1 s.taken.length
  next : s.nextStep = s.taken.length + 1
  bound : s.taken.length ≤ n
  left : (states.flatten : Multiset ℕ) = List.range' s.nextStep (n - s.taken.length)
  sorted : ∀ steps ∈ states, steps.Pairwise (· < ·)

variable {steps : List (List ℕ)} {turns : Config (List ℕ) Stepper}

theorem stepper_inv (sorted : ∀ program ∈ steps, program.Pairwise (· < ·))
    (each : steps.flatten.Perm (List.range' 1 n))
    (reached : Reachable stepper (programs steps) turns) :
    StepperInv n turns.shared turns.states := by
  have starts : (programs steps).states = steps := by
    simp [programs, Config.states, Function.comp_def, Thread.state]
  refine reached.invariant (StepperInv n) ⟨rfl, rfl, ?_, ?_, ?_⟩ ?_
  · exact Nat.zero_le n
  · rw [starts]
    exact Multiset.coe_eq_coe.mpr each
  · rwa [starts]
  · intro s states i program program' s' inv at_i entered
    obtain ⟨bound, at_i'⟩ := List.getElem?_eq_some_iff.mp at_i
    cases entered with
    | wait ran =>
      cases program with
      | nil => cases ran
      | cons step rest =>
        simp only [stepper] at ran
        split at ran <;> cases ran
        rwa [← at_i', List.set_getElem_self]
    | leave ran =>
      cases program with
      | nil => cases ran
      | cons step rest =>
        simp only [stepper] at ran
        split at ran <;> cases ran
        rename_i le
        obtain ⟨taken, next, -, left, sorted⟩ := inv
        obtain ⟨others, before, after⟩ :=
          Interleaving.Config.flatten_set states i step program' [] at_i
        rw [List.nil_append, Multiset.coe_nil, zero_add] at after
        have member : step ∈ List.range' s.nextStep (n - s.taken.length) := by
          rw [← Multiset.mem_coe, ← left, before]
          exact Multiset.mem_cons_self step others
        rw [List.mem_range'_1] at member
        -- nobody takes a step before its turn
        obtain rfl : step = s.nextStep := by omega
        refine ⟨?_, ?_, ?_, ?_, fun steps member => ?_⟩
        · rw [List.length_append, List.length_singleton, List.range'_1_concat, ← taken, next,
            add_comm 1]
        · rw [List.length_append, List.length_singleton, next]
        · rw [List.length_append, List.length_singleton]
          omega
        · obtain ⟨more, eq⟩ : ∃ more, n - s.taken.length = more + 1 :=
            Nat.exists_eq_add_one.mpr (by omega)
          rw [left, eq, List.range'_succ, ← Multiset.cons_coe, Multiset.cons_inj_right] at before
          rw [after, ← before, List.length_append, List.length_singleton,
            show n - (s.taken.length + 1) = more by omega]
        · rcases List.mem_or_eq_of_mem_set member with old | rfl
          · exact sorted steps old
          · exact (sorted _ (List.mem_of_getElem? at_i)).of_cons

theorem programs_weight : (programs steps).weight List.length =
    steps.flatten.length * (steps.length + 3) + steps.length := by
  have sum (k : ℕ) : (steps.map fun program => program.length * (k + 3) + 1).sum =
      steps.flatten.length * (k + 3) + steps.length := by
    induction steps with
    | nil => simp
    | cons program steps ih =>
      simp only [List.map_cons, List.sum_cons, List.flatten_cons, List.length_append,
        List.length_cons, ih]
      rw [Nat.add_mul]
      omega
  rw [← sum]
  simp [programs, Config.weight, Thread.weight, Function.comp_def]

/-- **A stepper** lets threads take its steps in order only, and lets all of them be taken: its
calls cannot get stuck, and come to an end unless threads keep waking up by themselves. -/
theorem stepper_in_order {actions : List Action}
    (sorted : ∀ program ∈ steps, program.Pairwise (· < ·))
    (each : steps.flatten.Perm (List.range' 1 n))
    (ran : (programs steps).run stepper actions = some turns) :
    turns.shared.taken = List.range' 1 turns.shared.taken.length ∧
      (turns.Quiet stepper → turns.shared.taken = List.range' 1 n ∧
        ∀ program ∈ turns.states, program = []) ∧
      actions.length ≤ n * (steps.length + 3) + steps.length +
        2 * actions.countP (·.isWake) := by
  have reached := reachable_of_run ran
  have inv := stepper_inv sorted each reached
  have bound := length_le stepper_advances ran
  rw [programs_weight, each.length_eq, List.length_range'] at bound
  refine ⟨inv.taken, fun quiet => ?_, bound⟩
  have told : Told stepper turns := by
    refine reached.told_of_all stepper_announces ?_ ?_
    · intro t t' s s' notify ran
      cases t with
      | nil => cases ran
      | cons step rest =>
        simp only [stepper] at ran
        split at ran <;> cases ran
        simp
    · intro thread member
      obtain ⟨program, -, rfl⟩ := List.mem_map.mp member
      exact ⟨program, rfl⟩
  have member {step : ℕ} {program : List ℕ} (of_states : program ∈ turns.states)
      (of_program : step ∈ program) :
      step ∈ List.range' turns.shared.nextStep (n - turns.shared.taken.length) := by
    rw [← Multiset.mem_coe, ← inv.left]
    exact List.mem_flatten.mpr ⟨program, of_states, of_program⟩
  have all : n = turns.shared.taken.length := by
    refine Nat.le_antisymm ?_ inv.bound
    by_contra more
    have next : turns.shared.nextStep ∈ turns.states.flatten := by
      rw [← Multiset.mem_coe, inv.left, Multiset.mem_coe, List.mem_range'_1]
      omega
    -- the thread whose turn it is would not be asleep
    obtain ⟨program, of_states, of_program⟩ := List.mem_flatten.mp next
    rcases told.state_quiet quiet of_states with finished | blocked
    · cases program with
      | nil => cases of_program
      | cons step rest =>
        simp only [stepper] at finished
        split at finished <;> cases finished
    · obtain ⟨step, rest, rfl, later⟩ := stepper_blocked.mp blocked
      rcases List.mem_cons.mp of_program with same | of_rest
      · omega
      · have sooner := List.rel_of_pairwise_cons (inv.sorted _ of_states) of_rest
        omega
  refine ⟨all ▸ inv.taken, fun program of_states => ?_⟩
  refine List.eq_nil_iff_forall_not_mem.mpr fun step of_program => ?_
  have left := member of_states of_program
  rw [← all, Nat.sub_self] at left
  cases left

/-- Two threads have taken turns. -/
def tookTurns : Config (List ℕ) Stepper := ⟨⟨4, [1, 2, 3]⟩, [.outside [], .outside []]⟩

theorem tookTurns_of_run : (programs [[1, 3], [2]]).run stepper
    [.run 1, .run 0, .notify 0 none, .run 0, .run 1, .notify 1 none, .run 0, .notify 0 none] =
      some tookTurns := rfl

theorem tookTurns_in_order : tookTurns.shared.taken = List.range' 1 3 := by
  have quiet : tookTurns.Quiet stepper := by
    intro thread member
    simp only [tookTurns, List.mem_cons, List.not_mem_nil, or_false, or_self] at member
    rw [member]
    rfl
  exact ((@stepper_in_order 3 _ _ _ (by decide) (by decide) tookTurns_of_run).2.1 quiet).1

end Tconcurrent.BarrierStepper
