import Mathlib.Algebra.BigOperators.Group.List.Basic
import Mathlib.Algebra.Order.BigOperators.Group.List
import Mathlib.Tactic.Linarith

/-! Threads that share a state under a mutex, and wait for it on one condition variable.

A thread that gets the mutex does all that it does while it holds it in one step.  What it
does ends when it waits, or when it leaves the mutex; it may notify others then. -/
namespace Tconcurrent.Monitor

variable {τ σ : Type}

inductive Notify where
  | none
  | one
  | all
  deriving DecidableEq

/-- What a thread does while it holds the mutex, and what is left for it to do. -/
inductive Section (τ σ : Type) where
  | wait (t : τ) (shared : σ)
  | leave (t : τ) (shared : σ) (notify : Notify)

/-- What each thread does when it gets the mutex, if it still wants it. -/
abbrev Code (τ σ : Type) := τ → σ → Option (Section τ σ)

/-- Where a thread is. -/
inductive Thread (τ : Type) where
  /-- It does not hold the mutex. -/
  | outside (t : τ)
  | asleep (t : τ)
  | notifying (t : τ) (notify : Notify)
  deriving DecidableEq

namespace Thread

def state : Thread τ → τ
  | .outside t | .asleep t | .notifying t _ => t

/-- It has to get the mutex again. -/
def wake : Thread τ → Thread τ
  | .asleep t => .outside t
  | thread => thread

def isAsleep : Thread τ → Bool
  | .asleep _ => true
  | _ => false

/-- It is done, or waits. -/
def IsQuiet (code : Code τ σ) (shared : σ) : Thread τ → Prop
  | .outside t => code t shared = none
  | .asleep _ => True
  | .notifying _ _ => False

end Thread

structure Config (τ σ : Type) where
  shared : σ
  threads : List (Thread τ)

inductive Action where
  /-- A thread gets the mutex. -/
  | run (i : ℕ)
  /-- It notifies, and perhaps wakes a thread. -/
  | notify (i : ℕ) (woken : Option ℕ)
  /-- A thread wakes up though nobody has notified it. -/
  | wake (i : ℕ)
  deriving DecidableEq

namespace Config

variable (config : Config τ σ)

def setThread (i : ℕ) (thread : Thread τ) : Config τ σ :=
  { config with threads := config.threads.set i thread }

def step (code : Code τ σ) : Action → Option (Config τ σ)
  | .run i =>
    match config.threads[i]? with
    | some (.outside t) =>
      match code t config.shared with
      | some (.wait t shared) => some ({ config with shared }.setThread i (.asleep t))
      | some (.leave t shared notify) =>
        some ({ config with shared }.setThread i (.notifying t notify))
      | none => none
    | _ => none
  | .notify i woken =>
    match config.threads[i]? with
    | some (.notifying t notify) =>
      let notified := config.setThread i (.outside t)
      match notify, woken with
      | .none, none => some notified
      | .all, none => some { notified with threads := notified.threads.map .wake }
      | .one, none => if notified.threads.any (·.isAsleep) then none else some notified
      | .one, some j =>
        match notified.threads[j]? with
        | some (.asleep t) => some (notified.setThread j (.outside t))
        | _ => none
      | _, _ => none
    | _ => none
  | .wake i =>
    match config.threads[i]? with
    | some (.asleep t) => some (config.setThread i (.outside t))
    | _ => none

def run (code : Code τ σ) (actions : List Action) : Option (Config τ σ) :=
  actions.foldlM (fun config action => config.step code action) config

/-- No thread has anything to do but to wait. -/
def Quiet (code : Code τ σ) (config : Config τ σ) : Prop :=
  ∀ thread ∈ config.threads, thread.IsQuiet code config.shared

end Config

/-- The configurations that threads reach, whatever the order in which they go on. -/
inductive Reachable (code : Code τ σ) (start : Config τ σ) : Config τ σ → Prop
  | start : Reachable code start start
  | step {config after : Config τ σ} {action : Action} (reached : Reachable code start config)
      (stepped : config.step code action = some after) : Reachable code start after

variable {code : Code τ σ} {start config after : Config τ σ} {action : Action}

theorem Reachable.trans (first : Reachable code start config)
    (last : Reachable code config after) : Reachable code start after := by
  induction last with
  | start => exact first
  | step _ stepped ih => exact ih.step stepped

theorem reachable_of_run {actions : List Action} (ran : start.run code actions = some config) :
    Reachable code start config := by
  induction actions generalizing start with
  | nil =>
    cases ran
    exact .start
  | cons action actions ih =>
    obtain ⟨mid, stepped, rest⟩ := Option.bind_eq_some_iff.mp ran
    exact (Reachable.start.step stepped).trans (ih rest)

/-- What a step does. -/
inductive Stepped (code : Code τ σ) (config : Config τ σ) : Action → Config τ σ → Prop
  | wait {i : ℕ} {t t' : τ} {shared : σ} (at_i : config.threads[i]? = some (.outside t))
      (ran : code t config.shared = some (.wait t' shared)) :
      Stepped code config (.run i) ⟨shared, config.threads.set i (.asleep t')⟩
  | leave {i : ℕ} {t t' : τ} {shared : σ} {notify : Notify}
      (at_i : config.threads[i]? = some (.outside t))
      (ran : code t config.shared = some (.leave t' shared notify)) :
      Stepped code config (.run i) ⟨shared, config.threads.set i (.notifying t' notify)⟩
  | silent {i : ℕ} {t : τ} (at_i : config.threads[i]? = some (.notifying t .none)) :
      Stepped code config (.notify i none) (config.setThread i (.outside t))
  | all {i : ℕ} {t : τ} (at_i : config.threads[i]? = some (.notifying t .all)) :
      Stepped code config (.notify i none)
        ⟨config.shared, (config.threads.set i (.outside t)).map .wake⟩
  | nobody {i : ℕ} {t : τ} (at_i : config.threads[i]? = some (.notifying t .one))
      (awake : ∀ thread ∈ config.threads.set i (.outside t), thread.isAsleep = false) :
      Stepped code config (.notify i none) (config.setThread i (.outside t))
  | one {i j : ℕ} {t t' : τ} (at_i : config.threads[i]? = some (.notifying t .one))
      (at_j : (config.threads.set i (.outside t))[j]? = some (.asleep t')) :
      Stepped code config (.notify i (some j))
        ((config.setThread i (.outside t)).setThread j (.outside t'))
  | wake {i : ℕ} {t : τ} (at_i : config.threads[i]? = some (.asleep t)) :
      Stepped code config (.wake i) (config.setThread i (.outside t))

theorem stepped_of_step (stepped : config.step code action = some after) :
    Stepped code config action after := by
  cases action with
  | run i =>
    simp only [Config.step] at stepped
    split at stepped
    · rename_i t at_i
      split at stepped
      · rename_i ran
        cases stepped
        exact .wait at_i ran
      · rename_i ran
        cases stepped
        exact .leave at_i ran
      · cases stepped
    · cases stepped
  | notify i woken =>
    simp only [Config.step] at stepped
    split at stepped
    · rename_i t notify at_i
      split at stepped
      · cases stepped
        exact .silent at_i
      · cases stepped
        exact .all at_i
      · split at stepped
        · cases stepped
        · rename_i awake
          cases stepped
          refine .nobody at_i fun thread member => ?_
          simpa [Config.setThread] using fun asleep => awake (List.any_eq_true.mpr
            ⟨thread, member, asleep⟩)
      · split at stepped
        · rename_i at_j
          cases stepped
          exact .one at_i at_j
        · cases stepped
      · cases stepped
    · cases stepped
  | wake i =>
    simp only [Config.step] at stepped
    split at stepped
    · rename_i t at_i
      cases stepped
      exact .wake at_i
    · cases stepped

/-! ## Nobody misses what is waited for -/

/-- The thread would only go back to sleep. -/
def Blocked (code : Code τ σ) (shared : σ) (t : τ) : Prop :=
  code t shared = some (.wait t shared)

/-- A thread that makes another one go on tells it. -/
structure Announces (code : Code τ σ) : Prop where
  wait {t t' : τ} {s s' : σ} (ran : code t s = some (.wait t' s')) :
    Blocked code s' t' ∧ ∀ u, Blocked code s u → Blocked code s' u
  leave {t t' : τ} {s s' : σ} {notify : Notify} (ran : code t s = some (.leave t' s' notify)) :
    notify ≠ .none ∨ ∀ u, Blocked code s u → Blocked code s' u

/-- Threads wait for nothing that has come already, or they will be told. -/
def Told (code : Code τ σ) (config : Config τ σ) : Prop :=
  (∀ t, Thread.asleep t ∈ config.threads → Blocked code config.shared t) ∨
    ∃ t notify, Thread.notifying t notify ∈ config.threads ∧ notify ≠ .none

/-- There is never a second thread to wake. -/
def Alone (config : Config τ σ) : Prop :=
  ∀ (i j : ℕ) (t u : τ), config.threads[i]? = some (.asleep t) →
    config.threads[j]? = some (.asleep u) → i = j

section

variable {threads : List (Thread τ)} {thread other : Thread τ} {i : ℕ}

theorem mem_set_of_mem (member : other ∈ threads) (elsewhere : threads[i]? ≠ some other) :
    other ∈ threads.set i thread := by
  obtain ⟨j, at_j⟩ := List.mem_iff_getElem?.mp member
  have ne : i ≠ j := by
    rintro rfl
    exact elsewhere at_j
  exact List.mem_iff_getElem?.mpr ⟨j, by rw [List.getElem?_set_ne ne, at_j]⟩

theorem asleep_of_set {t t' : τ} (member : .asleep t ∈ threads.set i (.outside t')) :
    .asleep t ∈ threads :=
  (List.mem_or_eq_of_mem_set member).resolve_right (by simp)

theorem asleep_at_of_set {t t' : τ} {j : ℕ}
    (at_j : (threads.set i (.outside t'))[j]? = some (.asleep t)) :
    i ≠ j ∧ threads[j]? = some (.asleep t) := by
  have ne : i ≠ j := by
    rintro rfl
    rw [List.getElem?_set_self'] at at_j
    cases at_i : threads[i]? <;> simp [at_i] at at_j
  rw [List.getElem?_set_ne ne] at at_j
  exact ⟨ne, at_j⟩

end

theorem Told.unchanged (told : Told code config)
    (asleep : ∀ t, Thread.asleep t ∈ after.threads → Thread.asleep t ∈ config.threads)
    (blocked : ∀ t, Blocked code config.shared t → Blocked code after.shared t)
    (notifying : ∀ t notify, notify ≠ .none → .notifying t notify ∈ config.threads →
      .notifying t notify ∈ after.threads) : Told code after := by
  rcases told with waits | ⟨t, notify, member, some⟩
  · exact .inl fun t member => blocked t (waits t (asleep t member))
  · exact .inr ⟨t, notify, notifying t notify some member, some⟩

theorem Told.step (announces : Announces code)
    (alone : (∃ t, Thread.notifying t .one ∈ config.threads) → Alone config)
    (told : Told code config)
    (stepped : Stepped code config action after) : Told code after := by
  cases stepped with
  | @wait i t t' shared at_i ran =>
    obtain ⟨blocked, others⟩ := announces.wait ran
    rcases told with waits | ⟨u, notify, member, some⟩
    · refine .inl fun u member => ?_
      rcases List.mem_or_eq_of_mem_set member with before | same
      · exact others u (waits u before)
      · cases same
        exact blocked
    · exact .inr ⟨u, notify, mem_set_of_mem member (by simp [at_i]), some⟩
  | @leave i t t' shared notify at_i ran =>
    rcases announces.leave ran with some | blocked
    · refine .inr ⟨t', notify, List.mem_set ?_ _, some⟩
      exact (List.getElem?_eq_some_iff.mp at_i).1
    · refine told.unchanged (fun u member => ?_) blocked fun u notify _ member => ?_
      · exact (List.mem_or_eq_of_mem_set member).resolve_right (by simp)
      · exact mem_set_of_mem member (by simp [at_i])
  | silent at_i =>
    refine told.unchanged (fun u => asleep_of_set) (fun _ => id) fun u notify some member => ?_
    refine mem_set_of_mem member ?_
    rw [at_i]
    rintro ⟨⟩
    exact some rfl
  | all =>
    refine .inl fun u member => ?_
    obtain ⟨thread, -, woken⟩ := List.mem_map.mp member
    cases thread <;> cases woken
  | nobody at_i awake => exact .inl fun u member => by cases awake _ member
  | @one i j t t' at_i at_j =>
    have only := alone ⟨t, List.mem_of_getElem? at_i⟩
    refine .inl fun u member => ?_
    obtain ⟨k, at_k⟩ := List.mem_iff_getElem?.mp member
    obtain ⟨ne, at_k⟩ := asleep_at_of_set at_k
    exact absurd (only j k t' u (asleep_at_of_set at_j).2 (asleep_at_of_set at_k).2) ne
  | wake at_i =>
    refine told.unchanged (fun u => asleep_of_set) (fun _ => id) fun u notify _ member => ?_
    exact mem_set_of_mem member (by simp [at_i])

/-- **No wakeup is lost**: a thread is asleep only as long as it has to wait, or another one is
about to wake it. -/
theorem Reachable.told (announces : Announces code) (starts : Told code start)
    (alone : ∀ config, Reachable code start config →
      (∃ t, Thread.notifying t .one ∈ config.threads) → Alone config)
    (reached : Reachable code start config) : Told code config := by
  induction reached with
  | start => exact starts
  | step reached stepped told =>
    exact told.step announces (alone _ reached) (stepped_of_step stepped)

/-- No thread has started. -/
def Config.Fresh (config : Config τ σ) : Prop :=
  ∀ thread ∈ config.threads, ∃ t, thread = .outside t

theorem told_of_fresh (fresh : start.Fresh) : Told code start := by
  refine .inl fun t member => ?_
  obtain ⟨u, eq⟩ := fresh _ member
  cases eq

theorem Reachable.never_one
    (never : ∀ {t t' s s' notify}, code t s = some (.leave t' s' notify) → notify ≠ .one)
    (fresh : start.Fresh) (reached : Reachable code start config) (t : τ) :
    Thread.notifying t .one ∉ config.threads := by
  induction reached with
  | start =>
    intro member
    obtain ⟨u, eq⟩ := fresh _ member
    cases eq
  | step _ stepped ih =>
    intro member
    have before {threads : List (Thread τ)} {i : ℕ} {u : τ}
        (member : Thread.notifying t .one ∈ threads.set i (.outside u)) :
        Thread.notifying t .one ∈ threads :=
      (List.mem_or_eq_of_mem_set member).resolve_right (by simp)
    cases stepped_of_step stepped with
    | wait => exact ih ((List.mem_or_eq_of_mem_set member).resolve_right (by simp))
    | leave at_i ran =>
      rcases List.mem_or_eq_of_mem_set member with old | same
      · exact ih old
      · cases same
        exact never ran rfl
    | silent | nobody | wake => exact ih (before member)
    | all =>
      obtain ⟨thread, old, woken⟩ := List.mem_map.mp member
      cases thread with
      | notifying =>
        cases woken
        exact ih (before old)
      | outside | asleep => cases woken
    | one => exact ih (before (before member))

/-- No wakeup is lost if all are notified. -/
theorem Reachable.told_of_all (announces : Announces code)
    (all : ∀ {t t' s s' notify}, code t s = some (.leave t' s' notify) → notify ≠ .one)
    (fresh : start.Fresh) (reached : Reachable code start config) : Told code config :=
  reached.told announces (told_of_fresh fresh) fun _ reached ⟨t, member⟩ =>
    absurd member (reached.never_one all fresh t)

/-- When nothing is left to do, whoever is asleep has to wait. -/
theorem Told.quiet (told : Told code config) (quiet : config.Quiet code) {t : τ}
    (asleep : .asleep t ∈ config.threads) : Blocked code config.shared t := by
  rcases told with waits | ⟨u, notify, member, -⟩
  · exact waits t asleep
  · exact absurd (quiet _ member) id

/-! ## What holds of the state and of each thread -/

/-- A sum over all threads, after one of them has changed. -/
theorem sum_map_set {α M : Type} [AddCommMonoid M] {as : List α} {a : α} {i : ℕ} (f : α → M) (b : α)
    (at_i : as[i]? = some a) :
    ((as.set i b).map f).sum + f a = (as.map f).sum + f b := by
  induction as generalizing i with
  | nil => cases at_i
  | cons first as ih =>
    cases i with
    | zero =>
      cases at_i
      simp only [List.set_cons_zero, List.map_cons, List.sum_cons]
      rw [add_right_comm, add_comm (f b), add_right_comm]
    | succ i =>
      simp only [List.set_cons_succ, List.map_cons, List.sum_cons]
      rw [add_assoc, ih at_i, add_assoc]

/-- What the threads are about, wherever they are. -/
def Config.states (config : Config τ σ) : List τ := config.threads.map Thread.state

/-- What a thread has done while it held the mutex. -/
inductive Entered (code : Code τ σ) (t : τ) (s : σ) : τ → σ → Prop
  | wait {t' : τ} {s' : σ} (ran : code t s = some (.wait t' s')) : Entered code t s t' s'
  | leave {t' : τ} {s' : σ} {notify : Notify} (ran : code t s = some (.leave t' s' notify)) :
      Entered code t s t' s'

def Section.made : Section τ σ → τ × σ
  | .wait t shared | .leave t shared _ => (t, shared)

theorem Entered.made {t t' : τ} {s s' : σ} (entered : Entered code t s t' s') :
    ∃ done, code t s = some done ∧ done.made = (t', s') := by
  cases entered with
  | wait ran => exact ⟨_, ran, rfl⟩
  | leave ran => exact ⟨_, ran, rfl⟩

theorem wake_state (thread : Thread τ) : thread.wake.state = thread.state := by
  cases thread <;> rfl

theorem states_set {threads : List (Thread τ)} {thread : Thread τ} {i : ℕ} {t : τ}
    (at_i : threads[i]? = some thread) (same : thread.state = t) :
    (threads.set i (.outside t)).map Thread.state = threads.map Thread.state := by
  obtain ⟨bound, rfl⟩ := List.getElem?_eq_some_iff.mp at_i
  have bound' : i < (threads.map Thread.state).length := by rwa [List.length_map]
  have at_i' : t = (threads.map Thread.state)[i] := by rw [List.getElem_map, same]
  rw [List.map_set, at_i', Thread.state, List.set_getElem_self]

theorem Stepped.states (stepped : Stepped code config action after) :
    (after.shared = config.shared ∧ after.states = config.states) ∨
      ∃ i t t', config.states[i]? = some t ∧ Entered code t config.shared t' after.shared ∧
        after.states = config.states.set i t' := by
  cases stepped with
  | @wait i t t' shared at_i ran =>
    refine .inr ⟨i, t, t', ?_, .wait ran, ?_⟩
    · rw [Config.states, List.getElem?_map, at_i]
      rfl
    · exact List.map_set
  | @leave i t t' shared notify at_i ran =>
    refine .inr ⟨i, t, t', ?_, .leave ran, ?_⟩
    · rw [Config.states, List.getElem?_map, at_i]
      rfl
    · exact List.map_set
  | silent at_i | nobody at_i | wake at_i => exact .inl ⟨rfl, states_set at_i rfl⟩
  | all at_i =>
    refine .inl ⟨rfl, ?_⟩
    refine Eq.trans ?_ (states_set at_i rfl)
    rw [Config.states, List.map_map]
    exact List.map_congr_left fun thread _ => wake_state thread
  | one at_i at_j =>
    refine .inl ⟨rfl, ?_⟩
    exact (states_set at_j rfl).trans (states_set at_i rfl)

/-- What every thread keeps while it holds the mutex holds forever. -/
theorem Reachable.invariant (Inv : σ → List τ → Prop) (starts : Inv start.shared start.states)
    (step : ∀ {s states i t t' s'}, Inv s states → states[i]? = some t → Entered code t s t' s' →
      Inv s' (states.set i t'))
    (reached : Reachable code start config) : Inv config.shared config.states := by
  induction reached with
  | start => exact starts
  | step _ stepped ih =>
    rcases (stepped_of_step stepped).states with ⟨shared, states⟩ |
      ⟨i, t, t', at_i, entered, states⟩
    · rwa [shared, states]
    · rw [states]
      exact step ih at_i entered

/-- When nothing is left to do, a thread is done, or it waits for what has not come. -/
theorem Told.state_quiet (told : Told code config) (quiet : config.Quiet code) {t : τ}
    (member : t ∈ config.states) :
    code t config.shared = none ∨ Blocked code config.shared t := by
  obtain ⟨thread, at_thread, rfl⟩ := List.mem_map.mp member
  have rests := quiet thread at_thread
  cases thread with
  | outside t => exact .inl rests
  | asleep t => exact .inr (told.quiet quiet at_thread)
  | notifying t notify => exact absurd rests id

/-! ## Runs end -/

/-- How often a thread can still leave the mutex. -/
structure Advances (code : Code τ σ) (left : τ → ℕ) : Prop where
  wait {t t' : τ} {s s' : σ} (ran : code t s = some (.wait t' s')) : left t' ≤ left t
  leave {t t' : τ} {s s' : σ} {notify : Notify} (ran : code t s = some (.leave t' s' notify)) :
    left t' < left t

/-- How many steps a thread can still take, and cause, among `n` threads. -/
def Thread.weight (left : τ → ℕ) (n : ℕ) : Thread τ → ℕ
  | .asleep t => left t * (n + 3)
  | .outside t => left t * (n + 3) + 1
  | .notifying t _ => left t * (n + 3) + n + 2

def Config.weight (left : τ → ℕ) (config : Config τ σ) : ℕ :=
  (config.threads.map (Thread.weight left config.threads.length)).sum

def Action.isWake : Action → Bool
  | .wake _ => true
  | _ => false

section

variable {left : τ → ℕ} {threads : List (Thread τ)} {thread other : Thread τ} {i n : ℕ}

theorem weight_wake (threads : List (Thread τ)) :
    ((threads.map .wake).map (Thread.weight left n)).sum ≤
      (threads.map (Thread.weight left n)).sum + threads.length := by
  induction threads with
  | nil => exact le_refl 0
  | cons first threads ih =>
    have one : first.wake.weight left n ≤ first.weight left n + 1 := by
      cases first with
      | asleep => exact le_refl _
      | outside | notifying => exact Nat.le_succ _
    simp only [List.map_cons, List.sum_cons, List.length_cons]
    omega

theorem Stepped.length (stepped : Stepped code config action after) :
    after.threads.length = config.threads.length := by
  cases stepped <;> simp [Config.setThread]

/-- A step takes one of those that are left, but a thread may wake up by itself. -/
theorem Stepped.weight (advances : Advances code left)
    (stepped : Stepped code config action after) :
    after.weight left + (if action.isWake then 0 else 1) ≤
      config.weight left + (if action.isWake then 1 else 0) := by
  have length := stepped.length
  rw [Config.weight, Config.weight, length]
  generalize bound : config.threads.length = n at *
  cases stepped with
  | @wait i t t' shared at_i ran =>
    have moved := sum_map_set (Thread.weight left n) (.asleep t') at_i
    have fewer := Nat.mul_le_mul_right (n + 3) (advances.wait ran)
    simp only [Thread.weight] at moved
    simp only [Action.isWake, Bool.false_eq_true, if_false]
    omega
  | @leave i t t' shared notify at_i ran =>
    have moved := sum_map_set (Thread.weight left n) (.notifying t' notify) at_i
    have fewer := Nat.mul_le_mul_right (n + 3) (advances.leave ran)
    rw [Nat.succ_mul] at fewer
    simp only [Thread.weight] at moved
    simp only [Action.isWake, Bool.false_eq_true, if_false]
    omega
  | @silent i t at_i | @nobody i t at_i =>
    have moved := sum_map_set (Thread.weight left n) (.outside t) at_i
    simp only [Thread.weight] at moved
    simp only [Action.isWake, Bool.false_eq_true, if_false, Config.setThread]
    omega
  | @all i t at_i =>
    have moved := sum_map_set (Thread.weight left n) (.outside t) at_i
    have woken := @weight_wake _ left n (config.threads.set i (.outside t))
    rw [List.length_set, bound] at woken
    simp only [Thread.weight] at moved
    simp only [Action.isWake, Bool.false_eq_true, if_false]
    omega
  | @one i j t t' at_i at_j =>
    have moved := sum_map_set (Thread.weight left n) (.outside t) at_i
    have woken := sum_map_set (Thread.weight left n) (.outside t') at_j
    have some := (List.getElem?_eq_some_iff.mp at_i).1
    simp only [Thread.weight] at moved woken
    simp only [Action.isWake, Bool.false_eq_true, if_false, Config.setThread]
    omega
  | @wake i t at_i =>
    have moved := sum_map_set (Thread.weight left n) (.outside t) at_i
    simp only [Thread.weight] at moved
    simp only [Action.isWake, if_true, Config.setThread]
    omega

/-- **Runs end**: a run is no longer than its threads allow, and longer only by what follows from
the threads that wake up by themselves. -/
theorem length_le (advances : Advances code left) {actions : List Action}
    (ran : config.run code actions = some after) :
    actions.length ≤ config.weight left + 2 * actions.countP (·.isWake) := by
  induction actions generalizing config with
  | nil => exact Nat.zero_le _
  | cons action actions ih =>
    obtain ⟨mid, stepped, rest⟩ := Option.bind_eq_some_iff.mp ran
    have bound := ih rest
    have weight := (stepped_of_step stepped).weight advances
    rw [List.length_cons, List.countP_cons]
    cases wakes : action.isWake with
    | true =>
      simp only [wakes, if_true] at weight ⊢
      omega
    | false =>
      simp only [wakes, Bool.false_eq_true, if_false] at weight ⊢
      omega

end

end Tconcurrent.Monitor
