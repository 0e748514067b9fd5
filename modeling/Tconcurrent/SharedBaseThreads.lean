import Tconcurrent.Builtins
import Tconcurrent.Monitor

/-! A shared state that any number of threads use: they wait for it, register continuations,
count promises and resolve it.

What is done under the mutex is one step, and so is each access to `_promise_count`.  The
result is what a holder of a promise sets, or `broken_promise`. -/
namespace Tconcurrent.SharedBaseThreads
open Monitor Builtins

variable {R : Type}

inductive Result (R : Type) where
  | set (r : R)
  | brokenPromise
  deriving DecidableEq

/-- What a thread does with the shared state.  What takes a promise is not done by a thread that
has none. -/
inductive Op (R : Type) where
  | then (k : ℕ)
  /-- `get`, `get_exception` and `wait`. -/
  | get
  /-- `promise_ptr::try_lock`. -/
  | tryLock
  /-- A `promise_ptr` is copied. -/
  | copy
  /-- `set` and `set_exception`. -/
  | set (r : R)
  /-- A `promise_ptr` is destroyed. -/
  | drop
  deriving DecidableEq

/-- What a thread is in the middle of. -/
inductive Doing where
  | nothing
  /-- `increment_promise` has read the count. -/
  | loaded (count : ℕ)
  /-- `decrement_promise` was the last one. -/
  | dropped
  /-- It has found that there is no result. -/
  | breaking
  /-- The continuations that are still to be posted, and whether by `finish`. -/
  | posting (ks : List ℕ) (finishing : Bool)
  deriving DecidableEq

structure Local (R : Type) where
  ops : List (Op R)
  /-- How many promises it has. -/
  holds : ℕ := 0
  doing : Doing := .nothing
  /-- What `get` has returned. -/
  got : List (Result R) := []
  deriving DecidableEq

/-- `shared_base`. -/
structure State (R : Type) where
  r : Option (Result R) := none
  thens : List ℕ := []
  /-- `_promise_count`, an `unsigned int`. -/
  promiseCount : ℕ
  /-- The continuations that were posted, and whether `finish` has posted them. -/
  posted : List (ℕ × Bool) := []
  /-- The continuations that were registered before there was a result, and after. -/
  early : List ℕ := []
  late : List ℕ := []
  assertFailed : Bool := false
  deriving DecidableEq

/-- `finish`, up to the notification. -/
def finish (r : Result R) (t : Local R) (s : State R) : Section (Local R) (State R) :=
  .leave { t with doing := .posting s.thens true }
    { s with r := some r, thens := [], assertFailed := s.assertFailed || s.r.isSome } .all

/-- `increment_promise`, and what is done without a promise. -/
def incrementPromise (t : Local R) (ops : List (Op R)) (asserted : Bool) (s : State R) :
    Section (Local R) (State R) :=
  match t.doing with
  | .loaded 0 =>
    .leave { t with ops, doing := .nothing }
      { s with assertFailed := s.assertFailed || asserted } .none
  | .loaded count =>
    if s.promiseCount = count then
      .leave { t with ops, doing := .nothing, holds := t.holds + 1 }
        { s with promiseCount := increment count } .none
    else .leave { t with doing := .loaded s.promiseCount } s .none
  | _ => .leave { t with doing := .loaded s.promiseCount } s .none

/-- `decrement_promise`, up to the test of its count. -/
def decrementPromise (t : Local R) (ops : List (Op R)) (s : State R) :
    Section (Local R) (State R) :=
  let promiseCount := decrement s.promiseCount
  .leave { t with
      ops
      holds := t.holds - 1
      doing := if promiseCount = 0 then .dropped else .nothing }
    { s with promiseCount, assertFailed := s.assertFailed || s.promiseCount == 0 } .none

def op (t : Local R) (s : State R) : Op R → List (Op R) → Section (Local R) (State R)
  | .then k, ops =>
    match s.r with
    | none =>
      .leave { t with ops } { s with thens := s.thens ++ [k], early := s.early ++ [k] } .none
    | some _ =>
      .leave { t with ops, doing := .posting [k] false } { s with late := s.late ++ [k] } .none
  | .get, ops =>
    match s.r with
    | none => .wait t s
    | some r => .leave { t with ops, got := t.got ++ [r] } s .none
  | .tryLock, ops => incrementPromise t ops false s
  | .copy, ops =>
    if t.holds = 0 then .leave { t with ops } s .none else incrementPromise t ops true s
  | .set r, ops =>
    if t.holds = 0 then .leave { t with ops } s .none else finish (.set r) { t with ops } s
  | .drop, ops =>
    if t.holds = 0 then .leave { t with ops } s .none else decrementPromise t ops s

/-- What a thread does next. -/
def sharedBase : Code (Local R) (State R) := fun t s =>
  match t.doing with
  | .posting (k :: ks) finishing =>
    some (.leave { t with doing := .posting ks finishing }
      { s with posted := s.posted ++ [(k, finishing)] } .none)
  | .posting [] _ => some (.leave { t with doing := .nothing } s .none)
  | .dropped => some (.leave { t with doing := if s.r.isNone then .breaking else .nothing } s .none)
  | .breaking => some (finish .brokenPromise t s)
  | .nothing | .loaded _ =>
    match t.ops with
    | [] => none
    | first :: ops => some (op t s first ops)

/-! ## What a thread does -/

def Local.Idle (t : Local R) : Prop := t.doing = .nothing ∨ ∃ count, t.doing = .loaded count

def Op.isIncrement : Op R → Bool
  | .tryLock | .copy => true
  | _ => false

def Op.isSet : Op R → Bool
  | .set _ => true
  | _ => false

/-- What a thread does in one step. -/
inductive Does (t : Local R) (s : State R) : Local R → State R → Prop
  | wait {ops : List (Op R)} (idle : t.Idle) (first : t.ops = .get :: ops)
      (pending : s.r = none) : Does t s t s
  | get {ops : List (Op R)} {r : Result R} (idle : t.Idle) (first : t.ops = .get :: ops)
      (result : s.r = some r) : Does t s { t with ops, got := t.got ++ [r] } s
  | early {k : ℕ} {ops : List (Op R)} (idle : t.Idle) (first : t.ops = .then k :: ops)
      (pending : s.r = none) :
      Does t s { t with ops } { s with thens := s.thens ++ [k], early := s.early ++ [k] }
  | late {k : ℕ} {ops : List (Op R)} {r : Result R} (idle : t.Idle)
      (first : t.ops = .then k :: ops) (result : s.r = some r) :
      Does t s { t with ops, doing := .posting [k] false } { s with late := s.late ++ [k] }
  | skip {op : Op R} {ops : List (Op R)} (idle : t.Idle) (first : t.ops = op :: ops)
      (other : op.isIncrement = true → op = .copy) (none : t.holds = 0) : Does t s { t with ops } s
  | load {op : Op R} {ops : List (Op R)} (idle : t.Idle) (first : t.ops = op :: ops)
      (increments : op.isIncrement = true) (holds : op = .copy → t.holds ≠ 0) :
      Does t s { t with doing := .loaded s.promiseCount } s
  | fail {op : Op R} {ops : List (Op R)} {asserted : Bool} (loaded : t.doing = .loaded 0)
      (first : t.ops = op :: ops) (copy : asserted = true → op = .copy) :
      Does t s { t with ops, doing := .nothing }
        { s with assertFailed := s.assertFailed || asserted }
  | increment {op : Op R} {ops : List (Op R)} (loaded : t.doing = .loaded s.promiseCount)
      (some : s.promiseCount ≠ 0) (first : t.ops = op :: ops) (increments : op.isIncrement = true) :
      Does t s { t with ops, doing := .nothing, holds := t.holds + 1 }
        { s with promiseCount := Builtins.increment s.promiseCount }
  | set {r : R} {ops : List (Op R)} (idle : t.Idle) (first : t.ops = .set r :: ops)
      (holds : t.holds ≠ 0) :
      Does t s { t with ops, doing := .posting s.thens true }
        { s with r := some (.set r), thens := [], assertFailed := s.assertFailed || s.r.isSome }
  | decrement {ops : List (Op R)} (idle : t.Idle) (first : t.ops = .drop :: ops)
      (holds : t.holds ≠ 0) :
      Does t s { t with
          ops
          holds := t.holds - 1
          doing := if Builtins.decrement s.promiseCount = 0 then .dropped else .nothing }
        { s with
          promiseCount := Builtins.decrement s.promiseCount
          assertFailed := s.assertFailed || s.promiseCount == 0 }
  | check (dropped : t.doing = .dropped) :
      Does t s { t with doing := if s.r.isNone then .breaking else .nothing } s
  | break (breaking : t.doing = .breaking) :
      Does t s { t with doing := .posting s.thens true }
        { s with
          r := some .brokenPromise
          thens := []
          assertFailed := s.assertFailed || s.r.isSome }
  | post {k : ℕ} {ks : List ℕ} {finishing : Bool}
      (posting : t.doing = .posting (k :: ks) finishing) :
      Does t s { t with doing := .posting ks finishing }
        { s with posted := s.posted ++ [(k, finishing)] }
  | posted {finishing : Bool} (posting : t.doing = .posting [] finishing) :
      Does t s { t with doing := .nothing } s

variable {t t' : Local R} {s s' : State R}

theorem incrementPromise_does {op : Op R} {ops : List (Op R)} {asserted : Bool} (idle : t.Idle)
    (first : t.ops = op :: ops) (increments : op.isIncrement = true)
    (copy : asserted = true → op = .copy) (holds : op = .copy → t.holds ≠ 0) :
    let done := (incrementPromise t ops asserted s).made
    Does t s done.1 done.2 := by
  unfold incrementPromise
  split
  · rename_i loaded
    exact .fail loaded first copy
  · rename_i count loaded some
    split
    · rename_i same
      subst same
      exact .increment some (fun zero => loaded zero) first increments
    · exact .load idle first increments holds
  · exact .load idle first increments holds

theorem op_does {first : Op R} {ops : List (Op R)} (idle : t.Idle)
    (at_first : t.ops = first :: ops) :
    let done := (op t s first ops).made
    Does t s done.1 done.2 := by
  cases first with
  | «then» k =>
    simp only [op]
    split
    · rename_i pending
      exact .early idle at_first pending
    · rename_i r result
      exact .late idle at_first result
  | get =>
    simp only [op]
    split
    · rename_i pending
      exact .wait idle at_first pending
    · rename_i r result
      exact .get idle at_first result
  | tryLock => exact incrementPromise_does idle at_first rfl (by simp) (by simp)
  | copy =>
    simp only [op]
    split
    · rename_i none
      exact .skip idle at_first (by simp [Op.isIncrement]) none
    · rename_i holds
      exact incrementPromise_does idle at_first rfl (fun _ => rfl) fun _ => holds
  | set r =>
    simp only [op]
    split
    · rename_i none
      exact .skip idle at_first (by simp [Op.isIncrement]) none
    · rename_i holds
      exact .set idle at_first holds
  | drop =>
    simp only [op]
    split
    · rename_i none
      exact .skip idle at_first (by simp [Op.isIncrement]) none
    · rename_i holds
      exact .decrement idle at_first holds

theorem sharedBase_does {done : Section (Local R) (State R)} (ran : sharedBase t s = some done) :
    Does t s done.made.1 done.made.2 := by
  have runs (idle : t.Idle) (ran : (match t.ops with
      | [] => none
      | first :: ops => some (op t s first ops)) = some done) :
      Does t s done.made.1 done.made.2 := by
    split at ran
    · cases ran
    · rename_i first ops at_first
      cases ran
      exact op_does idle at_first
  unfold sharedBase at ran
  split at ran
  · rename_i posting
    cases ran
    exact .post posting
  · rename_i posting
    cases ran
    exact .posted posting
  · rename_i dropped
    cases ran
    exact .check dropped
  · rename_i breaking
    cases ran
    exact .break breaking
  · rename_i nothing
    exact runs (.inl nothing) ran
  · rename_i count loaded
    exact runs (.inr ⟨count, loaded⟩) ran

theorem does_of_entered (entered : Entered sharedBase t s t' s') : Does t s t' s' := by
  obtain ⟨done, ran, made⟩ := entered.made
  have does := sharedBase_does ran
  rwa [made] at does

/-- It waits for the result. -/
def Local.Waits (t : Local R) (s : State R) : Prop :=
  t.Idle ∧ s.r = none ∧ ∃ ops, t.ops = .get :: ops

/-- Whom a thread tells of what it has done. -/
def Tells (t : Local R) (s : State R) : Section (Local R) (State R) → Prop
  | .wait t' s' => t' = t ∧ s' = s ∧ t.Waits s
  | .leave _ s' notify => notify = .all ∨ notify = .none ∧ s'.r = s.r

theorem incrementPromise_tells {ops : List (Op R)} {asserted : Bool} :
    Tells t s (incrementPromise t ops asserted s) := by
  unfold incrementPromise
  split
  · exact .inr ⟨rfl, rfl⟩
  · split <;> exact .inr ⟨rfl, rfl⟩
  · exact .inr ⟨rfl, rfl⟩

theorem op_tells {first : Op R} {ops : List (Op R)} (idle : t.Idle)
    (at_first : t.ops = first :: ops) :
    Tells t s (op t s first ops) := by
  cases first with
  | «then» k =>
    simp only [op]
    split <;> exact .inr ⟨rfl, rfl⟩
  | get =>
    simp only [op]
    split
    · rename_i pending
      exact ⟨rfl, rfl, idle, pending, ops, at_first⟩
    · exact .inr ⟨rfl, rfl⟩
  | tryLock => exact incrementPromise_tells
  | copy =>
    simp only [op]
    split
    · exact .inr ⟨rfl, rfl⟩
    · exact incrementPromise_tells
  | set r =>
    simp only [op]
    split
    · exact .inr ⟨rfl, rfl⟩
    · exact .inl rfl
  | drop =>
    simp only [op]
    split <;> exact .inr ⟨rfl, rfl⟩

theorem sharedBase_tells {done : Section (Local R) (State R)} (ran : sharedBase t s = some done) :
    Tells t s done := by
  have runs (idle : t.Idle) (ran : (match t.ops with
      | [] => none
      | first :: ops => some (op t s first ops)) = some done) : Tells t s done := by
    split at ran
    · cases ran
    · rename_i first ops at_first
      cases ran
      exact op_tells idle at_first
  unfold sharedBase at ran
  split at ran
  · cases ran
    exact .inr ⟨rfl, rfl⟩
  · cases ran
    exact .inr ⟨rfl, rfl⟩
  · cases ran
    exact .inr ⟨rfl, rfl⟩
  · cases ran
    exact .inl rfl
  · rename_i nothing
    exact runs (.inl nothing) ran
  · rename_i count loaded
    exact runs (.inr ⟨count, loaded⟩) ran

theorem sharedBase_blocked : Blocked sharedBase s t ↔ t.Waits s := by
  constructor
  · intro blocked
    exact (sharedBase_tells blocked).2.2
  · rintro ⟨idle, pending, ops, first⟩
    rcases idle with nothing | ⟨count, loaded⟩
    · simp [Blocked, sharedBase, nothing, first, op, pending]
    · simp [Blocked, sharedBase, loaded, first, op, pending]

theorem sharedBase_none : sharedBase t s = none ↔ t.Idle ∧ t.ops = [] := by
  unfold sharedBase Local.Idle
  cases doing : t.doing with
  | posting ks finishing => cases ks <;> simp
  | nothing | loaded | dropped | breaking => cases t.ops <;> simp

theorem sharedBase_announces : Announces (sharedBase : Code (Local R) (State R)) where
  wait {t t' s s'} ran := by
    obtain ⟨rfl, rfl, waits⟩ := sharedBase_tells ran
    exact ⟨sharedBase_blocked.mpr waits, fun u => id⟩
  leave {t t' s s' notify} ran := by
    rcases sharedBase_tells ran with rfl | ⟨rfl, same⟩
    · exact .inl (by simp)
    · refine .inr fun u blocked => ?_
      obtain ⟨idle, pending, waits⟩ := sharedBase_blocked.mp blocked
      exact sharedBase_blocked.mpr ⟨idle, same.trans pending, waits⟩

end Tconcurrent.SharedBaseThreads
