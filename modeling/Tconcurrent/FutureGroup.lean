import Mathlib.Logic.Function.Basic
import Tconcurrent.Future
import Tconcurrent.Interleaving

/-! `future_group` and `task_canceler`: futures that are cancelled and waited for
together.

Both keep the `to_void` futures of what they are given and differ in who may
terminate them.  What runs under the mutex runs user code: the function given to
`run`, and the cancelers that `terminate` calls. -/
namespace Tconcurrent.FutureGroup
open Interleaving

inductive Kind where
  | futureGroup
  | taskCanceler
  deriving DecidableEq

inductive Outcome where
  | value
  | exception (e : Exc)
  deriving DecidableEq

inductive GroupCall where
  /-- User code. -/
  | user
  /-- The continuation of `to_void` on the future it was called on. -/
  | toVoid (k : ℕ)
  /-- The function given to `run` returns. -/
  | functionReturn
  /-- A canceler of `when_all`. -/
  | cancelEntry (k : ℕ)
  /-- The loop of `terminate`, and what follows it.  `late` says that the object
  was terminating before. -/
  | cancelTaken (late : Bool) (rest requested : List ℕ)
  deriving DecidableEq

/-- What user code does next; the function given to `run` returns a future or throws. -/
inductive Choice where
  | return
  | add (u : ℕ)
  | run
  | terminate
  /-- The destructor. -/
  | destroy
  | complete (u : ℕ) (r : Outcome)
  | requestCancel (u : ℕ)
  /-- `request_cancel` on what a `terminate` has returned. -/
  | cancelReturned (i : ℕ)
  | future (u : ℕ)
  | throw
  deriving DecidableEq

/-- A finished `terminate`: the entries it took, those it cancelled, and the
future it returned, which `when_all` resolves. -/
structure Termination where
  taken : List ℕ
  requested : List ℕ
  late : Bool
  count : ℕ
  future : Option Outcome
  canceled : Bool := false
  deriving DecidableEq

structure State where
  kind : Kind
  /-- The user's futures and their tokens. -/
  user : ℕ → Option Outcome := fun _ => none
  token : ℕ → ℕ
  requested : ℕ → Bool := fun _ => false
  /-- The entries made so far: the future each of them is made of, and its own state. -/
  next : ℕ := 0
  source : ℕ → ℕ := fun _ => 0
  void : ℕ → Option Outcome := fun _ => none
  /-- `_futures`. -/
  futures : List ℕ := []
  /-- `_terminating` and `_mutex`. -/
  terminating : Bool := false
  locked : Bool := false
  terminations : List Termination := []
  /-- The futures that were not ready when they were added, and what was thrown. -/
  added : List ℕ := []
  errors : List String := []
  assertFailed : Bool := false

abbrev GroupStep := State × List GroupCall

/-- `collect`: ready futures leave the vector. -/
def collect (s : State) : State :=
  { s with futures := s.futures.filter fun k => (s.void k).isNone }

/-- `_futures.emplace_back(future.to_void())`. -/
def emplace (u : ℕ) (s : State) : State :=
  { s with
    futures := s.futures ++ [s.next]
    source := Function.update s.source s.next u
    next := s.next + 1
    added := s.added ++ [u] }

/-- `future_group::add`. -/
def add (u : ℕ) (s : State) : State :=
  if s.terminating then
    { s with errors := s.errors ++ ["adding a future to terminating future_group"] }
  else if (s.user u).isSome then s
  else emplace u (collect s)

/-- `task_canceler::run` up to the function it is given. -/
def run (s : State) : GroupStep :=
  if s.terminating then
    ({ s with errors := s.errors ++ ["adding a task to terminating task_canceler"] }, [.user])
  else ({ s with locked := true }, [.user, .functionReturn, .user])

/-- The rest of `run`. -/
def functionReturn (u : ℕ) (s : State) : State :=
  let s := { s with locked := false }
  if (s.user u).isNone then emplace u (collect s) else s

/-- `request_cancel` on an entry: a resolved state has no token any more. -/
def cancelEntry (k : ℕ) (s : State) : GroupStep :=
  if (s.void k).isNone then
    ({ s with requested := Function.update s.requested (s.token (s.source k)) true }, [.user])
  else (s, [])

/-- `do_and_then_callback` on an entry's source. -/
def voidResult (s : State) (k : ℕ) : Option Outcome :=
  (s.user (s.source k)).map fun
    | .exception e => .exception e
    | .value =>
      if s.requested (s.token (s.source k)) then .exception .operationCanceled else .value

namespace Termination

/-- `when_all`'s promise is set, and `to_void` passes the result on. -/
def finish (t : Termination) : Termination :=
  if t.count = t.taken.length then
    { t with future := some (if t.canceled then .exception .operationCanceled else .value) }
  else t

/-- `when_all_callback::operator()`. -/
def arrive (k : ℕ) (t : Termination) : Termination :=
  if k ∈ t.taken then { t with count := t.count + 1 }.finish else t

end Termination

/-- An entry is resolved, and `when_all` hears of it. -/
def toVoid (k : ℕ) (s : State) : State :=
  match voidResult s k with
  | none => s
  | some r =>
    { s with
      void := Function.update s.void k (some r)
      terminations := s.terminations.map (·.arrive k)
      assertFailed := s.assertFailed ||
        s.terminations.any fun t => decide (k ∈ t.taken ∧ t.taken.length ≤ t.count) }

/-- `when_all` over the futures, and the end of `terminate`: the continuations of
ready futures are called at once. -/
def whenAll (late : Bool) (requested : List ℕ) (s : State) : State :=
  let count := s.futures.countP fun k => (s.void k).isSome
  let termination : Termination := { taken := s.futures, requested, late, count, future := none }
  { s with
    terminations := s.terminations ++ [termination.finish]
    futures := []
    locked := false }

def cancelTaken (late : Bool) (requested : List ℕ) (s : State) : List ℕ → GroupStep
  | [] => (whenAll late requested s, [])
  | k :: rest =>
    if (s.void k).isNone then
      let (s, calls) := cancelEntry k s
      (s, calls ++ [.cancelTaken late rest (requested ++ [k])])
    else (s, [.cancelTaken late rest requested])

/-- `terminate`. -/
def terminate (terminating : Bool) (s : State) : GroupStep :=
  ({ s with locked := true, terminating := s.terminating || terminating },
    [.cancelTaken s.terminating s.futures [], .user])

/-- A future of the user gets ready, and its continuations are called. -/
def complete (u : ℕ) (r : Outcome) (s : State) : GroupStep :=
  let entries := (List.range s.next).filter fun k => s.source k = u ∧ s.void k = none
  ({ s with user := Function.update s.user u (some r) },
    entries.flatMap (fun k => [.user, .toVoid k]) ++ [.user])

/-- `request_cancel` on what the `i`-th `terminate` has returned. -/
def cancelReturned (i : ℕ) (s : State) : GroupStep :=
  match s.terminations[i]? with
  | none => (s, [.user])
  | some t =>
    if t.future.isNone then
      ({ s with terminations := s.terminations.set i { t with canceled := true } },
        t.taken.map .cancelEntry ++ [.user])
    else (s, [.user])

/-- What user code can do.  What takes the mutex waits for it. -/
def user (s : State) : Choice → Option GroupStep
  | .return => some (s, [])
  | .add u =>
    if s.locked ∨ s.kind = .taskCanceler then none else some (add u s, [.user])
  | .run => if s.locked ∨ s.kind = .futureGroup then none else some (run s)
  | .terminate =>
    if s.locked then none
    else
      match s.kind with
      | .futureGroup => some (terminate true s)
      | .taskCanceler => some (terminate false s)
  | .destroy =>
    if s.locked ∨ s.kind = .futureGroup then none else some (terminate true s)
  | .complete u r => if (s.user u).isSome then none else some (complete u r s)
  | .requestCancel u =>
    if (s.user u).isSome then some (s, [.user])
    else
      some ({ s with requested := Function.update s.requested (s.token u) true }, [.user, .user])
  | .cancelReturned i => some (cancelReturned i s)
  | .future _ => none
  | .throw => none

/-- One step of a thread. -/
def exec : Machine State GroupCall Choice
  | _, choice, s, .user => user s choice
  | _, _, s, .toVoid k => some (toVoid k s, [])
  | _, .future u, s, .functionReturn => some (functionReturn u s, [])
  | _, .throw, s, .functionReturn => some ({ s with locked := false }, [])
  | _, _, _, .functionReturn => none
  | _, _, s, .cancelEntry k => some (cancelEntry k s)
  | _, _, s, .cancelTaken late rest requested => some (cancelTaken late requested s rest)

/-- An empty object, and any number of threads that use it. -/
def start (kind : Kind) (token : ℕ → ℕ) (threads : ℕ) : Config State GroupCall :=
  ⟨{ kind, token }, List.replicate threads [.user]⟩

end Tconcurrent.FutureGroup
