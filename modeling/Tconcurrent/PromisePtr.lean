import Mathlib.Data.Finset.Card
import Tconcurrent.Builtins
import Tconcurrent.Future
import Tconcurrent.Interleaving

/-! `promise_ptr`: the pointers that count as promises of a shared state.

One thread runs operations on pointers and states.  An operation that resolves a
state posts the continuations of that state, whose executors may run them at
once: user code then runs in the middle of the operation, and what is left of
the operation is on the agenda behind it. -/
namespace Tconcurrent.PromisePtr
open Interleaving Builtins

/-- A `promise_ptr` object. -/
inductive Pointer where
  /-- It is not constructed yet, or destroyed. -/
  | gone
  | holds (target : Option ℕ)
  /-- `finish` is running in its destructor or in an assignment to it. -/
  | finishing (target : Option ℕ)
  deriving DecidableEq

namespace Pointer

/-- `_ptr`. -/
def target : Pointer → Option ℕ
  | gone => none
  | holds target => target
  | finishing target => target

/-- A `shared_ptr` that is moved from is null. -/
def moved : Pointer → Pointer
  | gone => gone
  | holds _ => holds none
  | finishing _ => finishing none

def isFinishing : Pointer → Bool
  | finishing _ => true
  | _ => false

end Pointer

inductive PromiseCall where
  /-- The program, or what a continuation runs. -/
  | user
  /-- The `i`-th continuation of a state is posted. -/
  | post (a i : ℕ)
  /-- The assignments after `finish`. -/
  | copyAssigned (q r : ℕ)
  | moveAssigned (q r : ℕ)
  /-- The end of the destructor. -/
  | destroyed (p : ℕ)
  deriving DecidableEq

abbrev PromiseAction := Call ℕ ℕ PromiseCall

/-- What the program, or a continuation, does next. -/
inductive Choice where
  | return
  | makeShared
  | copy (r : ℕ)
  | move (r : ℕ)
  | copyAssign (q r : ℕ)
  | moveAssign (q r : ℕ)
  | destroy (p : ℕ)
  | tryLock (a : ℕ)
  /-- `set` and `set_exception`. -/
  | set (p : ℕ) (r : Result ℕ ℕ)
  | then (a : ℕ)
  deriving DecidableEq

structure State where
  heap : Heap ℕ ℕ PromiseCall := {}
  /-- `_promise_count`, an `unsigned int`. -/
  promiseCount : ℕ → ℕ := fun _ => 0
  /-- The number of states and of pointers so far. -/
  made : ℕ := 0
  next : ℕ := 0
  pointers : ℕ → Pointer := fun _ => .gone
  /-- What a holder has set. -/
  sets : ℕ → Option (Result ℕ ℕ) := fun _ => none
  /-- How many continuations a state was given, and how many before it was resolved. -/
  registered : ℕ → ℕ := fun _ => 0
  early : ℕ → ℕ := fun _ => 0
  /-- The continuations that were posted, the first one first. -/
  posted : ℕ → List ℕ := fun _ => []
  assertFailed : Bool := false

abbrev PromiseStep := State × List PromiseAction

instance : Asserting State := ⟨fun s => { s with assertFailed := true }⟩

namespace State

def setPointer (s : State) (p : ℕ) (pointer : Pointer) : State :=
  { s with pointers := Function.update s.pointers p pointer }

/-- A new `promise_ptr`. -/
def newPointer (s : State) (target : Option ℕ) : State :=
  { s.setPointer s.next (.holds target) with next := s.next + 1 }

def setCount (s : State) (a count : ℕ) : State :=
  { s with promiseCount := Function.update s.promiseCount a count }

def target (s : State) (p : ℕ) : Option ℕ := (s.pointers p).target

end State

/-- `shared_base::finish`. -/
def finish (a : ℕ) (r : Result ℕ ℕ) (s : State) : PromiseStep :=
  ({ check s ((s.heap.states a).r = none) with heap := (s.heap.finish a r).1 },
    (s.heap.finish a r).2)

/-- `shared_base::increment_promise`. -/
def incrementPromise (a : ℕ) (s : State) : Option State :=
  if s.promiseCount a = 0 then none else some (s.setCount a (increment (s.promiseCount a)))

/-- `shared_base::decrement_promise`. -/
def decrementPromise (a : ℕ) (s : State) : PromiseStep :=
  let count := decrement (s.promiseCount a)
  let s := (check s (0 < s.promiseCount a)).setCount a count
  if count = 0 ∧ (s.heap.states a).r = none then finish a (.exception .brokenPromise) s
  else (s, [])

/-- `increment_promise` where it is asserted to succeed. -/
def lock (a : ℕ) (s : State) : State :=
  (incrementPromise a s).getD { s with assertFailed := true }

/-- `promise_ptr::finish`. -/
def finishPointer (p : ℕ) (s : State) : PromiseStep :=
  let finishing := s.setPointer p (.finishing (s.target p))
  match s.target p with
  | some a => decrementPromise a finishing
  | none => (finishing, [])

/-- The copy constructor. -/
def copy (r : ℕ) (s : State) : Option State :=
  (s.target r).map fun a => lock a (s.newPointer (some a))

/-- The move constructor. -/
def move (r : ℕ) (s : State) : State :=
  (s.newPointer (s.target r)).setPointer r (s.pointers r).moved

/-- Copy assignment up to the end of `finish`. -/
def copyAssign (q r : ℕ) (s : State) : PromiseStep :=
  if s.target q ≠ s.target r then
    let (s, calls) := finishPointer q s
    (s, calls ++ [.client (.copyAssigned q r)])
  else (s, [])

/-- The end of copy assignment. -/
def copyAssigned (q r : ℕ) (s : State) : Option State :=
  (s.target r).map fun a => lock a (s.setPointer q (.holds (some a)))

/-- Move assignment up to the end of `finish`. -/
def moveAssign (q r : ℕ) (s : State) : PromiseStep :=
  if s.target q ≠ s.target r then
    let (s, calls) := finishPointer q s
    (s, calls ++ [.client (.moveAssigned q r)])
  else (s, [])

/-- The end of move assignment. -/
def moveAssigned (q r : ℕ) (s : State) : State :=
  (s.setPointer q (.holds (s.target r))).setPointer r (s.pointers r).moved

/-- The destructor up to the end of `finish`. -/
def destroy (p : ℕ) (s : State) : PromiseStep :=
  let (s, calls) := finishPointer p s
  (s, calls ++ [.client (.destroyed p)])

/-- `promise_ptr::try_lock`. -/
def tryLock (a : ℕ) (s : State) : State :=
  match incrementPromise a s with
  | some s => s.newPointer (some a)
  | none => s.newPointer none

/-- `promise_ptr::make_shared`. -/
def makeShared (s : State) : State :=
  let s' := { s with
    made := s.made + 1
    heap := s.heap.setState s.made { cancelationToken := some s.made } }
  (s'.setCount s.made 1).newPointer (some s.made)

/-- `set` or `set_exception` through a pointer. -/
def set (a : ℕ) (r : Result ℕ ℕ) (s : State) : PromiseStep :=
  finish a r { s with sets := Function.update s.sets a (some r) }

/-- `shared_base::then`. -/
def thenPost (a : ℕ) (s : State) : PromiseStep :=
  let i := s.registered a
  let (heap, calls) := s.heap.thenRun a (.client (.post a i))
  let early := if (s.heap.states a).r = none then i + 1 else s.early a
  ({ s with
      heap
      registered := Function.update s.registered a (i + 1)
      early := Function.update s.early a early },
    calls)

/-- What user code can do: it names pointers that exist, a source is not null,
and a holder sets a state that no holder has set. -/
def user (s : State) : Choice → Option PromiseStep
  | .return => some (s, [])
  | .makeShared => some (makeShared s, [.client .user])
  | .copy r => (copy r s).map (·, [.client .user])
  | .move r => if s.pointers r = .gone then none else some (move r s, [.client .user])
  | .copyAssign q r =>
    if s.pointers q = .gone ∨ s.target r = none then none
    else
      let (s, calls) := copyAssign q r s
      some (s, calls ++ [.client .user])
  | .moveAssign q r =>
    if s.pointers q = .gone ∨ s.pointers r = .gone then none
    else
      let (s, calls) := moveAssign q r s
      some (s, calls ++ [.client .user])
  | .destroy p =>
    if s.pointers p = .gone then none
    else
      let (s, calls) := destroy p s
      some (s, calls ++ [.client .user])
  | .tryLock a => if a < s.made then some (tryLock a s, [.client .user]) else none
  | .set p r =>
    match s.target p with
    | some a =>
      if s.sets a = none then
        let (s, calls) := set a r s
        some (s, calls ++ [.client .user])
      else none
    | none => none
  | .then a =>
    if a < s.made then
      let (s, calls) := thenPost a s
      some (s, calls ++ [.client .user])
    else none

def clientExec (choice : Choice) (s : State) : PromiseCall → Option PromiseStep
  | .user => user s choice
  | .post a i =>
    -- The executor may run the continuation at once.
    some ({ s with posted := Function.update s.posted a (s.posted a ++ [i]) }, [.client .user])
  | .copyAssigned q r => (copyAssigned q r s).map (·, [])
  | .moveAssigned q r => some (moveAssigned q r s, [])
  | .destroyed p => some (s.setPointer p .gone, [])

/-- One step; the program makes no other call. -/
def exec : Machine State PromiseAction Choice
  | _, choice, s, .client k => clientExec choice s k
  | _, _, _, _ => none

/-- A program that has no pointer yet. -/
def start : Config State PromiseAction := ⟨{}, [[.client .user]]⟩

end Tconcurrent.PromisePtr
