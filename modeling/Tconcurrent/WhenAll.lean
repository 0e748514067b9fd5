import Tconcurrent.FutureInputs

/-! `when_all`.

The callback and the loop that registers it go step by step, so that an input can be
resolved between any two of them, and inside the loop over the cancelers. -/
namespace Tconcurrent.WhenAll
open Interleaving FutureInputs

inductive Closure where
  | user
  /-- `when_all` is called. -/
  | whenAll
  /-- `cb.get_future()`. -/
  | getFuture
  /-- `when_all_callback::operator()`, up to its increment. -/
  | callback (index : ℕ) (future : Input)
  | increment
  | setValue
  /-- `shared::request_cancel`. -/
  | canceler
  deriving DecidableEq

abbrev WhenAllCall := InputCall Closure

/-- `when_all_callback::shared`, and what other code has seen of it. -/
structure State where
  heap : InputHeap Closure
  called : Bool := false
  finishedFutures : List (Option Input) := []
  /-- `std::atomic<unsigned int>`. -/
  count : ℕ := 0
  /-- The value that the promise was set to. -/
  value : Option (List (Option Input)) := none
  /-- How often it was set. -/
  sets : ℕ := 0
  returned : Bool := false
  /-- Cancelation was requested on the returned future when it was not ready. -/
  canceled : Bool := false
  assertFailed : Bool := false

abbrev WhenAllStep := State × List WhenAllCall

section
variable (inputs : List Input)

/-- `unsigned int const total`. -/
def total : ℕ := inputs.length % 2 ^ 32

def program : Program Closure where
  user := .user
  continuation p k := ∃ index fut, k = .callback index fut ∧ inputs[index]? = some fut ∧ fut.p = p
  canceler := .canceler
  internal k := ∀ index fut, k ≠ .callback index fut
  user_internal := by simp
  internal_plain := by
    rintro p k ⟨index, fut, rfl, -⟩ own
    exact own index fut rfl
  canceler_plain := by simp
  canceler_ne := by simp

/-- What the loop of `when_all` registers, from some index on. -/
def registrations (first : ℕ) : List WhenAllCall :=
  (inputs.zipIdx first).map fun entry =>
    .thenRun (some entry.1.p) (.client (.callback entry.2 entry.1))

/-- The constructor of `when_all_callback` and the loop of `when_all`. -/
def whenAll (s : State) : WhenAllStep :=
  if inputs = [] then
    ({ s with
       called := true
       heap := s.heap.setState none { r := some (.value (.plain 0)) }
       value := some [] }, [.client .getFuture])
  else
    ({ s with
       called := true
       heap := (program inputs).makePromise s.heap
       finishedFutures := List.replicate inputs.length none },
      registrations inputs 0 ++ [.client .getFuture])

/-- The future goes into its slot. -/
def callback (index : ℕ) (future : Input) (s : State) : WhenAllStep :=
  ({ s with
     assertFailed := s.assertFailed || !decide (s.count < total inputs)
     finishedFutures := s.finishedFutures.set index (some future) }, [.client .increment])

/-- `++_p->count == _p->total`. -/
def increment (s : State) : WhenAllStep :=
  let count := (s.count + 1) % 2 ^ 32
  ({ s with count }, if count = total inputs then [.client .setValue] else [])

/-- The promise is set.  `canceler = {}` before it pops nothing. -/
def setValue (s : State) : WhenAllStep :=
  ({ s with
     value := some s.finishedFutures
     finishedFutures := []
     sets := s.sets + 1 }, [.finish none (.value (.plain 0))])

/-- `shared::request_cancel`: every canceler that `make_canceler` has made. -/
def requestCancel (s : State) : WhenAllStep :=
  (s, inputs.map fun fut => .requestCancel (some fut.p))

/-- Other code. -/
def user (s : State) (choice : Choice) : Option WhenAllStep :=
  ((program inputs).others s.returned s.heap choice).map fun step =>
    ({ s with
       heap := step.1
       canceled := s.canceled ||
         decide (choice = .requestCancel none ∧ s.called = true ∧ ¬ s.heap.Ready none) }, step.2)

def clientExec (choice : Choice) (s : State) : Closure → Option WhenAllStep
  | .user => user inputs s choice
  | .whenAll => some (whenAll inputs s)
  | .getFuture => some ({ s with returned := true }, [])
  | .callback index future => some (callback inputs index future s)
  | .increment => some (increment inputs s)
  | .setValue => some (setValue s)
  | .canceler => some (requestCancel inputs s)

/-- One step of a thread.  A state that is resolved twice ends the program. -/
def exec : Machine State WhenAllCall Choice
  | _, choice, s, .client k => clientExec inputs choice s k
  | _, _, s, .finish p r =>
    if s.heap.Ready p then none
    else some ({ s with heap := (s.heap.exec (.finish p r)).1 }, (s.heap.exec (.finish p r)).2)
  | _, _, s, call => some ({ s with heap := (s.heap.exec call).1 }, (s.heap.exec call).2)

end

/-- One thread calls `when_all` at some time, among any number of others. -/
def start (token : ℕ → ℕ) (threads : ℕ) : Config State WhenAllCall where
  state := { heap := given token }
  threads := [.client .user, .client .whenAll, .client .user] ::
    List.replicate threads [.client .user]

end Tconcurrent.WhenAll
