import Mathlib.Logic.Function.Basic
import Tconcurrent.CancelationToken

/-! Futures, their shared states and `unwrap` on the synchronous executor.

The heap names its shared states and tokens by types of the program built on
it, and the closures that the program registers are calls of its own.  A
continuation list and a callback stack therefore hold calls: what a thread does
when the closure is called. -/
namespace Tconcurrent

/-- The exceptions the library itself sets, and those of user code. -/
inductive Exc where
  | operationCanceled
  | brokenPromise
  | user (code : ℕ)
  deriving DecidableEq

/-- `future_base`: the shared state and the copy of its cancelation token. -/
structure Future (N T : Type) where
  p : N
  cancelationToken : Option T
  deriving DecidableEq

/-- What a shared state can hold: a plain value or, for nested futures, a future. -/
inductive Value (N T : Type) where
  | plain (v : ℕ)
  | future (fut : Future N T)
  deriving DecidableEq

/-- `v_value` and `v_exception`. -/
inductive Result (N T : Type) where
  | value (v : Value N T)
  | exception (e : Exc)
  deriving DecidableEq

/-- A call of the library or of the program built on it. -/
inductive Call (N T K : Type) where
  /-- `shared_base::set` and `set_exception`: `finish`. -/
  | finish (p : N) (r : Result N T)
  /-- `shared_base::then` with the synchronous executor. -/
  | thenRun (p : N) (f : Call N T K)
  /-- `future_base::request_cancel`, and the closure `make_canceler` returns. -/
  | requestCancel (p : N)
  | popCancelationCallback (token : T)
  /-- The closure `unwrap` registers on the outer future. -/
  | unwrapOuter (fut1 sb : N)
  /-- The closure `unwrap` registers on the inner future. -/
  | unwrapInner (fut2 sb : N) (token : Option T)
  /-- A closure of the program. -/
  | client (k : K)
  deriving DecidableEq

/-- `shared_base`. -/
structure SharedBase (N T K : Type) where
  r : Option (Result N T) := none
  thens : List (Call N T K) := []
  cancelationToken : Option T := none

structure Heap (N T K : Type) where
  states : N → SharedBase N T K := fun _ => {}
  tokens : T → CancelationToken (Call N T K) := fun _ => {}

namespace Heap

variable {N T K : Type} [DecidableEq N] [DecidableEq T]

def setState (heap : Heap N T K) (p : N) (state : SharedBase N T K) : Heap N T K :=
  { heap with states := Function.update heap.states p state }

def setToken (heap : Heap N T K) (t : T) (token : CancelationToken (Call N T K)) : Heap N T K :=
  { heap with tokens := Function.update heap.tokens t token }

/-- The constructor `future_base(shared_pointer p)`. -/
def future (heap : Heap N T K) (p : N) : Future N T := ⟨p, (heap.states p).cancelationToken⟩

/-- `future_base::is_ready`. -/
def Ready (heap : Heap N T K) (p : N) : Prop := (heap.states p).r ≠ none

instance (heap : Heap N T K) (p : N) : Decidable (heap.Ready p) :=
  inferInstanceAs (Decidable (_ ≠ none))

/-- `future_base::has_value`. -/
def hasValue (heap : Heap N T K) (p : N) : Bool :=
  match (heap.states p).r with
  | some (.value _) => true
  | _ => false

/-- `shared_base::finish`: the result is set, the token is dropped and the
continuations are called in registration order. -/
def finish (heap : Heap N T K) (p : N) (r : Result N T) : Heap N T K × List (Call N T K) :=
  (heap.setState p { r := some r, thens := [], cancelationToken := none }, (heap.states p).thens)

/-- `shared_base::then`: the closure is kept until the state is resolved, or
called at once. -/
def thenRun (heap : Heap N T K) (p : N) (f : Call N T K) : Heap N T K × List (Call N T K) :=
  if (heap.states p).r = none then
    (heap.setState p { heap.states p with thens := (heap.states p).thens ++ [f] }, [])
  else (heap, [f])

/-- An operation on a token of the heap. -/
def onToken (heap : Heap N T K) (t : T)
    (op : CancelationToken (Call N T K) → CancelationToken (Call N T K) × List (Call N T K)) :
    Heap N T K × List (Call N T K) :=
  (heap.setToken t (op (heap.tokens t)).1, (op (heap.tokens t)).2)

/-- `future_base::request_cancel`: a resolved state has no token any more. -/
def requestCancel (heap : Heap N T K) (p : N) : Heap N T K × List (Call N T K) :=
  match (heap.states p).cancelationToken with
  | some t => heap.onToken t CancelationToken.requestCancel
  | none => (heap, [])

/-- The first closure of `unwrap`.  The canceler of the inner future is pushed
on the token of the unwrapped future unless both futures share that token. -/
def unwrapOuter (heap : Heap N T K) (fut1 sb : N) : Heap N T K × List (Call N T K) :=
  match (heap.states fut1).r with
  | some (.exception e) => (heap, [.finish sb (.exception e)])
  | some (.value (.future fut2)) =>
    match (heap.states sb).cancelationToken with
    | some token =>
      if some token ≠ fut2.cancelationToken then
        let (heap, calls) := heap.onToken token (·.pushCancelationCallback (.requestCancel fut2.p))
        (heap, calls ++ [.thenRun fut2.p (.unwrapInner fut2.p sb (some token))])
      else (heap, [.thenRun fut2.p (.unwrapInner fut2.p sb none)])
    | none => (heap, [.thenRun fut2.p (.unwrapInner fut2.p sb none)])
  | _ => (heap, [])

/-- The second closure of `unwrap`: the canceler is popped, then the result of
the inner future is passed on. -/
def unwrapInner (heap : Heap N T K) (fut2 sb : N) (token : Option T) :
    Heap N T K × List (Call N T K) :=
  match (heap.states fut2).r with
  | some r => (heap, (token.map .popCancelationCallback).toList ++ [.finish sb r])
  | none => (heap, [])

/-- The library's part of a call; the program's own closures are its business. -/
def exec (heap : Heap N T K) : Call N T K → Heap N T K × List (Call N T K)
  | .finish p r => heap.finish p r
  | .thenRun p f => heap.thenRun p f
  | .requestCancel p => heap.requestCancel p
  | .popCancelationCallback t => heap.onToken t CancelationToken.popCancelationCallback
  | .unwrapOuter fut1 sb => heap.unwrapOuter fut1 sb
  | .unwrapInner fut2 sb token => heap.unwrapInner fut2 sb token
  | .client _ => (heap, [])

/-- A thread that makes calls of the library until none is left. -/
def settle : ℕ → Heap N T K → List (Call N T K) → Option (Heap N T K)
  | _, heap, [] => some heap
  | 0, _, _ :: _ => none
  | fuel + 1, heap, call :: rest => settle fuel (heap.exec call).1 ((heap.exec call).2 ++ rest)

end Heap

end Tconcurrent
