import Mathlib.Algebra.BigOperators.Group.Finset.Basic
import Mathlib.Algebra.GroupWithZero.Nat
import Mathlib.Data.Fintype.Basic
import Tconcurrent.Future

/-! Expressions of futures, on the synchronous executor.

The promises are given, and user code resolves them in any order, before and after it
evaluates an expression.  A call of the library comes to its end, with all continuations
that it calls, before user code goes on. -/
namespace Tconcurrent.FutureLaws

variable {ι : Type}

/-- A shared state or a token: a given one, or the `n`th that the library has made. -/
inductive Name (ι : Type) where
  | given (i : ι)
  | made (n : ℕ)
  deriving DecidableEq

/-- What functions of the user take and return: a plain value, or a given future. -/
inductive Datum (ι : Type) where
  | plain (v : ℕ)
  | future (i : ι)
  deriving DecidableEq

/-- What is passed to `and_then`: a function that may throw, or one of the library's. -/
inductive Func (ι : Type) where
  | user (f : Datum ι → Except Exc (Datum ι))
  | makeReadyFuture
  | unwrap

inductive Closure (ι : Type) where
  /-- The packaged task of `and_then`, with the token of the future it was called on. -/
  | andThen (p : Name ι) (token : Option (Name ι)) (func : Func ι) (task : Name ι)
  /-- `unwrap` returns the unwrapped future, which the packaged task sets. -/
  | returnFuture (sb task : Name ι)

/-- How a shared state was made. -/
inductive Node (ι : Type) where
  | ready
  | task (p : Name ι) (func : Func ι)
  | unwrapped (p : Name ι)

abbrev LawFuture (ι : Type) := Future (Name ι) (Name ι)
abbrev LawCall (ι : Type) := Call (Name ι) (Name ι) (Closure ι)
abbrev LawBase (ι : Type) := SharedBase (Name ι) (Name ι) (Closure ι)

structure State (ι : Type) where
  heap : Heap (Name ι) (Name ι) (Closure ι) := {}
  /-- The tokens of the given futures. -/
  token : ι → Option ι
  /-- What the library has made, in order. -/
  made : List (Node ι) := []

/-- The value of a future that user code gets; it has the others from the library. -/
def datum : Value (Name ι) (Name ι) → Option (Datum ι)
  | .plain v => some (.plain v)
  | .future ⟨.given i, _⟩ => some (.future i)
  | .future ⟨.made _, _⟩ => none

namespace State

variable [DecidableEq ι] (s : State ι)

def result (p : Name ι) : Option (Result (Name ι) (Name ι)) := (s.heap.states p).r

def given (i : ι) : LawFuture ι := ⟨.given i, (s.token i).map .given⟩

def value : Datum ι → Value (Name ι) (Name ι)
  | .plain v => .plain v
  | .future i => .future (s.given i)

/-- What is set: a value, or what was thrown. -/
def resultOf : Except Exc (Datum ι) → Result (Name ι) (Name ι)
  | .ok d => .value (s.value d)
  | .error e => .exception e

/-- The next shared state, and the token it may get. -/
def fresh : Name ι := .made s.made.length

def create (node : Node ι) (state : LawBase ι) : State ι :=
  { s with heap := s.heap.setState s.fresh state, made := s.made ++ [node] }

/-- `make_ready_future`. -/
def makeReadyFuture (v : Value (Name ι) (Name ι)) : State ι × LawFuture ι :=
  (s.create .ready { r := some (.value v) }, ⟨s.fresh, some s.fresh⟩)

/-- `and_then` and `then_impl`: the future of the packaged task is made first. -/
def andThen (fut : LawFuture ι) (func : Func ι) : State ι × LawFuture ι × List (LawCall ι) :=
  let token := fut.cancelationToken.getD s.fresh
  (s.create (.task fut.p func) { cancelationToken := some token }, ⟨s.fresh, some token⟩,
    [.thenRun fut.p (.client (.andThen fut.p fut.cancelationToken func s.fresh))])

/-- `unwrap`, up to the future that it returns. -/
def unwrap (fut : LawFuture ι) : State ι × Name ι × List (LawCall ι) :=
  let token := fut.cancelationToken.getD s.fresh
  (s.create (.unwrapped fut.p) { cancelationToken := some token }, s.fresh,
    [.thenRun fut.p (.unwrapOuter fut.p s.fresh)])

/-- What the function does with the value, and what the packaged task sets. -/
def callFunc (v : Value (Name ι) (Name ι)) (task : Name ι) :
    Func ι → State ι × List (LawCall ι)
  | .user f =>
    match datum v with
    | some d => (s, [.finish task (s.resultOf (f d))])
    | none => (s, [])
  | .makeReadyFuture =>
    let (s, fut) := s.makeReadyFuture v
    (s, [.finish task (.value (.future fut))])
  | .unwrap =>
    match v with
    | .future fut =>
      let (s, sb, calls) := s.unwrap fut
      (s, calls ++ [.client (.returnFuture sb task)])
    | .plain _ => (s, [])

/-- `do_and_then_callback` in `operator()` of the packaged task. -/
def doAndThenCallback (p : Name ι) (token : Option (Name ι)) (func : Func ι) (task : Name ι) :
    State ι × List (LawCall ι) :=
  match s.result p with
  | some (.value v) =>
    if token.any fun t => (s.heap.tokens t).isCancelRequested then
      (s, [.finish task (.exception .operationCanceled)])
    else s.callFunc v task func
  | some (.exception e) => (s, [.finish task (.exception e)])
  | none => (s, [])

def exec : LawCall ι → State ι × List (LawCall ι)
  | .client (.andThen p token func task) => s.doAndThenCallback p token func task
  | .client (.returnFuture sb task) => (s, [.finish task (.value (.future (s.heap.future sb)))])
  | call => ({ s with heap := (s.heap.exec call).1 }, (s.heap.exec call).2)

/-- A call, and all that it calls. -/
def settle : ℕ → State ι → List (LawCall ι) → Option (State ι)
  | _, s, [] => some s
  | 0, _, _ :: _ => none
  | fuel + 1, s, call :: rest => settle fuel (s.exec call).1 ((s.exec call).2 ++ rest)

end State

/-- How many calls come from one. -/
def work : LawCall ι → ℕ
  | .finish _ _ => 1
  | .thenRun _ f => work f + 1
  | .requestCancel _ => 1
  | .popCancelationCallback _ => 1
  | .unwrapOuter _ _ => 5
  | .unwrapInner _ _ _ => 3
  | .client (.andThen _ _ .unwrap _) => 9
  | .client (.andThen _ _ _ _) => 2
  | .client (.returnFuture _ _) => 2

namespace State

variable [DecidableEq ι] [Fintype ι]

/-- All shared states. -/
def homes (s : State ι) : Finset (Name ι) :=
  Finset.univ.image .given ∪ (Finset.range s.made.length).image .made

/-- What calls and continuations add up to. -/
def total (measure : LawCall ι → ℕ) (s : State ι) (calls : List (LawCall ι)) : ℕ :=
  (calls.map measure).sum + ∑ p ∈ s.homes, ((s.heap.states p).thens.map measure).sum

/-- Calls that user code makes, up to their end. -/
def complete (s : State ι) (calls : List (LawCall ι)) : Option (State ι) :=
  s.settle (s.total work calls) calls

/-- A promise is set or broken.  It can be set once. -/
def resolve (s : State ι) (step : ι × Except Exc (Datum ι)) : Option (State ι) :=
  if s.result (.given step.1) = none then
    s.complete [.finish (.given step.1) (s.resultOf step.2)]
  else some s

end State

/-- An expression of futures. -/
inductive Expr (ι : Type) where
  | given (i : ι)
  | makeReadyFuture (inner : Expr ι)
  | andThen (fut : Expr ι) (func : Func ι)
  | unwrap (fut : Expr ι)

variable [DecidableEq ι] [Fintype ι]

/-- Evaluating an expression. -/
def Expr.build : Expr ι → State ι → Option (State ι × LawFuture ι)
  | .given i, s => some (s, s.given i)
  | .makeReadyFuture inner, s => do
    let (s, fut) ← inner.build s
    return s.makeReadyFuture (.future fut)
  | .andThen fut func, s => do
    let (s, fut) ← fut.build s
    let (s, task, calls) := s.andThen fut func
    let s ← s.complete calls
    return (s, task)
  | .unwrap fut, s => do
    let (s, fut) ← fut.build s
    let (s, sb, calls) := s.unwrap fut
    let s ← s.complete calls
    return (s, s.heap.future sb)

/-- The promises are resolved, the first of them before the expression is evaluated.  What
becomes of its future. -/
def run (token : ι → Option ι) (before : List (ι × Except Exc (Datum ι))) (e : Expr ι)
    (after : List (ι × Except Exc (Datum ι))) : Option (Option (Result (Name ι) (Name ι))) := do
  let s ← before.foldlM State.resolve { token }
  let (s, fut) ← e.build s
  let s ← after.foldlM State.resolve s
  return s.result fut.p

end Tconcurrent.FutureLaws
