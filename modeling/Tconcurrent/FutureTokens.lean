import Tconcurrent.FutureClients

/-! The cancelation tokens that future objects carry.

A future object keeps a copy of the token of its shared state, which drops its own when it
is resolved.  Everything that makes a future is here, each with the moment at which the
object is built.  User code runs in functions, senders and continuations, and executors run
what they are given at any time. -/
namespace Tconcurrent.FutureTokens
open Interleaving

/-- A future object. -/
abbrev Handle := Future ℕ ℕ

/-- What resolves a shared state. -/
inductive Owner where
  | promise
  /-- A packaged task, and whether it is cancelable. -/
  | task (cancelable : Bool)
  /-- `async_wait`. -/
  | timer
  /-- The receiver of `submit_to_future`. -/
  | receiver
  /-- A continuation, `unwrap`, `when_all`, `when_any`, or nothing. -/
  | library
  deriving DecidableEq

/-- What a continuation is given: the future, or its value and only if there is one; and
the token of the future, where its function takes one. -/
structure Continuation where
  /-- The shared state of what it returns. -/
  q : ℕ
  fut : Handle
  andThen : Bool
  takesToken : Bool
  deriving DecidableEq

inductive Closure where
  /-- User code. -/
  | user
  /-- A future object is built from a shared state. -/
  | future (p : ℕ)
  /-- A continuation is given to its executor, and called. -/
  | post (task : Continuation)
  | continuation (task : Continuation)
  | functionReturn (q : ℕ)
  /-- The canceler of a packaged task or a timer. -/
  | canceler (p : ℕ)
  /-- The callbacks of `when_all` and `when_any` on an input, and their cancelers. -/
  | whenCallback (g : ℕ) (fut : Handle)
  | whenCanceler (g : ℕ)
  deriving DecidableEq

abbrev FutureCall := Call ℕ ℕ Closure

inductive Choice where
  | return
  | makePromise (prev : Option ℕ)
  | getFuture (p : ℕ)
  /-- `set_value`, `set_exception`, or the end of all promises. -/
  | set (p : ℕ) (r : Result ℕ ℕ)
  | makeReadyFuture (r : Result ℕ ℕ)
  | package (given : Option ℕ) (cancelable : Bool)
  | runTask (p : ℕ)
  /-- The last copy of a task is destroyed. -/
  | abandon (p : ℕ)
  | asyncWait
  | fire (p : ℕ)
  | submitToFuture
  /-- A sender signals, or its `submit` throws. -/
  | signal (p : ℕ) (r : Result ℕ ℕ)
  | attach (f : ℕ) (andThen takesToken : Bool)
  | unwrap (f : ℕ)
  | when (inputs : List ℕ) (any autoCancel : Bool)
  | requestCancel (f : ℕ)
  | breakCancelationChain (f : ℕ)
  /-- An executor runs what it was given. -/
  | runPosted (n : ℕ)
  /-- What a function returns or throws; a continuation may also be posted for later. -/
  | outcome (r : Result ℕ ℕ)
  | later
  deriving DecidableEq

/-- The state that the callbacks of a `when_all` or a `when_any` share. -/
structure Group where
  p : ℕ
  inputs : List Handle
  any : Bool
  autoCancel : Bool
  count : ℕ := 0

structure State where
  heap : Heap ℕ ℕ Closure := {}
  nextState : ℕ := 0
  nextToken : ℕ := 0
  owner : ℕ → Owner := fun _ => .library
  /-- `_done` or `fired`. -/
  isDone : ℕ → Bool := fun _ => false
  groups : List Group := []
  /-- What executors have been given. -/
  posted : List Continuation := []
  /-- Every future object that was given out, as it was then. -/
  futures : List Handle := []
  /-- The resolved states whose chain was broken. -/
  renewed : ℕ → Bool := fun _ => false
  /-- A future object was built from a shared state that was resolved. -/
  late : Bool := false
  /-- A continuation that takes a token was given none. -/
  nullToken : Bool := false

abbrev FutureStep := State × List FutureCall

/-- Calls on the heap. -/
def onHeap (s : State) (step : Heap ℕ ℕ Closure × List FutureCall) : FutureStep :=
  ({ s with heap := step.1 }, step.2)

/-- The constructor `shared_base(token)`: without a token it makes a new one. -/
def makeShared (owner : Owner) (token : Option ℕ) (s : State) : State :=
  { s with
    heap := s.heap.setState s.nextState { cancelationToken := some (token.getD s.nextToken) }
    owner := Function.update s.owner s.nextState owner
    nextState := s.nextState + 1
    nextToken := s.nextToken + 1 }

/-- A future object is given out. -/
def giveOut (fut : Handle) (s : State) : State := { s with futures := s.futures ++ [fut] }

/-- The constructor `future_base(shared_pointer)`. -/
def future (p : ℕ) (s : State) : State :=
  giveOut (s.heap.future p)
    { s with late := s.late || (decide (s.heap.Ready p) && !s.renewed p) }

/-- A callback is pushed on the token of a state. -/
def pushCancelationCallback (p : ℕ) (cb : Closure) (s : State) : FutureStep :=
  match (s.heap.states p).cancelationToken with
  | some t => onHeap s (s.heap.onToken t (·.pushCancelationCallback (.client cb)))
  | none => (s, [])

/-- `package`: the future is built after the canceler is pushed. -/
def package (given : Option ℕ) (cancelable : Bool) (s : State) : FutureStep :=
  let p := s.nextState
  let made := makeShared (.task cancelable) given s
  if cancelable then
    let (s, calls) := pushCancelationCallback p (.canceler p) made
    (s, calls ++ [.client (.future p)])
  else (made, [.client (.future p)])

/-- `async_wait`: the timer runs when the future is built. -/
def asyncWait (s : State) : FutureStep :=
  let p := s.nextState
  let (s, calls) := pushCancelationCallback p (.canceler p) (makeShared .timer none s)
  (s, calls ++ [.client (.future p)])

/-- `submit_to_future`: the sender is submitted before the future is built. -/
def submitToFuture (s : State) : FutureStep :=
  let p := s.nextState
  let (s, calls) := pushCancelationCallback p .user (makeShared .receiver none s)
  (s, calls ++ [.client .user, .client (.future p)])

/-- `then_impl`: the future is built before the continuation is registered. -/
def attach (fut : Handle) (andThen takesToken : Bool) (s : State) : FutureStep :=
  let q := s.nextState
  (future q (makeShared .library fut.cancelationToken s),
    [.thenRun fut.p (.client (.post { q, fut, andThen, takesToken }))])

/-- `unwrap`: the closure is registered before the future is built. -/
def unwrap (fut : Handle) (s : State) : FutureStep :=
  let sb := s.nextState
  (makeShared .library fut.cancelationToken s,
    [.thenRun fut.p (.unwrapOuter fut.p sb), .client (.future sb)])

/-- `make_ready_future` and `make_exceptional_future`: the object gets a token of its own. -/
def makeReadyFuture (r : Result ℕ ℕ) (s : State) : State :=
  giveOut ⟨s.nextState, some s.nextToken⟩
    { s with
      heap := s.heap.setState s.nextState { r := some r }
      nextState := s.nextState + 1
      nextToken := s.nextToken + 1 }

/-- `when_all` and `when_any`: the callbacks are registered before the future is built. -/
def when (inputs : List Handle) (any autoCancel : Bool) (s : State) : FutureStep :=
  if inputs = [] then (makeReadyFuture (.value (.plain 0)) s, [])
  else
    let g := s.groups.length
    let p := s.nextState
    let (s, calls) := pushCancelationCallback p (.whenCanceler g) (makeShared .library none s)
    ({ s with groups := s.groups ++ [{ p, inputs, any, autoCancel }] },
      calls ++ inputs.map (fun fut => .thenRun fut.p (.client (.whenCallback g fut))) ++
        [.client (.future p)])

/-- `when_all_callback::operator()`, where the future that it is given goes into the
result, and `when_any_callback::operator()`. -/
def whenCallback (g : ℕ) (fut : Handle) (s : State) : FutureStep :=
  match s.groups[g]? with
  | none => (s, [])
  | some group =>
    let s := { s with groups := s.groups.set g { group with count := group.count + 1 } }
    if group.any then
      if group.count = 0 then
        (s, (if group.autoCancel then
            (group.inputs.filter (·.p ≠ fut.p)).map (fun other => .requestCancel other.p)
          else []) ++ [.finish group.p (.value (.plain 0))])
      else (s, [])
    else
      (giveOut fut s,
        if group.count + 1 = group.inputs.length then [.finish group.p (.value (.plain 0))] else [])

def whenCanceler (g : ℕ) (s : State) : List FutureCall :=
  match s.groups[g]? with
  | none => []
  | some group => group.inputs.map fun fut => .requestCancel fut.p

/-- What a continuation does before its function is called: `do_and_then_callback`
rethrows, and throws `operation_canceled` where there is a token that asks for it. -/
def continuation (task : Continuation) (s : State) : FutureStep :=
  match task.andThen, (s.heap.states task.fut.p).r with
  | true, some (.exception e) => (s, [.finish task.q (.exception e)])
  | andThen, _ =>
    if andThen ∧ (task.fut.cancelationToken.any fun t => (s.heap.tokens t).isCancelRequested) then
      (s, [.finish task.q (.exception .operationCanceled)])
    else if task.takesToken ∧ task.fut.cancelationToken = none then
      ({ s with nullToken := true }, [])
    else
      (if andThen then s else giveOut task.fut s,
        [.client .user, .client (.functionReturn task.q)])

/-- The canceler of a task or a timer: a dead promise has been resolved. -/
def canceler (p : ℕ) (s : State) : FutureStep :=
  if s.isDone p ∨ s.heap.Ready p then (s, [])
  else
    ({ s with isDone := Function.update s.isDone p true },
      ((s.heap.states p).cancelationToken.map .popCancelationCallback).toList ++
        [.client .user, .finish p (.exception .operationCanceled)])

/-- A task is called, or a timer fires. -/
def run (p : ℕ) (after : List FutureCall) (pops : Bool) (s : State) : FutureStep :=
  if s.isDone p then (s, [])
  else
    ({ s with isDone := Function.update s.isDone p true },
      (if pops then ((s.heap.states p).cancelationToken.map .popCancelationCallback).toList
        else []) ++ after)

/-- `break_cancelation_chain`: the future is given out again, with a new token. -/
def breakCancelationChain (fut : Handle) (s : State) : State :=
  giveOut ⟨fut.p, some s.nextToken⟩
    { s with
      heap := s.heap.setState fut.p
        { s.heap.states fut.p with cancelationToken := some s.nextToken }
      nextToken := s.nextToken + 1
      renewed := Function.update s.renewed fut.p (decide (s.heap.Ready fut.p)) }

/-- A result that user code can make: the futures in it are its own. -/
def Makes (s : State) : Result ℕ ℕ → Bool
  | .value (.future fut) => decide (fut ∈ s.futures)
  | _ => true

/-- User code goes on after a step. -/
def proceed (step : FutureStep) : FutureStep := (step.1, step.2 ++ [.client .user])

/-- What user code can do with the futures it was given, and what executors do. -/
def user (s : State) : Choice → Option FutureStep
  | .return => some (s, [])
  | .makePromise prev =>
    some (proceed (makeShared .promise (prev.bind fun p => (s.heap.states p).cancelationToken) s, []))
  | .getFuture p =>
    if p < s.nextState ∧ s.owner p = .promise then some (proceed (future p s, [])) else none
  | .set p r =>
    if p < s.nextState ∧ s.owner p = .promise ∧ Makes s r then
      some (proceed (s, [.finish p r]))
    else none
  | .makeReadyFuture r => if Makes s r then some (proceed (makeReadyFuture r s, [])) else none
  | .package given cancelable =>
    if given.all (decide <| · < s.nextToken) then some (proceed (package given cancelable s)) else none
  | .runTask p =>
    match s.owner p with
    | .task cancelable =>
      some (proceed (run p [.client .user, .client (.functionReturn p)] cancelable s))
    | _ => none
  | .abandon p =>
    match s.owner p with
    | .task _ =>
      if s.isDone p ∨ s.heap.Ready p then none
      else some (proceed (s, [.finish p (.exception .brokenPromise)]))
    | _ => none
  | .asyncWait => some (proceed (asyncWait s))
  | .fire p =>
    if s.owner p = .timer then some (proceed (run p [.finish p (.value (.plain 0))] true s)) else none
  | .submitToFuture => some (proceed (submitToFuture s))
  | .signal p r =>
    if s.owner p = .receiver ∧ Makes s r then some (proceed (s, [.finish p r])) else none
  | .attach f andThen takesToken =>
    s.futures[f]?.map fun fut => proceed (attach fut andThen takesToken s)
  | .unwrap f => s.futures[f]?.map fun fut => proceed (unwrap fut s)
  | .when inputs any autoCancel =>
    (inputs.mapM fun f => s.futures[f]?).map fun inputs => proceed (when inputs any autoCancel s)
  | .requestCancel f => s.futures[f]?.map fun fut => proceed (s, [.requestCancel fut.p])
  | .breakCancelationChain f =>
    s.futures[f]?.map fun fut => proceed (breakCancelationChain fut s, [])
  | .runPosted n =>
    s.posted[n]?.map fun task =>
      proceed ({ s with posted := s.posted.eraseIdx n }, [.client (.continuation task)])
  | .outcome _ => none
  | .later => none

/-- A closure of the program is called. -/
def client (choice : Choice) (s : State) : Closure → Option FutureStep
  | .user => user s choice
  | .future p => some (future p s, [])
  | .post task =>
    match choice with
    | .later => some ({ s with posted := s.posted ++ [task] }, [])
    | _ => some (s, [.client (.continuation task)])
  | .continuation task => some (continuation task s)
  | .functionReturn q =>
    match choice with
    | .outcome r => if Makes s r then some (s, [.finish q r]) else none
    | _ => none
  | .canceler p => some (canceler p s)
  | .whenCallback g fut => some (whenCallback g fut s)
  | .whenCanceler g => some (s, whenCanceler g s)

/-- One step of a thread.  A state that is resolved twice ends the program. -/
def exec : Machine State FutureCall Choice
  | _, choice, s, .client k => client choice s k
  | _, _, s, .finish p r => if s.heap.Ready p then none else some (onHeap s (s.heap.finish p r))
  | _, _, s, call => some (onHeap s (s.heap.exec call))

/-- Any number of threads, and no future. -/
def start (threads : ℕ) : Config State FutureCall :=
  ⟨{}, List.replicate threads [.client .user]⟩

end Tconcurrent.FutureTokens
