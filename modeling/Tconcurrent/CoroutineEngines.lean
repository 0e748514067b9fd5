import Mathlib.Logic.Function.Basic
import Tconcurrent.Interleaving

/-! A program that is compiled for both implementations of coroutines.

The program is the code between its suspension points: from each local state it comes
to one `TC_` macro or to a request to cancel its own future.  An await or a yield that
throws goes on in a handler around it that catches, or ends the body.  None is in a catch
block, which one engine asserts and the other does not compile.  Both engines run on one single-threaded executor, and the receiver of
`run_resumable` is that of `submit_to_future`: it resets the token at every signal, and
its future does not tell `set_done` from the exception `operation_canceled`. -/
namespace Tconcurrent.CoroutineEngines

variable {L V α : Type}

inductive Exc where
  | operationCanceled
  | thrown (e : ℕ)
  deriving DecidableEq

/-- What an await throws. -/
inductive Thrown where
  | exc (e : Exc)
  /-- `abort_coroutine`, where a stackful coroutine is canceled while it is suspended. -/
  | abortCoroutine
  deriving DecidableEq

/-- What the future shows if nothing catches it. -/
def Thrown.shown : Thrown → Exc
  | exc e => e
  | abortCoroutine => .operationCanceled

/-- Where the handlers around an await go on, for what they catch. -/
abbrev Handler (L : Type) := Thrown → Option L

/-- What the coroutine's code comes to. -/
inductive Instr (L V α : Type) where
  | return (value : α)
  | throw (e : Exc)
  /-- `TC_AWAIT` of the future `k`. -/
  | await (k : ℕ) (next : V → L) (handler : Handler L)
  | yield (next : L) (handler : Handler L)
  | requestCancel (next : L)

abbrev Code (L V α : Type) := L → Instr L V α

/-- Where a suspended coroutine goes on. -/
inductive Resume (L V : Type) where
  | await (k : ℕ) (next : V → L) (handler : Handler L)
  | yield (next : L) (handler : Handler L)

def Resume.handler : Resume L V → Handler L
  | await _ _ handler | yield _ handler => handler

/-- Awaits and yields are numbered.  The coroutine has crashed when the engine has
resumed or destroyed it while it was running, or went on where nothing was awaited. -/
inductive Mode (L V α : Type) where
  | running (code : L)
  | suspended (n : ℕ) (resume : Resume L V)
  | finished (outcome : Except Exc α)
  | crashed

def Mode.outcome : Mode L V α → Option (Except Exc α)
  | finished outcome => some outcome
  | _ => none

/-- The futures and the executor. -/
structure World (V : Type) where
  resolved : ℕ → Option (Except Exc V) := fun _ => none
  /-- The continuations of the futures that are not ready: the future, and the await. -/
  thens : List (ℕ × ℕ) := []
  queue : List ℕ := []

namespace World

/-- A promise is resolved, and what waits for it is posted. -/
def resolve (k : ℕ) (result : Except Exc V) (w : World V) : World V :=
  match w.resolved k with
  | some _ => w
  | none =>
    { resolved := Function.update w.resolved k (some result)
      thens := w.thens.filter (·.1 ≠ k)
      queue := w.queue ++ (w.thens.filter (·.1 = k)).map (·.2) }

/-- What resumes the await or the yield `n` is registered or posted. -/
def suspend (n : ℕ) (resume : Resume L V) (w : World V) : World V :=
  match resume with
  | .yield _ _ => { w with queue := w.queue ++ [n] }
  | .await k _ _ =>
    match w.resolved k with
    | some _ => { w with queue := w.queue ++ [n] }
    | none => { w with thens := w.thens ++ [(k, n)] }

end World

/-- What happens next: the running code goes on, a promise is resolved, the executor
runs a continuation, or code outside of the coroutine requests cancelation. -/
inductive Event (V : Type) where
  | advance
  | resolve (k : ℕ) (result : Except Exc V)
  | run
  | cancel

/-! ## Stackful -/

structure Stackful (L V α : Type) where
  mode : Mode L V α
  world : World V := {}
  count : ℕ := 0
  aborted : ℕ → Bool := fun _ => false
  /-- The token: `_canceled`, and the await whose canceler is `_cancel`. -/
  canceled : Bool := false
  canceler : Option ℕ := none

namespace Stackful

variable (s : Stackful L V α)

/-- A signal of the receiver, which resets the token. -/
def finish (outcome : Except Exc α) : Stackful L V α :=
  { s with mode := .finished outcome, canceler := none }

def crash : Stackful L V α := { s with mode := .crashed }

/-- An await throws: what catches it goes on, or the body ends. -/
def throws (resume : Resume L V) (e : Thrown) : Stackful L V α :=
  match resume.handler e with
  | some l => { s with mode := .running l }
  | none => s.finish (.error e.shown)

/-- The result of what was awaited. -/
def awaitResult (resume : Resume L V) : Stackful L V α :=
  match resume with
  | .yield next _ => { s with mode := .running next }
  | .await k next _ =>
    match s.world.resolved k with
    | some (.ok value) => { s with mode := .running (next value) }
    | some (.error e) => s.throws resume (.exc e)
    | none => s.crash

/-- The end of `await`. -/
def awaitReturns (resume : Resume L V) : Stackful L V α :=
  if s.canceled then s.throws resume (.exc .operationCanceled) else s.awaitResult resume

/-- `run_coroutine`, and the rest of `await` in the coroutine. -/
def runCoroutine : Stackful L V α :=
  match s.mode with
  | .suspended n resume =>
    let s := { s with canceler := none }
    if s.aborted n then s.throws resume .abortCoroutine else s.awaitReturns resume
  | _ => s.crash

/-- `request_cancel` on the token. -/
def requestCancel : Stackful L V α :=
  if s.canceled then s
  else
    match s.canceler with
    | none => { s with canceled := true }
    | some n =>
      { s with canceled := true, aborted := Function.update s.aborted n true }.runCoroutine

/-- `await`: the canceler is set, and the coroutine switches out. -/
def suspend (resume : Resume L V) : Stackful L V α :=
  let n := s.count
  let s := { s with count := n + 1, canceler := some n }
  if s.canceled then { s with aborted := Function.update s.aborted n true }.runCoroutine
  else { s with mode := .suspended n resume, world := s.world.suspend n resume }

/-- The running code up to the next macro. -/
def advance (code : Code L V α) : Stackful L V α :=
  match s.mode with
  | .running l =>
    match code l with
    | .return value => s.finish (.ok value)
    | .throw e => s.finish (.error e)
    | .requestCancel next => { s with mode := .running next }.requestCancel
    | .yield next handler =>
      if s.canceled then s.throws (.yield next handler) (.exc .operationCanceled)
      else s.suspend (.yield next handler)
    | .await k next handler =>
      if (s.world.resolved k).isSome then s.awaitReturns (.await k next handler)
      else s.suspend (.await k next handler)
  | _ => s

/-- The executor runs a continuation. -/
def run : Stackful L V α :=
  match s.world.queue with
  | [] => s
  | n :: queue =>
    let s := { s with world := { s.world with queue } }
    if s.aborted n then s else s.runCoroutine

def step (code : Code L V α) : Event V → Stackful L V α
  | .advance => s.advance code
  | .resolve k result => { s with world := s.world.resolve k result }
  | .run =>
    match s.mode with
    | .running _ => s
    | _ => s.run
  | .cancel =>
    match s.mode with
    | .running _ => s
    | _ => s.requestCancel

end Stackful

/-! ## Stackless -/

structure Stackless (L V α : Type) where
  mode : Mode L V α
  world : World V := {}
  count : ℕ := 0
  /-- The awaiters that were destroyed. -/
  dead : ℕ → Bool := fun _ => false
  /-- The token, and whether `coroutine_holder::cancel` is its canceler. -/
  canceled : Bool := false
  canceler : Bool := false
  /-- `run_resumable_sender::submit` has not returned from the first `resume`. -/
  submitting : Bool := true

namespace Stackless

variable (s : Stackless L V α)

def finish (outcome : Except Exc α) : Stackless L V α :=
  { s with mode := .finished outcome, canceler := false }

def crash : Stackless L V α := { s with mode := .crashed }

/-- `coroutine_holder::cancel`: the frame is destroyed with the awaiter in it. -/
def cancel : Stackless L V α :=
  match s.mode with
  | .suspended n _ =>
    { s with dead := Function.update s.dead n true }.finish (.error .operationCanceled)
  | _ => s.crash

def requestCancel : Stackless L V α :=
  if s.canceled then s
  else
    let s := { s with canceled := true }
    if s.canceler then s.cancel else s

def throws (resume : Resume L V) (e : Exc) : Stackless L V α :=
  match resume.handler (.exc e) with
  | some l => { s with mode := .running l }
  | none => s.finish (.error e)

/-- `await_resume`. -/
def awaitResume (resume : Resume L V) : Stackless L V α :=
  match resume with
  | .yield next _ => { s with mode := .running next }
  | .await k next _ =>
    match s.world.resolved k with
    | some (.ok value) => { s with mode := .running (next value) }
    | some (.error e) => s.throws resume e
    | none => s.crash

/-- `await_suspend`.  The first time `submit` sets the canceler after that. -/
def awaitSuspend (resume : Resume L V) : Stackless L V α :=
  let n := s.count
  let s := { s with
    count := n + 1
    mode := .suspended n resume
    world := s.world.suspend n resume }
  if s.submitting then
    let s := { s with submitting := false, canceler := true }
    if s.canceled then s.cancel else s
  else s

def advance (code : Code L V α) : Stackless L V α :=
  match s.mode with
  | .running l =>
    match code l with
    | .return value => s.finish (.ok value)
    | .throw e => s.finish (.error e)
    | .requestCancel next => { s with mode := .running next }.requestCancel
    | .yield next handler => s.awaitSuspend (.yield next handler)
    | .await k next handler =>
      if (s.world.resolved k).isSome then s.awaitResume (.await k next handler)
      else s.awaitSuspend (.await k next handler)
  | _ => s

/-- The executor runs a continuation, which resumes the coroutine. -/
def run : Stackless L V α :=
  match s.world.queue with
  | [] => s
  | n :: queue =>
    let s := { s with world := { s.world with queue } }
    if s.dead n then s
    else
      match s.mode with
      | .suspended m resume =>
        { s with dead := Function.update s.dead m true }.awaitResume resume
      | _ => s.crash

def step (code : Code L V α) : Event V → Stackless L V α
  | .advance => s.advance code
  | .resolve k result => { s with world := s.world.resolve k result }
  | .run =>
    match s.mode with
    | .running _ => s
    | _ => s.run
  | .cancel =>
    match s.mode with
    | .running _ => s
    | _ => s.requestCancel

end Stackless

/-! ## Side by side -/

/-- The two compilations of one program. -/
structure Engines (L V α : Type) where
  stackful : Stackful L V α
  stackless : Stackless L V α

/-- Both see the same schedule. -/
def Engines.step (code : Code L V α) (event : Event V) (e : Engines L V α) :
    Option (Engines L V α) :=
  some ⟨e.stackful.step code event, e.stackless.step code event⟩

/-- The program was submitted, and runs. -/
def start (l : L) : Interleaving.Config (Engines L V α) Unit :=
  ⟨⟨{ mode := .running l }, { mode := .running l }⟩, [[()]]⟩

end Tconcurrent.CoroutineEngines
