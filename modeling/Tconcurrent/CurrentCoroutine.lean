import Mathlib.Logic.Function.Basic
import Tconcurrent.Interleaving

/-! The pointer to the current coroutine, and stackful coroutines on one thread.

The stack of the thread is a list of frames.  A fiber that is not executed keeps its own, up to
the `run_coroutine` that resumed it.  On top there is always user code, which may start, resume
and cancel coroutines, await and dispatch; what the library does in between is one step. -/
namespace Tconcurrent.CurrentCoroutine
open Interleaving

/-- What a function returns or throws. -/
inductive Outcome where
  | value (v : ℕ)
  | exception (e : ℕ)
  deriving DecidableEq

/-- `coroutine_status`. -/
inductive Status where
  | waiting
  | finished
  | aborted
  deriving DecidableEq

inductive Frame where
  /-- What the thread executes below all coroutines. -/
  | thread
  /-- `run_coroutine`, with its `previous_coroutine`. -/
  | runCoroutine (c : ℕ) (previous : Option ℕ)
  | body (c : ℕ)
  /-- `work_for_thread_context`. -/
  | work (c : ℕ)
  /-- A function that `dispatch_on_thread_context` just calls. -/
  | direct
  /-- `coroutine_exit_post_setup`. -/
  | setup (c : ℕ)
  /-- What the canceler of a suspended coroutine calls before it runs the coroutine. -/
  | canceler (c : ℕ)
  deriving DecidableEq

def Frame.isRun : Frame → Bool
  | .runCoroutine _ _ => true
  | _ => false

/-- `coroutine_control`. -/
structure Control where
  previousCoroutine : Option ℕ := none
  /-- What the fiber goes on with, if it is suspended. -/
  ctx : List Frame := []
  /-- Whether there is something to resume in `*argctx`. -/
  argctx : Bool := false
  /-- Whether it is set, as the next two. -/
  workForThreadContext : Bool := false
  coroutineExitPostSetup : Bool := false
  /-- What the future of the dispatched work is ready with. -/
  pack : Option Outcome := none
  aborted : Bool := false
  deriving DecidableEq

structure State where
  ptr : Option ℕ := none
  controls : ℕ → Control := fun _ => {}
  made : ℕ := 0
  stack : List Frame := [.thread]
  /-- What the dispatched functions did, and what `dispatch_on_thread_context` did then. -/
  dispatched : List (Outcome × Outcome) := []
  /-- What `run_coroutine` returned last. -/
  status : Option Status := none
  /-- An assertion has failed, or a fiber was resumed that was not suspended. -/
  crashed : Bool := false

inductive Choice where
  | submit
  /-- The continuation of an awaited future or sender. -/
  | resume (c : ℕ)
  | cancel (c : ℕ)
  | await
  | dispatch
  | finish (aborted : Bool)
  | return (outcome : Outcome)
  deriving DecidableEq

def setControl (c : ℕ) (control : Control) (s : State) : State :=
  { s with controls := Function.update s.controls c control }

def crash (s : State) : State := { s with crashed := true }

/-- `ctrl->ctx = std::move(ctrl->ctx).resume()`, until the fiber is left again. -/
def resumeCtx (c : ℕ) (s : State) : State :=
  let control := s.controls c
  setControl c { control with ctx := [], argctx := true } { s with stack := control.ctx ++ s.stack }

/-- What follows in `run_coroutine` when its scope is left; `ctrl` is null after a `delete`. -/
def scopeExit (ctrl : Option ℕ) (s : State) : State :=
  match s.stack with
  | .runCoroutine _ previous :: below =>
    let s := { s with ptr := previous, stack := below }
    match ctrl with
    | some c => setControl c { s.controls c with previousCoroutine := none } s
    | none => s
  | _ => s

/-- `run_coroutine` after the fiber was left. -/
def left (c : ℕ) (s : State) : State :=
  let control := s.controls c
  if control.workForThreadContext then { s with ptr := none, stack := .work c :: s.stack }
  else if control.ctx.isEmpty then
    scopeExit none (setControl c {} { s with
      status := some (if control.aborted then .aborted else .finished) })
  else if control.coroutineExitPostSetup then { s with stack := .setup c :: s.stack }
  else scopeExit (some c) { s with status := some .waiting }

def runCoroutine (c : ℕ) (s : State) : State :=
  let control := s.controls c
  if control.previousCoroutine.isSome ∨ control.ctx.isEmpty then crash s
  else
    let previous := s.ptr
    let s := setControl c { control with previousCoroutine := previous } s
    resumeCtx c { s with ptr := some c, stack := .runCoroutine c previous :: s.stack }

/-- `*argctx = std::move(*argctx).resume()`, until the fiber is resumed. -/
def resumeArgctx (c : ℕ) (s : State) : State :=
  let control := s.controls c
  if control.argctx then
    let control := { control with ctx := s.stack.takeWhile (!·.isRun), argctx := false }
    left c (setControl c control { s with stack := s.stack.dropWhile (!·.isRun) })
  else crash s

/-- `run_resumable_sender::submit`.  The fiber has been entered once, and left before the
body. -/
def submit (s : State) : State :=
  let c := s.made
  runCoroutine c (setControl c { ctx := [.body c] } { s with made := c + 1 })

/-- `await` on what is not ready. -/
def await (s : State) : State :=
  match s.ptr with
  | some c => resumeArgctx c (setControl c { s.controls c with coroutineExitPostSetup := true } s)
  -- calling await from outside of a coroutine
  | none => s

/-- `dispatch_on_thread_context`, up to the function. -/
def dispatch (s : State) : State :=
  match s.ptr with
  | some c =>
    if (s.controls c).workForThreadContext then crash s
    else resumeArgctx c (setControl c
      { s.controls c with workForThreadContext := true, pack := none } s)
  | none => { s with stack := .direct :: s.stack }

/-- The rest of `coroutine_control::dispatch_on_thread_context`. -/
def dispatched (c : ℕ) (outcome : Outcome) (s : State) : State :=
  let s := setControl c { s.controls c with workForThreadContext := false } s
  match (s.controls c).pack with
  | some got => { s with dispatched := s.dispatched ++ [(outcome, got)] }
  | none => crash s

/-- The dispatched function is done, and the fiber is resumed. -/
def worked (c : ℕ) (outcome : Outcome) (s : State) : State :=
  let s := setControl c { s.controls c with pack := some outcome } s
  dispatched c outcome (resumeCtx c { s with ptr := some c })

/-- `coroutine_exit_post_setup` is done. -/
def setUp (c : ℕ) (outcome : Outcome) (s : State) : State :=
  match outcome with
  | .value _ =>
    scopeExit (some c) (setControl c { s.controls c with coroutineExitPostSetup := false }
      { s with status := some .waiting })
  | .exception _ => scopeExit (some c) { s with status := none }

/-- The body is done, and so is the fiber. -/
def finish (c : ℕ) (aborted : Bool) (s : State) : State :=
  left c (setControl c { s.controls c with ctx := [], argctx := false, aborted } s)

def step (s : State) : Choice → Option State
  | .submit => some (submit s)
  | .resume c => if c < s.made then some (runCoroutine c s) else none
  | .cancel c =>
    if (s.controls c).ctx.isEmpty then none else some { s with stack := .canceler c :: s.stack }
  | .await => some (await s)
  | .dispatch => some (dispatch s)
  | .finish aborted =>
    match s.stack with
    | .body c :: below => some (finish c aborted { s with stack := below })
    | _ => none
  | .return outcome =>
    match s.stack with
    | .work c :: below => some (worked c outcome { s with stack := below })
    | .direct :: below =>
      some { s with stack := below, dispatched := s.dispatched ++ [(outcome, outcome)] }
    | .setup c :: below => some (setUp c outcome { s with stack := below })
    | .canceler c :: below =>
      match outcome with
      | .value _ => some (runCoroutine c { s with stack := below })
      | .exception _ => some { s with stack := below }
    | _ => none

def exec : Machine State Unit Choice := fun _ choice s _ =>
  if s.crashed then none else (step s choice).map fun s => (s, [()])

def start : Config State Unit := ⟨{}, [[()]]⟩

/-- The coroutines whose `run_coroutine` has not returned, the last one first. -/
def active (stack : List Frame) : List ℕ :=
  stack.filterMap fun
    | .runCoroutine c _ => some c
    | _ => none

/-- Whether the code on top was called by `coroutine_exit_post_setup`, outside of what that has
started or dispatched. -/
def calledBySetup : List Frame → Bool
  | .setup _ :: _ => true
  | .canceler _ :: below => calledBySetup below
  | _ => false

/-- The coroutine that is run next. -/
def runs (s : State) : Choice → Option ℕ
  | .resume c => some c
  | .return (.value _) =>
    match s.stack with
    | .canceler c :: _ => some c
    | _ => none
  | _ => none

/-- No coroutine is resumed while it is active. -/
def ResumesInactive (s : State) (_ : Unit) (choice : Choice) : Prop :=
  ∀ c, runs s choice = some c → c ∉ active s.stack

/-- Neither is one that has ended, and `coroutine_exit_post_setup` calls no function that
awaits or dispatches. -/
def Guarded (s : State) (call : Unit) (choice : Choice) : Prop :=
  ResumesInactive s call choice ∧ (∀ c, runs s choice = some c → (s.controls c).ctx ≠ []) ∧
    (calledBySetup s.stack = true → choice ≠ .await ∧ choice ≠ .dispatch)

end Tconcurrent.CurrentCoroutine
