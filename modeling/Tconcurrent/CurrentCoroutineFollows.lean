import Tconcurrent.CurrentCoroutine

/-! The pointer to the current coroutine follows the stack.

`run_coroutine` and what is executed above it are one piece of the stack.  In it the pointer is
the coroutine, or null while dispatched work is executed, and below it is the one that it had
when `run_coroutine` was called. -/
namespace Tconcurrent.CurrentCoroutine
open Interleaving

/-- What the pointer is while the code on top of the stack is executed. -/
def pointer : List Frame → Option ℕ
  | .body c :: _ | .setup c :: _ => some c
  | .canceler _ :: below => pointer below
  | _ => none

structure Follows (s : State) : Prop where
  pointer : s.ptr = pointer s.stack
  /-- What `run_coroutine` gives back is what the code that called it is executed with. -/
  restored : ∀ above c previous below, s.stack = above ++ .runCoroutine c previous :: below →
    previous = CurrentCoroutine.pointer below
  /-- `previous_coroutine` is set only while a coroutine is active above another one. -/
  previous : ∀ c d, (s.controls c).previousCoroutine = some d → ∃ above between p below,
    s.stack = above ++ .runCoroutine c (some d) :: (between ++ .runCoroutine d p :: below)
  /-- `work_for_thread_context` is set only while it is executed. -/
  work : ∀ c, (s.controls c).workForThreadContext = true → .work c ∈ s.stack
  /-- `dispatch_on_thread_context` does what its function does. -/
  dispatched : ∀ pair ∈ s.dispatched, pair.1 = pair.2
  intact : s.crashed = false

/-! ## The stack -/

/-- The stack of a fiber is the body, and cancelers that it has called. -/
inductive Fiber (c : ℕ) : List Frame → Prop where
  | body : Fiber c [.body c]
  | canceler {fiber : List Frame} (a : ℕ) (rest : Fiber c fiber) : Fiber c (.canceler a :: fiber)

/-- The fiber is suspended. -/
structure Resting (c : ℕ) (control : Control) : Prop where
  ctx : Fiber c control.ctx
  argctx : control.argctx = false
  work : control.workForThreadContext = false

/-- What is executed in `run_coroutine`, and the pointer meanwhile. -/
inductive Executes (c : ℕ) (control : Control) : Frame → Option ℕ → Prop where
  | body (ctx : control.ctx = []) (argctx : control.argctx = true)
      (work : control.workForThreadContext = false) : Executes c control (.body c) (some c)
  | setup (resting : Resting c control) : Executes c control (.setup c) (some c)
  | work (ctx : Fiber c control.ctx) (argctx : control.argctx = false)
      (work : control.workForThreadContext = true) : Executes c control (.work c) none

/-- A stack, and the pointer while it is executed. -/
inductive Stacked (controls : ℕ → Control) : Option ℕ → List Frame → Prop where
  | thread : Stacked controls none [.thread]
  | direct {below : List Frame} (rest : Stacked controls none below) :
      Stacked controls none (.direct :: below)
  | canceler {p : Option ℕ} {below : List Frame} (c : ℕ) (rest : Stacked controls p below) :
      Stacked controls p (.canceler c :: below)
  | run {c : ℕ} {frame : Frame} {p previous : Option ℕ} {below : List Frame}
      (executes : Executes c (controls c) frame p)
      (saved : (controls c).previousCoroutine = previous) (apart : c ∉ active below)
      (rest : Stacked controls previous below) :
      Stacked controls p (frame :: .runCoroutine c previous :: below)

variable {s s' : State} {stack above below fiber : List Frame} {frame : Frame} {c d : ℕ}
  {p previous : Option ℕ} {controls controls' : ℕ → Control} {control : Control}
  {outcome : Outcome} {choice : Choice}

@[simp] theorem active_runCoroutine :
    active (.runCoroutine c previous :: below) = c :: active below := rfl

theorem active_cons (other : frame.isRun = false) : active (frame :: below) = active below := by
  cases frame <;> first | rfl | cases other

theorem active_append : active (above ++ below) = active above ++ active below :=
  List.filterMap_append

theorem mem_active (among : c ∈ active stack) :
    ∃ above previous below, stack = above ++ .runCoroutine c previous :: below := by
  obtain ⟨frame, listed, same⟩ := List.mem_filterMap.mp among
  obtain ⟨above, below, rfl⟩ := List.append_of_mem listed
  cases frame with
  | runCoroutine c' previous =>
    obtain rfl : c' = c := by simpa using same
    exact ⟨above, previous, below, rfl⟩
  | thread | body | work | direct | setup | canceler => cases same

theorem Fiber.active (fiber' : Fiber c fiber) (below : List Frame) :
    active (fiber ++ below) = active below := by
  induction fiber' with
  | body => rfl
  | canceler a rest ih => exact ih

theorem Fiber.ne_nil (fiber' : Fiber c fiber) : fiber ≠ [] := by
  cases fiber' <;> simp

/-- The frames above a `run_coroutine` are those of the fiber. -/
theorem Fiber.split (fiber' : Fiber c fiber) (previous : Option ℕ) (below : List Frame) :
    (fiber ++ .runCoroutine c previous :: below).takeWhile (!·.isRun) = fiber ∧
      (fiber ++ .runCoroutine c previous :: below).dropWhile (!·.isRun) =
        .runCoroutine c previous :: below := by
  induction fiber' with
  | body => exact ⟨rfl, rfl⟩
  | canceler a rest ih => exact ⟨congrArg _ ih.1, ih.2⟩

theorem Executes.isRun (executes : Executes c control frame p) : frame.isRun = false := by
  cases executes <;> rfl

/-- Only the coroutines on the stack matter. -/
theorem Stacked.congr (stacked : Stacked controls p stack)
    (same : ∀ c ∈ active stack, controls' c = controls c) : Stacked controls' p stack := by
  induction stacked with
  | thread => exact .thread
  | direct rest ih => exact .direct (ih same)
  | canceler c rest ih => exact .canceler c (ih same)
  | run executes saved apart rest ih =>
    rw [active_cons executes.isRun] at same
    have first := same _ List.mem_cons_self
    have others := ih fun c among => same c (List.mem_cons_of_mem _ among)
    exact .run (first ▸ executes) (first ▸ saved) apart others

theorem Stacked.update (stacked : Stacked controls p stack) (apart : c ∉ active stack) :
    Stacked (Function.update controls c control) p stack :=
  stacked.congr fun d among => by
    have other : d ≠ c := by
      rintro rfl
      exact apart among
    exact Function.update_of_ne other control controls

/-- A fiber that is resumed. -/
theorem Fiber.stacked (fiber' : Fiber c fiber) (ctx : (controls c).ctx = [])
    (argctx : (controls c).argctx = true) (work : (controls c).workForThreadContext = false)
    (saved : (controls c).previousCoroutine = previous) (apart : c ∉ CurrentCoroutine.active below)
    (rest : Stacked controls previous below) :
    Stacked controls (some c) (fiber ++ .runCoroutine c previous :: below) := by
  induction fiber' with
  | body => exact .run (.body ctx argctx work) saved apart rest
  | canceler a _ ih => exact .canceler a ih

/-- What is below a `run_coroutine`. -/
theorem Stacked.under (stacked : Stacked controls p (above ++ .runCoroutine c previous :: below)) :
    Stacked controls previous below ∧ (controls c).previousCoroutine = previous ∧
      c ∉ active below := by
  generalize split : above ++ .runCoroutine c previous :: below = stack at stacked
  induction stacked generalizing above with
  | thread =>
    obtain ⟨-, none⟩ | ⟨above', -, none⟩ := List.append_eq_cons_iff.mp split
    · cases none
    · simp at none
  | direct rest ih | canceler _ rest ih =>
    obtain ⟨-, none⟩ | ⟨above', -, rest'⟩ := List.append_eq_cons_iff.mp split
    · cases none
    · exact ih rest'.symm
  | run executes saved apart rest ih =>
    obtain ⟨-, none⟩ | ⟨above', -, rest'⟩ := List.append_eq_cons_iff.mp split
    · cases none
      cases executes
    · obtain ⟨-, same⟩ | ⟨above'', -, rest''⟩ := List.append_eq_cons_iff.mp rest'.symm
      · cases same
        exact ⟨rest, saved, apart⟩
      · exact ih rest''.symm

theorem Stacked.pointer (stacked : Stacked controls p stack) : p = pointer stack := by
  induction stacked with
  | thread | direct => rfl
  | canceler c rest ih => exact ih
  | run executes => cases executes <;> rfl

/-- The coroutine that the pointer designates is active. -/
theorem Stacked.running (stacked : Stacked controls (some c) stack) :
    ∃ above previous below, stack = above ++ .runCoroutine c previous :: below := by
  generalize designates : some c = p at stacked
  induction stacked with
  | thread | direct => cases designates
  | canceler a rest ih =>
    obtain ⟨above, previous, below, rfl⟩ := ih designates
    exact ⟨.canceler a :: above, previous, below, rfl⟩
  | @run _ frame _ previous below executes =>
    cases executes with
    | body | setup =>
      cases designates
      exact ⟨[_], previous, below, rfl⟩
    | work => cases designates

/-- Unless it is called by `coroutine_exit_post_setup`, what is executed while the pointer
designates a coroutine is on its fiber. -/
theorem Stacked.onFiber (stacked : Stacked controls (some c) stack)
    (apart : calledBySetup stack = false) : ∃ fiber previous below,
    stack = fiber ++ .runCoroutine c previous :: below ∧ Fiber c fiber ∧
      (controls c).argctx = true ∧ (controls c).workForThreadContext = false := by
  generalize designates : some c = p at stacked
  induction stacked with
  | thread | direct => cases designates
  | canceler a rest ih =>
    obtain ⟨fiber, previous, below, rfl, found, controlled⟩ := ih apart designates
    exact ⟨.canceler a :: fiber, previous, below, rfl, .canceler a found, controlled⟩
  | @run _ frame _ previous below executes =>
    cases executes with
    | body _ argctx work =>
      cases designates
      exact ⟨[_], previous, below, rfl, .body, argctx, work⟩
    | setup => cases apart
    | work => cases designates

/-- What is executed for a coroutine is right above its `run_coroutine`. -/
theorem Stacked.top (stacked : Stacked controls p (frame :: stack))
    (called : frame = .body c ∨ frame = .setup c ∨ frame = .work c) : ∃ previous below,
    stack = .runCoroutine c previous :: below ∧ Executes c (controls c) frame p := by
  cases stacked with
  | thread | direct | canceler => simp at called
  | @run c' _ _ previous below executes saved apart rest =>
    obtain rfl : c' = c := by cases executes <;> simpa using called
    exact ⟨previous, below, rfl, executes⟩

/-- What is not executed for a coroutine was called by the code below it. -/
theorem Stacked.caller (stacked : Stacked controls p (frame :: stack))
    (called : frame = .direct ∨ ∃ d, frame = .canceler d) : Stacked controls p stack := by
  cases stacked with
  | thread => simp at called
  | direct rest | canceler _ rest => exact rest
  | run executes =>
    obtain rfl | ⟨d, rfl⟩ := called <;> cases executes

theorem Stacked.setup (stacked : Stacked controls p stack) (called : calledBySetup stack = true) :
    ∃ c, p = some c ∧ Resting c (controls c) := by
  induction stacked with
  | thread | direct => cases called
  | canceler _ rest ih => exact ih called
  | @run c _ _ _ _ executes =>
    cases executes with
    | body | work => cases called
    | setup resting => exact ⟨c, rfl, resting⟩

theorem Stacked.working (stacked : Stacked controls p stack) (among : c ∈ active stack)
    (work : (controls c).workForThreadContext = true) : .work c ∈ stack := by
  induction stacked with
  | thread => cases among
  | direct rest ih | canceler _ rest ih => exact List.mem_cons_of_mem _ (ih among)
  | run executes saved apart rest ih =>
    rw [active_cons executes.isRun, active_runCoroutine] at among
    rcases List.mem_cons.mp among with rfl | among
    · cases executes with
      | body _ _ idle => simp [idle] at work
      | setup resting => simp [resting.work] at work
      | work => exact List.mem_cons_self
    · exact List.mem_cons_of_mem _ (List.mem_cons_of_mem _ (ih among))

/-! ## What every step keeps -/

@[simp] theorem setControl_stack : (setControl c control s).stack = s.stack := rfl
@[simp] theorem setControl_ptr : (setControl c control s).ptr = s.ptr := rfl
@[simp] theorem setControl_made : (setControl c control s).made = s.made := rfl

@[simp] theorem setControl_self : (setControl c control s).controls c = control := by
  simp [setControl]

theorem setControl_of_ne (other : d ≠ c) :
    (setControl c control s).controls d = s.controls d := by
  simp [setControl, other]

/-- A coroutine that is not active is suspended, or has ended, or was not started. -/
structure Idle (c : ℕ) (control : Control) : Prop where
  previous : control.previousCoroutine = none
  work : control.workForThreadContext = false
  resting : control.ctx ≠ [] → Resting c control

structure Sane (s : State) : Prop where
  stacked : Stacked s.controls s.ptr s.stack
  idle : ∀ c, c ∉ active s.stack → Idle c (s.controls c)
  made : ∀ c, c ∈ active s.stack ∨ (s.controls c).ctx ≠ [] → c < s.made
  dispatched : ∀ pair ∈ s.dispatched, pair.1 = pair.2
  intact : s.crashed = false

/-- What holds when `run_coroutine` is on top of the stack. -/
structure AtRun (c : ℕ) (previous : Option ℕ) (below : List Frame) (s : State) : Prop where
  stack : s.stack = .runCoroutine c previous :: below
  saved : (s.controls c).previousCoroutine = previous
  apart : c ∉ active below
  rest : Stacked s.controls previous below
  idle : ∀ d, d ∉ c :: active below → Idle d (s.controls d)
  made : ∀ d, d ∈ c :: active below ∨ (s.controls d).ctx ≠ [] → d < s.made
  dispatched : ∀ pair ∈ s.dispatched, pair.1 = pair.2
  intact : s.crashed = false

theorem Sane.start : Sane {} where
  stacked := .thread
  idle _ _ := ⟨rfl, rfl, fun some => absurd rfl some⟩
  made c := by rintro (among | some) <;> simp_all [active]
  dispatched := by simp
  intact := rfl

theorem Sane.atRun (sane : Sane s) (above : List Frame)
    (split : s.stack = above ++ .runCoroutine c previous :: below) (none : active above = []) :
    AtRun c previous below { s with stack := .runCoroutine c previous :: below } := by
  have stacked := sane.stacked
  rw [split] at stacked
  obtain ⟨rest, saved, apart⟩ := stacked.under
  have same : active s.stack = c :: active below := by
    rw [split, active_append, none, List.nil_append, active_runCoroutine]
  exact ⟨rfl, saved, apart, rest, same ▸ sane.idle, same ▸ sane.made, sane.dispatched, sane.intact⟩

theorem AtRun.setControl (atRun : AtRun c previous below s) (control : Control)
    (saved : control.previousCoroutine = previous) :
    AtRun c previous below (setControl c control s) where
  stack := atRun.stack
  saved := by rwa [setControl_self]
  apart := atRun.apart
  rest := atRun.rest.update atRun.apart
  idle d away := by
    have other : d ≠ c := fun same => away (by simp [same])
    rw [setControl_of_ne other]
    exact atRun.idle d away
  made d some := by
    by_cases same : d = c
    · exact atRun.made d (.inl (same ▸ List.mem_cons_self))
    · rw [setControl_of_ne same] at some
      exact atRun.made d some
  dispatched := atRun.dispatched
  intact := atRun.intact

/-- The scope is left, and the coroutine is idle. -/
theorem AtRun.popped (atRun : AtRun c previous below s) (idle : Idle c control) :
    Sane (CurrentCoroutine.setControl c control { s with ptr := previous, stack := below }) where
  stacked := atRun.rest.update atRun.apart
  idle d away := by
    by_cases same : d = c
    · rw [same, setControl_self]
      exact idle
    · rw [setControl_of_ne same]
      exact atRun.idle d fun among => (List.mem_cons.mp among).elim same away
  made d some := by
    by_cases same : d = c
    · exact atRun.made d (.inl (same ▸ List.mem_cons_self))
    · rw [setControl_of_ne same] at some
      exact atRun.made d (some.imp_left (List.mem_cons_of_mem c))
  dispatched := atRun.dispatched
  intact := atRun.intact

/-- The coroutine is suspended. -/
theorem AtRun.scopeExit_some (atRun : AtRun c previous below s)
    (resting : Resting c (s.controls c)) : Sane (scopeExit (some c) s) := by
  have exits : scopeExit (some c) s = CurrentCoroutine.setControl c
      { s.controls c with previousCoroutine := none } { s with ptr := previous, stack := below } := by
    simp [scopeExit, atRun.stack]
  rw [exits]
  exact atRun.popped ⟨rfl, resting.work, fun _ => ⟨resting.ctx, resting.argctx, resting.work⟩⟩

/-- The coroutine was deleted. -/
theorem AtRun.scopeExit_none (atRun : AtRun c previous below s) :
    Sane (scopeExit none (CurrentCoroutine.setControl c {} s)) := by
  have exits : scopeExit none (CurrentCoroutine.setControl c {} s) =
      CurrentCoroutine.setControl c {} { s with ptr := previous, stack := below } := by
    simp [scopeExit, atRun.stack, CurrentCoroutine.setControl]
  rw [exits]
  exact atRun.popped ⟨rfl, rfl, fun some => absurd rfl some⟩

/-- The coroutine is executed, or something is for it. -/
theorem AtRun.executes (atRun : AtRun c previous below s) 
    (executes : Executes c (s.controls c) frame p) :
    Sane { s with ptr := p, stack := frame :: s.stack } where
  stacked := by
    rw [atRun.stack]
    exact .run executes atRun.saved atRun.apart atRun.rest
  idle := by
    rw [active_cons executes.isRun, atRun.stack]
    exact atRun.idle
  made := by
    rw [active_cons executes.isRun, atRun.stack]
    exact atRun.made
  dispatched := atRun.dispatched
  intact := atRun.intact

theorem AtRun.status (atRun : AtRun c previous below s) (status : Option Status) :
    AtRun c previous below { s with status } :=
  ⟨atRun.stack, atRun.saved, atRun.apart, atRun.rest, atRun.idle, atRun.made,
    atRun.dispatched, atRun.intact⟩

/-- `run_coroutine` goes on. -/
theorem AtRun.left (atRun : AtRun c previous below s) (designates : s.ptr = some c)
    (argctx : (s.controls c).argctx = false)
    (ctx : Fiber c (s.controls c).ctx ∨
      (s.controls c).ctx = [] ∧ (s.controls c).workForThreadContext = false) :
    Sane (left c s) := by
  unfold CurrentCoroutine.left
  simp only
  split
  · rename_i work
    obtain fiber | ⟨-, idle⟩ := ctx
    · exact atRun.executes (.work fiber argctx work)
    · simp [idle] at work
  · rename_i work
    obtain fiber | ⟨none, -⟩ := ctx
    · have resting : Resting c (s.controls c) := ⟨fiber, argctx, by simpa using work⟩
      rw [if_neg (by simpa using fiber.ne_nil)]
      split
      · have setup := atRun.executes (.setup resting)
        rwa [← designates] at setup
      · exact (atRun.status _).scopeExit_some resting
    · rw [if_pos (by simpa using none)]
      exact (atRun.status _).scopeExit_none

/-- The fiber is resumed. -/
theorem AtRun.resumed (atRun : AtRun c previous below s) (fiber' : Fiber c fiber)
    (control : Control) (saved : control.previousCoroutine = previous) (ctx : control.ctx = [])
    (argctx : control.argctx = true) (work : control.workForThreadContext = false) :
    Sane (CurrentCoroutine.setControl c control
      { s with ptr := some c, stack := fiber ++ s.stack }) := by
  have onTop : active (fiber ++ s.stack) = c :: active below := by
    rw [fiber'.active, atRun.stack, active_runCoroutine]
  refine ⟨?_, fun d away => ?_, fun d some => ?_, atRun.dispatched, atRun.intact⟩
  · rw [setControl_stack, atRun.stack]
    refine fiber'.stacked ?_ ?_ ?_ ?_ atRun.apart (atRun.rest.update atRun.apart)
    all_goals rwa [setControl_self]
  · rw [setControl_stack, onTop] at away
    have other : d ≠ c := fun same => away (by simp [same])
    rw [setControl_of_ne other]
    exact atRun.idle d away
  · rw [setControl_stack, onTop] at some
    by_cases same : d = c
    · exact atRun.made d (.inl (same ▸ List.mem_cons_self))
    · rw [setControl_of_ne same] at some
      exact atRun.made d some

theorem Sane.call (sane : Sane s) (apart : c ∉ active s.stack) (made : c < s.made)
    (control : Control) (saved : control.previousCoroutine = s.ptr) :
    AtRun c s.ptr s.stack (setControl c control
      { s with ptr := some c, stack := .runCoroutine c s.ptr :: s.stack }) where
  stack := rfl
  saved := by rwa [setControl_self]
  apart := apart
  rest := sane.stacked.update apart
  idle d away := by
    have other : d ≠ c := fun same => away (by simp [same])
    rw [setControl_of_ne other]
    exact sane.idle d fun among => away (List.mem_cons_of_mem c among)
  made d some := by
    by_cases same : d = c
    · exact same ▸ made
    · rw [setControl_of_ne same] at some
      exact sane.made d (some.imp_left fun among => (List.mem_cons.mp among).resolve_left same)
  dispatched := sane.dispatched
  intact := sane.intact

theorem Sane.runCoroutine (sane : Sane s) (apart : c ∉ active s.stack)
    (some : (s.controls c).ctx ≠ []) : Sane (runCoroutine c s) := by
  have idle := sane.idle c apart
  have resting := idle.resting some
  have runs : CurrentCoroutine.runCoroutine c s = setControl c
      { s.controls c with previousCoroutine := s.ptr, ctx := [], argctx := true }
      { setControl c { s.controls c with previousCoroutine := s.ptr } s with
        ptr := Option.some c
        stack := (s.controls c).ctx ++ .runCoroutine c s.ptr :: s.stack } := by
    simp [CurrentCoroutine.runCoroutine, idle.previous, some, resumeCtx, setControl]
  rw [runs]
  have atRun := sane.call apart (sane.made c (.inr some))
    { s.controls c with previousCoroutine := s.ptr } rfl
  exact atRun.resumed resting.ctx { s.controls c with
    previousCoroutine := s.ptr, ctx := [], argctx := true } rfl rfl rfl resting.work

theorem Sane.submit (sane : Sane s) : Sane (submit s) := by
  have fresh : s.made ∉ active s.stack := fun among =>
    Nat.lt_irrefl _ (sane.made s.made (.inl among))
  have made : Sane (setControl s.made { ctx := [.body s.made] } { s with made := s.made + 1 }) := by
    refine ⟨sane.stacked.update fresh, fun d away => ?_, fun d some => ?_, sane.dispatched,
      sane.intact⟩
    · by_cases same : d = s.made
      · rw [same, setControl_self]
        exact ⟨rfl, rfl, fun _ => ⟨.body, rfl, rfl⟩⟩
      · rw [setControl_of_ne same]
        exact sane.idle d away
    · by_cases same : d = s.made
      · exact same ▸ Nat.lt_succ_self s.made
      · rw [setControl_of_ne same] at some
        exact Nat.lt_succ_of_lt (sane.made d some)
  exact made.runCoroutine fresh (by simp)

/-- The fiber that is executed is left. -/
theorem Sane.resumeArgctx (sane : Sane s) (designates : s.ptr = some c)
    (apart : calledBySetup s.stack = false)
    (argctx : control.argctx = (s.controls c).argctx)
    (saved : control.previousCoroutine = (s.controls c).previousCoroutine) :
    Sane (resumeArgctx c (setControl c control s)) := by
  have stacked := sane.stacked
  rw [designates] at stacked
  obtain ⟨fiber, previous, below, split, found, executed, -⟩ := stacked.onFiber apart
  have atRun := sane.atRun fiber split (by simpa using! found.active [])
  have leaves : CurrentCoroutine.resumeArgctx c (setControl c control s) =
      left c (setControl c { control with ctx := fiber, argctx := false }
        { s with stack := .runCoroutine c previous :: below }) := by
    have frames := found.split previous below
    simp [CurrentCoroutine.resumeArgctx, argctx, executed, split, frames, setControl]
  rw [leaves]
  have away := atRun.setControl { control with ctx := fiber, argctx := false }
    (saved.trans atRun.saved)
  exact away.left designates (by simp) (.inl (by simpa using found))

/-! ## What the choices do -/

theorem Sane.status (sane : Sane s) (status : Option Status) : Sane { s with status } :=
  ⟨sane.stacked, sane.idle, sane.made, sane.dispatched, sane.intact⟩

theorem Sane.served (sane : Sane s) (outcome : Outcome) :
    Sane { s with dispatched := s.dispatched ++ [(outcome, outcome)] } := by
  refine ⟨sane.stacked, sane.idle, sane.made, fun pair listed => ?_, sane.intact⟩
  rcases List.mem_append.mp listed with earlier | new
  · exact sane.dispatched pair earlier
  · rw [List.mem_singleton.mp new]

/-- Code that is called, or returns, without a change of the active coroutines. -/
theorem Sane.onTop (sane : Sane s) (stacked : Stacked s.controls s.ptr stack)
    (same : active stack = active s.stack) : Sane { s with stack } :=
  ⟨stacked, same ▸ sane.idle, same ▸ sane.made, sane.dispatched, sane.intact⟩

theorem Sane.await (sane : Sane s) (apart : calledBySetup s.stack = false) : Sane (await s) := by
  unfold CurrentCoroutine.await
  split
  · rename_i c designates
    exact sane.resumeArgctx designates apart rfl rfl
  · exact sane

theorem Sane.dispatch (sane : Sane s) (apart : calledBySetup s.stack = false) :
    Sane (dispatch s) := by
  unfold CurrentCoroutine.dispatch
  split
  · rename_i c designates
    have stacked := sane.stacked
    rw [designates] at stacked
    obtain ⟨-, -, -, -, -, -, idle⟩ := stacked.onFiber apart
    rw [if_neg (by simp [idle])]
    exact sane.resumeArgctx designates apart rfl rfl
  · rename_i designates
    have stacked := sane.stacked
    rw [designates] at stacked
    refine sane.onTop ?_ rfl
    rw [designates]
    exact stacked.direct

theorem Sane.finish (sane : Sane s) (aborted : Bool) (top : s.stack = .body c :: below) :
    Sane (finish c aborted { s with stack := below }) := by
  have stacked := sane.stacked
  rw [top] at stacked
  obtain ⟨previous, below, rfl, executes⟩ := stacked.top (.inl rfl)
  obtain ⟨designates, work⟩ : s.ptr = some c ∧ (s.controls c).workForThreadContext = false := by
    generalize s.ptr = p at executes
    cases executes with
    | body ctx argctx work => exact ⟨rfl, work⟩
  have atRun := sane.atRun [.body c] top rfl
  have ended := atRun.setControl { s.controls c with ctx := [], argctx := false, aborted } atRun.saved
  refine ended.left designates (by simp) (.inr ?_)
  rw [setControl_self]
  exact ⟨rfl, work⟩

theorem worked_eq : worked c outcome s =
    let next := setControl c { s.controls c with
      pack := some outcome, ctx := [], argctx := true, workForThreadContext := false }
      { s with ptr := some c, stack := (s.controls c).ctx ++ s.stack }
    { next with dispatched := next.dispatched ++ [(outcome, outcome)] } := by
  simp [worked, dispatched, resumeCtx, setControl]

theorem Sane.worked (sane : Sane s) (outcome : Outcome) (top : s.stack = .work c :: below) :
    Sane (worked c outcome { s with stack := below }) := by
  have stacked := sane.stacked
  rw [top] at stacked
  obtain ⟨previous, below, rfl, executes⟩ := stacked.top (.inr (.inr rfl))
  have ctx : Fiber c (s.controls c).ctx := by
    generalize s.ptr = p at executes
    cases executes with
    | work ctx => exact ctx
  have atRun := sane.atRun [.work c] top rfl
  have goesOn := atRun.resumed ctx { s.controls c with
    pack := some outcome, ctx := [], argctx := true, workForThreadContext := false } atRun.saved
    rfl rfl rfl
  rw [worked_eq]
  exact goesOn.served outcome

theorem Sane.setUp (sane : Sane s) (outcome : Outcome) (top : s.stack = .setup c :: below) :
    Sane (setUp c outcome { s with stack := below }) := by
  have stacked := sane.stacked
  rw [top] at stacked
  obtain ⟨previous, below, rfl, executes⟩ := stacked.top (.inr (.inl rfl))
  have resting : Resting c (s.controls c) := by
    generalize s.ptr = p at executes
    cases executes with
    | setup resting => exact resting
  have atRun := sane.atRun [.setup c] top rfl
  cases outcome with
  | value v =>
    have nulled := (atRun.status (some .waiting)).setControl
      { s.controls c with coroutineExitPostSetup := false } atRun.saved
    apply nulled.scopeExit_some
    rw [setControl_self]
    exact ⟨resting.ctx, resting.argctx, resting.work⟩
  | exception e => exact (atRun.status none).scopeExit_some resting

theorem Sane.step (sane : Sane s) (guarded : Guarded s () choice)
    (stepped : step s choice = some s') : Sane s' := by
  obtain ⟨inactive, suspended, apart⟩ := guarded
  cases choice with
  | submit =>
    cases stepped
    exact sane.submit
  | resume c =>
    simp only [CurrentCoroutine.step] at stepped
    split at stepped
    · cases stepped
      exact sane.runCoroutine (inactive c rfl) (suspended c rfl)
    · cases stepped
  | cancel c =>
    simp only [CurrentCoroutine.step] at stepped
    split at stepped
    · cases stepped
    · cases stepped
      exact sane.onTop (sane.stacked.canceler c) rfl
  | await =>
    cases stepped
    exact sane.await (Bool.eq_false_iff.mpr fun called => (apart called).1 rfl)
  | dispatch =>
    cases stepped
    exact sane.dispatch (Bool.eq_false_iff.mpr fun called => (apart called).2 rfl)
  | finish aborted =>
    simp only [CurrentCoroutine.step] at stepped
    split at stepped
    · rename_i c below top
      cases stepped
      exact sane.finish aborted top
    · cases stepped
  | «return» outcome =>
    simp only [CurrentCoroutine.step] at stepped
    split at stepped
    · rename_i c below top
      cases stepped
      exact sane.worked outcome top
    · rename_i below top
      cases stepped
      have stacked := sane.stacked
      rw [top] at stacked
      exact (sane.onTop (stacked.caller (.inl rfl)) (by rw [top]; rfl)).served outcome
    · rename_i c below top
      cases stepped
      exact sane.setUp outcome top
    · rename_i c below top
      have stacked := sane.stacked
      rw [top] at stacked
      have popped := sane.onTop (stacked.caller (.inr ⟨c, rfl⟩)) (by rw [top]; rfl)
      split at stepped
      · rename_i v
        cases stepped
        have runs' : runs s (.return (.value v)) = some c := by simp [runs, top]
        have away := inactive c runs'
        rw [top] at away
        exact popped.runCoroutine away (suspended c runs')
      · cases stepped
        exact popped
    · cases stepped

/-! ## Every run -/

theorem Sane.follows (sane : Sane s) : Follows s where
  pointer := sane.stacked.pointer
  restored above c previous below split := by
    have stacked := sane.stacked
    rw [split] at stacked
    exact stacked.under.1.pointer
  previous c d saved := by
    have among : c ∈ active s.stack := by
      by_contra away
      rw [(sane.idle c away).previous] at saved
      cases saved
    obtain ⟨above, previous, below, split⟩ := mem_active among
    have stacked := sane.stacked
    rw [split] at stacked
    obtain ⟨rest, kept, -⟩ := stacked.under
    obtain rfl : some d = previous := saved.symm.trans kept
    obtain ⟨between, p, below, rfl⟩ := rest.running
    exact ⟨above, between, p, below, split⟩
  work c set := by
    have among : c ∈ active s.stack := by
      by_contra away
      rw [(sane.idle c away).work] at set
      cases set
    exact sane.stacked.working among set
  dispatched := sane.dispatched
  intact := sane.intact

variable {config : Config State Unit}

theorem sane_of_reachable (reached : Reachable exec Guarded start config) :
    Sane config.state := by
  obtain ⟨agenda, -, sane⟩ := reached.invariant_agenda (fun s _ => Sane s) Sane.start
    fun _ choice s _ _ s' _ sane guarded ran => by
      unfold exec at ran
      split at ran
      · cases ran
      · obtain ⟨next, stepped, same⟩ := Option.map_eq_some_iff.mp ran
        cases same
        exact sane.step guarded stepped
  exact sane

/-- **The pointer follows the stack** of active coroutines, unless `coroutine_exit_post_setup`
calls what awaits or dispatches. -/
theorem follows_of_guarded (reached : Reachable exec Guarded start config) :
    Follows config.state :=
  (sane_of_reachable reached).follows

/-- There the pointer still designates the coroutine, whose fiber is suspended. -/
theorem Sane.dispatch_crashes (sane : Sane s) (called : calledBySetup s.stack = true) :
    ¬ Follows (CurrentCoroutine.dispatch s) := by
  obtain ⟨c, designates, resting⟩ := sane.stacked.setup called
  intro follows
  have intact := follows.intact
  simp [CurrentCoroutine.dispatch, designates, resting.work, CurrentCoroutine.resumeArgctx,
    resting.argctx, crash] at intact

def resumesInactive (s : State) (_ : Unit) (choice : Choice) : Bool :=
  (runs s choice).all fun c => !(active s.stack).contains c

def guarded (s : State) (call : Unit) (choice : Choice) : Bool :=
  resumesInactive s call choice && (runs s choice).all (fun c => !(s.controls c).ctx.isEmpty) &&
    (!calledBySetup s.stack || (choice != .await && choice != .dispatch))

theorem resumesInactive_sound (s : State) (call : Unit) (choice : Choice)
    (permitted : resumesInactive s call choice = true) : ResumesInactive s call choice := by
  intro c runs
  simpa [resumesInactive, runs] using permitted

theorem guarded_sound (s : State) (call : Unit) (choice : Choice)
    (permitted : guarded s call choice = true) : Guarded s call choice := by
  simp only [guarded, Bool.and_eq_true] at permitted
  refine ⟨resumesInactive_sound s call choice permitted.1.1, fun c runs => ?_, fun called => ?_⟩
  · simpa [runs] using permitted.1.2
  · simpa [called] using permitted.2

/-- A coroutine cancels another one, and the canceler calls code that dispatches. -/
theorem follows_cancel : ∃ config : Config State Unit,
    config.state.stack = [.body 0, .runCoroutine 0 (some 1), .body 1, .runCoroutine 1 none,
      .thread] ∧ config.state.dispatched = [(.value 4, .value 4)] ∧ Follows config.state := by
  have ran : (start.runWithin exec guarded [(0, .submit), (0, .await), (0, .return (.value 0)),
      (0, .submit), (0, .cancel 0), (0, .dispatch), (0, .return (.value 4)),
      (0, .return (.value 0))]).map (fun config => decide (
        config.state.stack = [.body 0, .runCoroutine 0 (some 1), .body 1, .runCoroutine 1 none,
          .thread] ∧ config.state.dispatched = [(.value 4, .value 4)])) = some true := by
    decide
  obtain ⟨config, reached, holds⟩ := reachable_of_replay_within guarded_sound _ _ ran
  obtain ⟨stack, dispatched⟩ := of_decide_eq_true holds
  exact ⟨config, stack, dispatched, follows_of_guarded reached⟩

/-- A coroutine awaits a sender whose `submit` dispatches: the coroutine is not resumed, and its
fiber is taken for the current one. -/
theorem submit_dispatches : ∃ config : Config State Unit,
    Reachable exec ResumesInactive start config ∧
      config.state.stack = [.setup 0, .runCoroutine 0 none, .thread] ∧
      (config.state.controls 0).workForThreadContext = true ∧ config.state.dispatched = [] ∧
      config.state.crashed = true ∧ ¬ Follows config.state := by
  have ran : (start.runWithin exec resumesInactive [(0, .submit), (0, .await), (0, .dispatch)]).map
      (fun config => decide (
        config.state.stack = [.setup 0, .runCoroutine 0 none, .thread] ∧
        (config.state.controls 0).workForThreadContext = true ∧ config.state.dispatched = [] ∧
        config.state.crashed = true)) = some true := by
    decide
  obtain ⟨config, reached, holds⟩ := reachable_of_replay_within resumesInactive_sound _ _ ran
  obtain ⟨stack, work, dispatched, crashed⟩ := of_decide_eq_true holds
  refine ⟨config, reached, stack, work, dispatched, crashed, fun follows => ?_⟩
  rw [follows.intact] at crashed
  cases crashed

end Tconcurrent.CurrentCoroutine
