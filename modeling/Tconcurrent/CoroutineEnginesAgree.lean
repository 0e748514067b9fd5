import Tconcurrent.CoroutineEngines

/-! The two implementations of coroutines deliver the same outcome.

They do in every schedule in which cancelation is requested while the coroutine is
suspended, if nothing catches `abort_coroutine`.  A request of the running code is seen
at the next await by one engine, at the end of the first segment by the other. -/
namespace Tconcurrent.CoroutineEngines
open Interleaving

variable {L V α : Type} {code : Code L V α} {l : L} {w : World V} {n : ℕ} {resume : Resume L V}
  {a : Stackful L V α} {b : Stackless L V α} {e e' : Engines L V α} {outcome : Except Exc α}

/-- The code ends or yields before it awaits anything, and nothing catches what the yield
throws. -/
inductive EndsFirst (code : Code L V α) : L → Prop where
  | return {l : L} {value : α} (instr : code l = .return value) : EndsFirst code l
  | throw {l : L} {e : Exc} (instr : code l = .throw e) : EndsFirst code l
  | yield {l next : L} {handler : Handler L} (instr : code l = .yield next handler)
      (uncaught : handler (.exc .operationCanceled) = none) : EndsFirst code l
  | requestCancel {l next : L} (instr : code l = .requestCancel next)
      (rest : EndsFirst code next) : EndsFirst code l

/-- The code requests the cancelation of its own future only before it has suspended,
and then ends or yields before it awaits anything.  Where it is canceled while it is
suspended, nothing catches `abort_coroutine`. -/
structure RequestsEarly (code : Code L V α) (e : Engines L V α) (_ : Unit) (event : Event V) :
    Prop where
  requests : ∀ l next, event = .advance → e.stackful.mode = .running l →
    code l = .requestCancel next → e.stackful.count = 0 ∧ EndsFirst code next
  aborts : ∀ n resume, event = .cancel → e.stackful.mode = .suspended n resume →
    resume.handler .abortCoroutine = none

/-- The future shows the same in both, and neither engine has crashed. -/
structure SameOutcome (e : Engines L V α) : Prop where
  outcome : e.stackful.mode.outcome = e.stackless.mode.outcome
  stackful : e.stackful.mode ≠ .crashed
  stackless : e.stackless.mode ≠ .crashed

/-! ## The simulation -/

/-- Exactly one continuation is registered or posted, that of the current await. -/
inductive Waits (w : World V) (n : ℕ) (resume : Resume L V) : Prop where
  | posted (queue : w.queue = [n]) (thens : w.thens = [])
      (ready : ∀ k next handler, resume = .await k next handler → w.resolved k ≠ none)
  | registered {k : ℕ} {next : V → L} {handler : Handler L}
      (awaits : resume = .await k next handler) (queue : w.queue = [])
      (thens : w.thens = [(k, n)]) (unready : w.resolved k = none)

/-- What is left over does not touch the coroutine. -/
structure Quiet (w : World V) (flag : ℕ → Bool) : Prop where
  queue : ∀ n ∈ w.queue, flag n = true
  thens : ∀ p ∈ w.thens, flag p.2 = true

/-- How the engines correspond. -/
inductive Agree (code : Code L V α) (a : Stackful L V α) (b : Stackless L V α) : Prop where
  | running {l : L} (mode : a.mode = .running l) (same : b.mode = .running l)
      (world : b.world = a.world) (queue : a.world.queue = []) (thens : a.world.thens = [])
      (count : b.count = a.count) (free : a.canceler = none)
      (canceler : b.canceler = !b.submitting) (first : b.submitting = true ↔ a.count = 0)
      (canceled : b.canceled = a.canceled)
      (early : a.canceled = true → a.count = 0 ∧ EndsFirst code l)
      (fresh : ∀ n, a.count ≤ n → a.aborted n = false ∧ b.dead n = false)
  | suspended {n : ℕ} {resume : Resume L V} (mode : a.mode = .suspended n resume)
      (same : b.mode = .suspended n resume) (world : b.world = a.world)
      (waits : Waits a.world n resume) (count : b.count = a.count) (inside : n < a.count)
      (installed : a.canceler = some n) (canceler : b.canceler = true)
      (submitted : b.submitting = false) (uncanceled : a.canceled = false)
      (canceled : b.canceled = false) (alive : a.aborted n = false ∧ b.dead n = false)
      (fresh : ∀ n, a.count ≤ n → a.aborted n = false ∧ b.dead n = false)
  | finished {outcome : Except Exc α} (mode : a.mode = .finished outcome)
      (same : b.mode = .finished outcome) (free : a.canceler = none)
      (canceler : b.canceler = false) (left : Quiet a.world a.aborted)
      (right : Quiet b.world b.dead)

theorem Agree.sameOutcome (agree : Agree code a b) : SameOutcome ⟨a, b⟩ := by
  cases agree with
  | running mode same => exact ⟨by rw [mode, same], by rw [mode]; exact nofun, by rw [same]; exact nofun⟩
  | suspended mode same =>
    exact ⟨by rw [mode, same], by rw [mode]; exact nofun, by rw [same]; exact nofun⟩
  | finished mode same =>
    exact ⟨by rw [mode, same], by rw [mode]; exact nofun, by rw [same]; exact nofun⟩

/-! ## Resolutions -/

theorem Waits.resolve {k : ℕ} {result : Except Exc V} (waits : Waits w n resume) :
    Waits (w.resolve k result) n resume := by
  unfold World.resolve
  split
  · exact waits
  · rename_i unresolved
    cases waits with
    | posted queue thens ready =>
      refine .posted (by simp [queue, thens]) (by simp [thens]) fun j next handler awaits => ?_
      by_cases same : j = k
      · simp [same]
      · simpa [same] using ready j next handler awaits
    | @registered j next handler awaits queue thens unready =>
      by_cases same : j = k
      · subst same
        refine .posted (by simp [queue, thens]) (by simp [thens]) fun i next' handler' awaits' => ?_
        rw [awaits] at awaits'
        cases awaits'
        simp
      · exact .registered awaits (by simp [queue, thens, same]) (by simp [thens, same])
          (by simpa [same] using unready)

theorem Quiet.resolve {k : ℕ} {result : Except Exc V} {flag : ℕ → Bool} (quiet : Quiet w flag) :
    Quiet (w.resolve k result) flag := by
  unfold World.resolve
  split
  · exact quiet
  · constructor
    · intro n member
      rcases List.mem_append.mp member with old | new
      · exact quiet.queue n old
      · obtain ⟨p, listed, rfl⟩ := List.mem_map.mp new
        exact quiet.thens p (List.mem_of_mem_filter listed)
    · exact fun p member => quiet.thens p (List.mem_of_mem_filter member)

theorem Agree.resolve {k : ℕ} {result : Except Exc V} (agree : Agree code a b) :
    Agree code { a with world := a.world.resolve k result }
      { b with world := b.world.resolve k result } := by
  cases agree with
  | running mode same world queue thens count free canceler first canceled early fresh =>
    have still : (a.world.resolve k result).queue = [] ∧ (a.world.resolve k result).thens = [] := by
      unfold World.resolve
      split
      · exact ⟨queue, thens⟩
      · simp [queue, thens]
    exact .running mode same (by rw [world]) still.1 still.2 count free canceler first canceled
      early fresh
  | suspended mode same world waits count inside installed canceler submitted uncanceled canceled
      alive fresh =>
    exact .suspended mode same (by rw [world]) waits.resolve count inside installed canceler
      submitted uncanceled canceled alive fresh
  | finished mode same free canceler left right =>
    exact .finished mode same free canceler left.resolve right.resolve

/-! ## Steps -/

theorem quiet_empty {flag : ℕ → Bool} (queue : w.queue = []) (thens : w.thens = []) :
    Quiet w flag :=
  ⟨by simp [queue], by simp [thens]⟩

/-- The only continuation that is left is that of an await that was given up. -/
theorem Waits.quiet {flag : ℕ → Bool} (waits : Waits w n resume) (given : flag n = true) :
    Quiet w flag := by
  cases waits with
  | posted queue thens => exact ⟨by simp [queue, given], by simp [thens]⟩
  | registered awaits queue thens => exact ⟨by simp [queue], by simp [thens, given]⟩

/-- An await of a pending future, or a yield, leaves one continuation. -/
theorem waits_suspend (queue : w.queue = []) (thens : w.thens = []) :
    Waits (w.suspend n resume) n resume := by
  unfold World.suspend
  split
  · exact .posted (by simp [queue]) (by simp [thens]) nofun
  · split
    · rename_i k next handler result ready
      refine .posted (by simp [queue]) (by simp [thens]) fun j next' handler' awaits => ?_
      cases awaits
      simp [ready]
    · rename_i k next handler unready
      exact .registered rfl (by simp [queue]) (by simp [thens]) unready

/-- Both come out of an await with its result. -/
theorem agree_result {a : Stackful L V α} {b : Stackless L V α}
    (world : b.world = a.world) (queue : a.world.queue = []) (thens : a.world.thens = [])
    (ready : ∀ k next handler, resume = .await k next handler → a.world.resolved k ≠ none)
    (count : b.count = a.count) (free : a.canceler = none) (canceler : b.canceler = !b.submitting)
    (first : b.submitting = true ↔ a.count = 0) (uncanceled : a.canceled = false)
    (canceled : b.canceled = false)
    (fresh : ∀ n, a.count ≤ n → a.aborted n = false ∧ b.dead n = false) :
    Agree code (a.awaitResult resume) (b.awaitResume resume) := by
  have running (l : L) : Agree code { a with mode := .running l } { b with mode := .running l } :=
    .running rfl rfl world queue thens count free canceler first (canceled.trans uncanceled.symm)
      (fun flagged => by rw [uncanceled] at flagged; cases flagged) fresh
  cases resume with
  | yield next handler => exact running next
  | await k next handler =>
    obtain ⟨result, resolved⟩ := Option.ne_none_iff_exists'.mp (ready k next handler rfl)
    have resolved' : b.world.resolved k = some result := by rw [world, resolved]
    simp only [Stackful.awaitResult, Stackless.awaitResume, resolved, resolved']
    cases result with
    | ok value => exact running (next value)
    | error e =>
      simp only [Stackful.throws, Stackless.throws]
      cases (Resume.await k next handler).handler (.exc e) with
      | some l => exact running l
      | none =>
        exact .finished rfl rfl rfl rfl (quiet_empty queue thens)
          (quiet_empty (by simpa [Stackless.finish, world] using queue)
            (by simpa [Stackless.finish, world] using thens))

/-- Both suspend, before any request. -/
theorem agree_suspend (world : b.world = a.world)
    (queue : a.world.queue = []) (thens : a.world.thens = []) (count : b.count = a.count)
    (canceler : b.canceler = !b.submitting)
    (uncanceled : a.canceled = false) (canceled : b.canceled = false)
    (fresh : ∀ n, a.count ≤ n → a.aborted n = false ∧ b.dead n = false) (resume : Resume L V) :
    Agree code (a.suspend resume) (b.awaitSuspend resume) := by
  have suspended (b' : Stackless L V α) (same : b'.mode = .suspended a.count resume)
      (world' : b'.world = a.world.suspend a.count resume) (count' : b'.count = a.count + 1)
      (installed : b'.canceler = true) (submitted : b'.submitting = false)
      (uncanceled' : b'.canceled = false) (dead : b'.dead = b.dead) :
      Agree code (a.suspend resume) b' := by
    have still (k : ℕ) (beyond : a.count + 1 ≤ k) : a.aborted k = false ∧ b'.dead k = false := by
      rw [dead]
      exact fresh k (by omega)
    simp only [Stackful.suspend, uncanceled, Bool.false_eq_true, if_false]
    refine .suspended rfl same world' (waits_suspend queue thens) count' (Nat.lt_succ_self _) rfl
      installed submitted rfl uncanceled' ?_ still
    rw [dead]
    exact fresh a.count le_rfl
  unfold Stackless.awaitSuspend
  dsimp only
  split
  · simp only [canceled, Bool.false_eq_true, if_false]
    exact suspended _ (by rw [count]) (by rw [world, count]) (by rw [count]) rfl rfl rfl rfl
  · rename_i later
    have installed : b.canceler = true := by
      rw [canceler]
      simpa using later
    exact suspended _ (by rw [count]) (by rw [world, count]) (by rw [count]) installed
      (by simpa using later) canceled rfl

/-- A yield after a request ends both with `operation_canceled`. -/
theorem agree_yield_canceled {next : L} {handler : Handler L} (world : b.world = a.world)
    (queue : a.world.queue = []) (thens : a.world.thens = []) (submitting : b.submitting = true)
    (canceled : b.canceled = true) (uncaught : handler (.exc .operationCanceled) = none) :
    Agree code (a.throws (.yield next handler) (.exc .operationCanceled))
      (b.awaitSuspend (.yield next handler)) := by
  simp only [Stackful.throws, Resume.handler, uncaught, Thrown.shown, Stackless.awaitSuspend,
    submitting, canceled, if_true, Stackless.cancel]
  refine .finished rfl rfl rfl rfl (quiet_empty queue thens) ⟨?_, ?_⟩
  · simp [Stackless.finish, World.suspend, world, queue]
  · simp [Stackless.finish, World.suspend, world, thens]

/-- The running code goes on. -/
theorem agree_advance (agree : Agree code a b) (early : RequestsEarly code ⟨a, b⟩ () .advance) :
    Agree code (a.advance code) (b.advance code) := by
  cases agree with
  | @running l mode same world queue thens count free canceler first canceled requested fresh =>
    have queue' : b.world.queue = [] := by rw [world, queue]
    have thens' : b.world.thens = [] := by rw [world, thens]
    have ended (outcome : Except Exc α) : Agree code (a.finish outcome) (b.finish outcome) :=
      .finished rfl rfl rfl rfl (quiet_empty queue thens) (quiet_empty queue' thens')
    cases instr : code l with
    | «return» value =>
      simp only [Stackful.advance, Stackless.advance, mode, same, instr]
      exact ended _
    | throw e =>
      simp only [Stackful.advance, Stackless.advance, mode, same, instr]
      exact ended _
    | requestCancel next =>
      obtain ⟨zero, ends⟩ := early.requests l next rfl mode instr
      have submitting : b.submitting = true := first.mpr zero
      have absent : b.canceler = false := by simp [canceler, submitting]
      simp only [Stackful.advance, Stackless.advance, mode, same, instr, Stackful.requestCancel,
        Stackless.requestCancel, canceled, free, absent, Bool.false_eq_true, if_false]
      split
      · exact .running rfl rfl world queue thens count rfl (absent.symm.trans canceler) first rfl
          (fun _ => ⟨zero, ends⟩) fresh
      · exact .running rfl rfl world queue thens count rfl (absent.symm.trans canceler) first rfl
          (fun _ => ⟨zero, ends⟩) fresh
    | yield next handler =>
      simp only [Stackful.advance, Stackless.advance, mode, same, instr]
      split
      · rename_i flagged
        have uncaught : handler (.exc .operationCanceled) = none := by
          cases (requested flagged).2 with
          | yield yields uncaught =>
            rw [instr] at yields
            cases yields
            exact uncaught
          | «return» other | throw other | requestCancel other =>
            rw [instr] at other
            cases other
        exact agree_yield_canceled world queue thens (first.mpr (requested flagged).1)
          (canceled.trans flagged) uncaught
      · rename_i unflagged
        have uncanceled : a.canceled = false := by simpa using unflagged
        exact agree_suspend world queue thens count canceler uncanceled
          (canceled.trans uncanceled) fresh _
    | await k next handler =>
      have uncanceled : a.canceled = false := by
        by_contra flagged
        cases (requested (by simpa using flagged)).2 with
        | «return» other | throw other | yield other | requestCancel other =>
          rw [instr] at other
          cases other
      simp only [Stackful.advance, Stackless.advance, mode, same, instr, world]
      split
      · rename_i ready
        simp only [Stackful.awaitReturns, uncanceled, Bool.false_eq_true, if_false]
        refine agree_result world queue thens ?_ count free canceler first uncanceled
          (canceled.trans uncanceled) fresh
        intro j next' handler' awaits unresolved
        cases awaits
        simp [unresolved] at ready
      · exact agree_suspend world queue thens count canceler uncanceled
          (canceled.trans uncanceled) fresh _
  | suspended mode same world waits count inside installed canceler submitted uncanceled canceled
      alive fresh =>
    simp only [Stackful.advance, Stackless.advance, mode, same]
    exact .suspended mode same world waits count inside installed canceler submitted uncanceled
      canceled alive fresh
  | finished mode same free canceler left right =>
    simp only [Stackful.advance, Stackless.advance, mode, same]
    exact .finished mode same free canceler left right

/-- What is left over is skipped. -/
theorem stackful_run_quiet (quiet : Quiet a.world a.aborted) :
    a.run.mode = a.mode ∧ a.run.canceler = a.canceler ∧ Quiet a.run.world a.run.aborted := by
  unfold Stackful.run
  split
  · exact ⟨rfl, rfl, quiet⟩
  · rename_i n queue front
    rw [if_pos (quiet.queue n (by simp [front]))]
    exact ⟨rfl, rfl, fun m member => quiet.queue m (by simp [front, member]), quiet.thens⟩

theorem stackless_run_quiet (quiet : Quiet b.world b.dead) :
    b.run.mode = b.mode ∧ b.run.canceler = b.canceler ∧ Quiet b.run.world b.run.dead := by
  unfold Stackless.run
  split
  · exact ⟨rfl, rfl, quiet⟩
  · rename_i n queue front
    dsimp only
    rw [if_pos (quiet.queue n (by simp [front]))]
    exact ⟨rfl, rfl, fun m member => quiet.queue m (by simp [front, member]), quiet.thens⟩

/-- The executor runs a continuation, perhaps of the current await. -/
theorem agree_run (agree : Agree code a b) : Agree code (a.step code .run) (b.step code .run) := by
  cases agree with
  | running mode same world queue thens count free canceler first canceled early fresh =>
    simp only [Stackful.step, Stackless.step, mode, same]
    exact .running mode same world queue thens count free canceler first canceled early fresh
  | @suspended n resume mode same world waits count inside installed canceler submitted uncanceled
      canceled alive fresh =>
    simp only [Stackful.step, Stackless.step, mode, same, Stackful.run, Stackless.run, world]
    cases waits with
    | posted queue thens ready =>
      simp only [queue, alive.1, alive.2, Bool.false_eq_true, if_false, Stackful.runCoroutine,
        Stackful.awaitReturns, uncanceled]
      refine agree_result rfl rfl thens ready count rfl ?_ ?_ rfl canceled fun j beyond => ?_
      · simp [canceler, submitted]
      · simp only [submitted, Bool.false_eq_true, false_iff]
        omega
      · refine ⟨(fresh j beyond).1, ?_⟩
        change Function.update b.dead n true j = false
        rw [Function.update_of_ne (by have := beyond; simp only at this; omega)]
        exact (fresh j beyond).2
    | registered awaits queue thens unready =>
      simp only [queue]
      exact .suspended mode same world (.registered awaits queue thens unready) count inside
        installed canceler submitted uncanceled canceled alive fresh
  | finished mode same free canceler left right =>
    simp only [Stackful.step, Stackless.step, mode, same]
    obtain ⟨ended, still, skipped⟩ := stackful_run_quiet left
    obtain ⟨ended', still', skipped'⟩ := stackless_run_quiet right
    exact .finished (ended.trans mode) (ended'.trans same) (still.trans free)
      (still'.trans canceler) skipped skipped'

/-- Without a canceler a request only sets the flag. -/
theorem stackful_requestCancel_free (free : a.canceler = none) :
    a.requestCancel.mode = a.mode ∧ a.requestCancel.canceler = none ∧
      a.requestCancel.world = a.world ∧ a.requestCancel.aborted = a.aborted := by
  unfold Stackful.requestCancel
  split
  · exact ⟨rfl, free, rfl, rfl⟩
  · rw [free]
    exact ⟨rfl, rfl, rfl, rfl⟩

theorem stackless_requestCancel_free (free : b.canceler = false) :
    b.requestCancel.mode = b.mode ∧ b.requestCancel.canceler = false ∧
      b.requestCancel.world = b.world ∧ b.requestCancel.dead = b.dead := by
  unfold Stackless.requestCancel
  split
  · exact ⟨rfl, free, rfl, rfl⟩
  · simp only [free, Bool.false_eq_true, if_false, and_self]

/-- Code outside of the coroutine requests cancelation. -/
theorem agree_cancel (agree : Agree code a b) (early : RequestsEarly code ⟨a, b⟩ () .cancel) :
    Agree code (a.step code .cancel) (b.step code .cancel) := by
  cases agree with
  | running mode same world queue thens count free canceler first canceled requested fresh =>
    simp only [Stackful.step, Stackless.step, mode, same]
    exact .running mode same world queue thens count free canceler first canceled requested fresh
  | @suspended n resume mode same world waits count inside installed canceler submitted uncanceled
      canceled alive fresh =>
    simp only [Stackful.step, Stackless.step, mode, same, Stackful.requestCancel,
      Stackless.requestCancel, uncanceled, canceled, installed, canceler, Bool.false_eq_true,
      if_false, if_true, Stackful.runCoroutine, Stackful.throws, early.aborts n resume rfl mode,
      Thrown.shown, Stackless.cancel, Function.update_self]
    refine .finished rfl rfl rfl rfl (waits.quiet (Function.update_self ..)) ?_
    have waits' : Waits b.world n resume := by rw [world]; exact waits
    exact waits'.quiet (Function.update_self ..)
  | finished mode same free canceler left right =>
    simp only [Stackful.step, Stackless.step, mode, same]
    obtain ⟨ended, free', world, aborted⟩ := stackful_requestCancel_free free
    obtain ⟨ended', canceler', world', dead⟩ := stackless_requestCancel_free canceler
    refine .finished (ended.trans mode) (ended'.trans same) free' canceler' ?_ ?_
    · rw [world, aborted]
      exact left
    · rw [world', dead]
      exact right

theorem agree_step {event : Event V} (agree : Agree code a b)
    (early : RequestsEarly code ⟨a, b⟩ () event) :
    Agree code (a.step code event) (b.step code event) := by
  cases event with
  | advance => exact agree_advance agree early
  | resolve k result => exact agree.resolve
  | run => exact agree_run agree
  | cancel => exact agree_cancel agree early

theorem agree_start (l : L) : Agree code { mode := .running l } { mode := .running l } :=
  .running rfl rfl rfl rfl rfl rfl rfl rfl (by simp) rfl nofun fun _ _ => ⟨rfl, rfl⟩

/-- **Both implementations deliver the same outcome** for every program, in every
schedule in which the program does not request its own cancelation too late, and does not
catch what cancels it. -/
theorem sameOutcome_of_requestsEarly {config : Config (Engines L V α) Unit}
    (reached : Reachable (ofActions (Engines.step code)) (RequestsEarly code) (start l) config) :
    SameOutcome config.state := by
  have agree : Agree code config.state.stackful config.state.stackless := by
    apply reached.invariant_actions fun e => Agree code e.stackful e.stackless
    · exact agree_start l
    · intro event e e' agree early ran
      cases ran
      exact agree_step agree early
  exact agree.sameOutcome

/-- A `catch` of one exception. -/
def catching (e : Exc) (l : ℕ) : Handler ℕ := fun thrown => if thrown = .exc e then some l else none

/-- Nothing is caught. -/
def uncaught : Handler ℕ := fun _ => none

/-- An await of which an exception is caught, a request and a yield. -/
def cancelsThenYields : Code ℕ ℕ ℕ
  | 0 => .await 0 (fun _ => 3) (catching (.thrown 5) 1)
  | 1 => .requestCancel 2
  | 2 => .yield 3 uncaught
  | _ => .return 7

/-- The code only runs before it has suspended. -/
def firstSegment (e : Engines ℕ ℕ ℕ) (_ : Unit) : Event ℕ → Bool
  | .advance => e.stackful.count == 0
  | .cancel => false
  | _ => true

theorem firstSegment_sound (e : Engines ℕ ℕ ℕ) (call : Unit) (event : Event ℕ)
    (checked : firstSegment e call event = true) : RequestsEarly cancelsThenYields e call event := by
  constructor
  · rintro l next rfl running instr
    refine ⟨by simpa [firstSegment] using checked, ?_⟩
    unfold cancelsThenYields at instr
    split at instr
    · cases instr
    · cases instr
      exact .yield rfl rfl
    · cases instr
    · cases instr
  · rintro n resume rfl
    cases checked

/-- The await throws, which is caught; the yield ends both. -/
theorem sameOutcome_cancelsThenYields : ∃ config : Config (Engines ℕ ℕ ℕ) Unit,
    SameOutcome config.state ∧
      config.state.stackful.mode.outcome = some (.error .operationCanceled) := by
  have ran : ((start 0).runWithin (ofActions (Engines.step cancelsThenYields)) firstSegment
      [(0, .resolve 0 (.error (.thrown 5))), (0, .advance), (0, .advance), (0, .advance)]).map
      (fun config =>
        decide (config.state.stackful.mode.outcome = some (.error .operationCanceled))) =
          some true := by decide
  obtain ⟨config, reached, holds⟩ := reachable_of_replay_within firstSegment_sound _ _ ran
  exact ⟨config, sameOutcome_of_requestsEarly reached, of_decide_eq_true holds⟩

/-- A request, and the await of a ready future. -/
def cancelsThenAwaits : Code ℕ ℕ ℕ
  | 0 => .requestCancel 1
  | 1 => .await 0 (fun _ => 2) uncaught
  | _ => .return 7

/-- The await throws in a stackful coroutine, and returns in a stackless one. -/
theorem await_after_request_differs : ∃ config : Config (Engines ℕ ℕ ℕ) Unit,
    Reachable (ofActions (Engines.step cancelsThenAwaits)) Anything (start 0) config ∧
      config.state.stackful.mode.outcome = some (.error .operationCanceled) ∧
      config.state.stackless.mode.outcome = some (.ok 7) ∧ ¬ SameOutcome config.state := by
  have ran : ((start 0).run (ofActions (Engines.step cancelsThenAwaits))
      [(0, .resolve 0 (.ok 5)), (0, .advance), (0, .advance), (0, .advance)]).map (fun config =>
        decide (config.state.stackful.mode.outcome = some (.error .operationCanceled) ∧
          config.state.stackless.mode.outcome = some (.ok 7))) = some true := by decide
  obtain ⟨config, reached, holds⟩ := reachable_of_replay _ _ ran
  obtain ⟨stackful, stackless⟩ := of_decide_eq_true holds
  refine ⟨config, reached, stackful, stackless, fun right => ?_⟩
  have same := right.outcome
  rw [stackful, stackless] at same
  cases same

/-- A yield, and a request behind it. -/
def yieldsThenCancels : Code ℕ ℕ ℕ
  | 0 => .yield 1 uncaught
  | 1 => .requestCancel 2
  | _ => .return 7

/-- A stackful coroutine goes on, and a stackless one is destroyed while it runs. -/
theorem late_request_destroys_running : ∃ config : Config (Engines ℕ ℕ ℕ) Unit,
    Reachable (ofActions (Engines.step yieldsThenCancels)) Anything (start 0) config ∧
      config.state.stackful.mode.outcome = some (.ok 7) ∧
      ¬ SameOutcome config.state := by
  have ran : ((start 0).run (ofActions (Engines.step yieldsThenCancels))
      [(0, .advance), (0, .run), (0, .advance), (0, .advance)]).map (fun config =>
        decide (config.state.stackful.mode.outcome = some (.ok 7) ∧
          config.state.stackless.mode.outcome = none)) = some true := by decide
  obtain ⟨config, reached, holds⟩ := reachable_of_replay _ _ ran
  obtain ⟨stackful, stackless⟩ := of_decide_eq_true holds
  refine ⟨config, reached, stackful, fun right => ?_⟩
  have same := right.outcome
  rw [stackful, stackless] at same
  cases same

/-- A request, and a yield in a `try` block that catches `operation_canceled`. -/
def catchesCanceled : Code ℕ ℕ ℕ
  | 0 => .requestCancel 1
  | 1 => .yield 2 (catching .operationCanceled 2)
  | _ => .return 7

/-- A yield in a `try` block that catches everything. -/
def catchesAll : Code ℕ ℕ ℕ
  | 0 => .yield 1 fun _ => some 1
  | _ => .return 7

/-- Where the cancelation itself is caught, a stackful coroutine goes on and a stackless one
does not. -/
theorem caught_cancelation_differs :
    (∃ config : Config (Engines ℕ ℕ ℕ) Unit,
      Reachable (ofActions (Engines.step catchesCanceled)) Anything (start 0) config ∧
        config.state.stackful.mode.outcome = some (.ok 7) ∧
        config.state.stackless.mode.outcome = some (.error .operationCanceled)) ∧
    ∃ config : Config (Engines ℕ ℕ ℕ) Unit,
      Reachable (ofActions (Engines.step catchesAll)) Anything (start 0) config ∧
        config.state.stackful.mode.outcome = some (.ok 7) ∧
        config.state.stackless.mode.outcome = some (.error .operationCanceled) := by
  constructor
  · have ran : ((start 0).run (ofActions (Engines.step catchesCanceled))
        [(0, .advance), (0, .advance), (0, .advance)]).map (fun config =>
          decide (config.state.stackful.mode.outcome = some (.ok 7) ∧
            config.state.stackless.mode.outcome = some (.error .operationCanceled))) =
              some true := by decide
    obtain ⟨config, reached, holds⟩ := reachable_of_replay _ _ ran
    exact ⟨config, reached, of_decide_eq_true holds⟩
  · have ran : ((start 0).run (ofActions (Engines.step catchesAll))
        [(0, .advance), (0, .cancel), (0, .advance)]).map (fun config =>
          decide (config.state.stackful.mode.outcome = some (.ok 7) ∧
            config.state.stackless.mode.outcome = some (.error .operationCanceled))) =
              some true := by decide
    obtain ⟨config, reached, holds⟩ := reachable_of_replay _ _ ran
    exact ⟨config, reached, of_decide_eq_true holds⟩

end Tconcurrent.CoroutineEngines
