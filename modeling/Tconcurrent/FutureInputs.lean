import Tconcurrent.Accounts

/-! Futures that a program is given, and the one that it returns.

Other code resolves the futures that were given, at any time and on any thread, and keeps
continuations and callbacks of its own on them.  It may do all of this wherever user code
is called: in a continuation, in a callback of a token and between two calls. -/
namespace Tconcurrent.FutureInputs
open Interleaving

/-- The shared states and the tokens: those of what is returned, and the given ones. -/
abbrev Name := Option ℕ

/-- A future that was given, with its copy of the token. -/
abbrev Input := Future ℕ ℕ

abbrev InputHeap (K : Type) := Heap Name Name K

abbrev InputCall (K : Type) := Call Name Name K

/-- What other code does next. -/
inductive Choice where
  | return
  /-- A promise is set or broken, or a task ends. -/
  | resolve (p : ℕ) (r : Result Name Name)
  /-- `then`, on the futures it has. -/
  | attach (p : Name)
  | push (t : ℕ)
  | pop (t : ℕ)
  | requestCancel (p : Name)
  deriving DecidableEq

/-- A program on given futures: where user code runs, what it registers on the futures,
what it pushes on the token of the one that it returns, and what it calls itself. -/
structure Program (K : Type) where
  user : K
  continuation : ℕ → K → Prop
  canceler : K
  internal : K → Prop
  user_internal : internal user
  internal_plain : ∀ p k, continuation p k → ¬ internal k
  canceler_plain : ∀ p, ¬ continuation p canceler
  canceler_ne : canceler ≠ user

variable {K : Type}

/-- User code goes on after a step. -/
def Program.proceed (program : Program K) (step : InputHeap K × List (InputCall K)) :
    InputHeap K × List (InputCall K) := (step.1, step.2 ++ [.client program.user])

/-- One step of other code, which has the returned future once it was returned. -/
def Program.others (program : Program K) (returned : Bool) (heap : InputHeap K) :
    Choice → Option (InputHeap K × List (InputCall K))
  | .return => some (heap, [])
  | .resolve p r =>
    if heap.Ready (some p) then none else some (program.proceed (heap.exec (.finish (some p) r)))
  | .attach p =>
    if p = none ∧ returned = false then none
    else some (program.proceed (heap.exec (.thenRun p (.client program.user))))
  | .push t =>
    some (program.proceed (heap.onToken (some t) (·.pushCancelationCallback (.client program.user))))
  | .pop t => some (program.proceed (heap.exec (.popCancelationCallback (some t))))
  | .requestCancel p =>
    if p = none ∧ returned = false then none
    else some (program.proceed (heap.exec (.requestCancel p)))

/-- A promise with a token of its own, on which the program has pushed its canceler. -/
def Program.makePromise (program : Program K) (heap : InputHeap K) : InputHeap K :=
  let made := (heap.setState none { cancelationToken := some none }).setToken none {}
  (made.onToken none (·.pushCancelationCallback (.client program.canceler))).1

/-- The given futures are not resolved yet, each with a token; tokens may be shared. -/
def given (token : ℕ → ℕ) : InputHeap K where
  states
    | some p => { cancelationToken := some (some (token p)) }
    | none => {}

/-! ## What holds of such a heap -/

def Program.wiring (program : Program K) : Wiring Name Name K where
  link _ := none
  outer_plain := by simp
  continuation p k := k = program.user ∨ ∃ q, p = some q ∧ program.continuation q k
  canceler k := k = program.user ∨ k = program.canceler
  internal := program.internal

/-- The calls that are not over within a step. -/
def Expected : InputCall K → Prop
  | .client _ => True
  | .finish p _ => p = none
  | .thenRun p _ => p ≠ none
  | .requestCancel p => p ≠ none
  | _ => False

/-- What other code and the library keep. -/
structure Fine (program : Program K) (heap : InputHeap K) (pending : Multiset (InputCall K)) :
    Prop where
  sound : SoundHeap program.wiring heap
  calls : ∀ call ∈ pending, Sound program.wiring heap call
  expected : ∀ call ∈ pending, Expected call
  drained : heap.Drained
  /-- Only closures of the program are kept on tokens. -/
  cancels : ∀ t, ∀ f ∈ (heap.tokens t).doCancels, ∃ k, f = .client k
  tokens : ∀ p, ¬ heap.Ready (some p) → ∃ t, (heap.states (some p)).cancelationToken = some (some t)
  result : (heap.states none).cancelationToken = some none ∨
    (heap.states none).cancelationToken = none

/-- Cancelation of a state was requested on its token, if it is not resolved. -/
def Requested (heap : InputHeap K) (p : Name) : Prop :=
  heap.Ready p ∨ ∃ t, (heap.states p).cancelationToken = some t ∧
    (heap.tokens t).isCancelRequested = true

/-- It was requested or is about to be. -/
def Asked (heap : InputHeap K) (pending : Multiset (InputCall K)) (p : Name) : Prop :=
  Requested heap p ∨ .requestCancel p ∈ pending

variable {program : Program K} {heap heap' : InputHeap K} {pending others : Multiset (InputCall K)}
  {call : InputCall K} {calls : List (InputCall K)} {account : Account Name K} {k : K} {p : ℕ}
  {returned : Bool} {choice : Choice}

theorem sound_finish (p : Name) (r : Result Name Name) :
    Sound program.wiring heap (.finish p r) := by
  constructor
  · intro outer inner linked
    cases linked
  · intro sb inner linked
    cases linked

theorem sound_internal (own : program.internal k) :
    Sound program.wiring heap (.client k) := Or.inl own

theorem sound_user : Sound program.wiring heap (.client program.user) :=
  sound_internal program.user_internal

/-- What waits on a state is a closure of the program. -/
theorem client_of_registered {p : Name} {f : InputCall K}
    (registered : Registered program.wiring heap p f) : ∃ k, f = .client k := by
  cases f with
  | client k => exact ⟨k, rfl⟩
  | unwrapOuter fut1 sb =>
    obtain ⟨-, inner, linked⟩ := registered
    cases linked
  | unwrapInner fut2 sb token =>
    obtain ⟨-, outer, linked, -⟩ := registered
    cases linked
  | _ => exact registered.elim

/-- A continuation is called when its future is ready. -/
theorem Fine.ready (fine : Fine program heap pending) (member : .client k ∈ pending)
    (foreign : ¬ program.internal k) (canceler : k ≠ program.canceler) :
    ∃ p, program.continuation p k ∧ heap.Ready (some p) := by
  obtain own | pushed | ⟨q, kept, ready⟩ := fine.calls _ member
  · exact absurd own foreign
  · obtain rfl | same := pushed
    · exact absurd program.user_internal foreign
    · exact absurd same canceler
  · obtain rfl | ⟨p, rfl, kept⟩ := kept
    · exact absurd program.user_internal foreign
    · exact ⟨p, kept, ready⟩

/-- Calls that other code or the library makes at once. -/
def Simple : InputCall K → Prop
  | .finish _ _ => True
  | .thenRun _ _ => True
  | .requestCancel _ => True
  | .popCancelationCallback t => t ≠ none
  | _ => False

/-- Where the calls of a simple call come from. -/
theorem Fine.made (fine : Fine program heap pending) (made : InputCall K) (simple : Simple made)
    (member : call ∈ (heap.exec made).2) :
    (call = .client program.user ∨ call = .client program.canceler) ∨
      (∃ p r, made = .finish p r ∧ call ∈ (heap.states p).thens) ∨ ∃ p, made = .thenRun p call := by
  have kept : ∀ t, ∀ f ∈ (heap.tokens t).doCancels,
      f = .client program.user ∨ f = .client program.canceler := by
    intro t f member
    obtain ⟨k, rfl⟩ := fine.cancels t f member
    have canceling : k = program.user ∨ k = program.canceler := fine.sound.cancelers t _ member
    exact canceling.imp (congrArg Call.client) (congrArg Call.client)
  cases made with
  | finish p r => exact Or.inr (Or.inl ⟨p, r, rfl, member⟩)
  | thenRun p f =>
    simp only [Heap.exec, Heap.thenRun] at member
    split at member
    · cases member
    · rw [List.mem_singleton.mp member]
      exact Or.inr (Or.inr ⟨p, rfl⟩)
  | requestCancel p =>
    simp only [Heap.exec, Heap.requestCancel] at member
    split at member
    · rename_i t token
      have top : call ∈ (heap.tokens t).doCancels.head? := by
        simpa [Heap.onToken, CancelationToken.requestCancel] using member
      exact Or.inl (kept t call (List.mem_of_mem_head? top))
    · cases member
  | popCancelationCallback t =>
    simp only [Heap.exec, Heap.onToken, CancelationToken.popCancelationCallback] at member
    split at member
    · have top : call ∈ (heap.tokens t).doCancels.tail.head? := by simpa using member
      exact Or.inl (kept t call (List.mem_of_mem_tail (List.mem_of_mem_head? top)))
    · cases member
  | unwrapOuter fut1 sb => exact simple.elim
  | unwrapInner fut2 sb token => exact simple.elim
  | client k => exact simple.elim

/-- A simple call makes calls of the program only. -/
theorem Fine.makes (fine : Fine program heap pending) (simple : Simple call)
    (respects : Sound program.wiring heap call) :
    ∀ made ∈ (heap.exec call).2, ∃ k, made = .client k := by
  intro made member
  rcases fine.made call simple member with (rfl | rfl) | ⟨p, r, rfl, waits⟩ | ⟨p, rfl⟩
  · exact ⟨_, rfl⟩
  · exact ⟨_, rfl⟩
  · exact client_of_registered (fine.sound.registered p made waits)
  · exact client_of_registered respects

/-- **A simple call** that is made instead of a pending one. -/
theorem Fine.exec (fine : Fine program heap (call ::ₘ others)) {made : InputCall K}
    (simple : Simple made) (respects : Sound program.wiring heap made)
    (once : ∀ p r, made = .finish p r → ¬ heap.Ready p) :
    Fine program (heap.exec made).1 (↑(heap.exec made).2 + others) := by
  have keeps := Heap.keeps_exec once
  have kept := exec_sound fine.sound respects once
  constructor
  · exact kept.1
  · exact mem_after kept.2 fun call' other =>
      (fine.calls call' (Multiset.mem_cons_of_mem other)).keeps keeps
  · refine mem_after (fun call' member => ?_) fun call' other =>
      fine.expected call' (Multiset.mem_cons_of_mem other)
    obtain ⟨k, rfl⟩ := fine.makes simple respects call' member
    trivial
  · exact fine.drained.exec
  · intro t f member
    have step : Heap.TokenStep heap made t ((heap.exec made).1.tokens t) := Heap.exec_tokens
    generalize (heap.exec made).1.tokens t = token at step member
    cases step with
    | same => exact fine.cancels t f member
    | request => exact fine.cancels t f member
    | pop => exact fine.cancels t f (List.mem_of_mem_tail member)
    | push fut1 sb fut2 unwraps =>
      rw [unwraps] at simple
      exact simple.elim
  · intro q unready
    rw [Heap.exec_cancelationToken unready]
    exact fine.tokens q fun ready => unready (Heap.ready_exec ready)
  · cases token : ((heap.exec made).1.states none).cancelationToken with
    | none => exact Or.inr rfl
    | some t =>
      have before := Heap.exec_token_of_some token
      rcases fine.result with same | gone
      · rw [same] at before
        exact Or.inl (by rw [← Option.some.inj before])
      · rw [gone] at before
        cases before

theorem Asked.client (asked : Asked heap (.client k ::ₘ others) (some p)) :
    Asked heap (↑calls + others) (some p) := by
  refine asked.imp_right fun member => ?_
  exact Multiset.mem_add.mpr (Or.inr ((Multiset.mem_cons.mp member).resolve_left (by simp)))

/-- Steps that leave the heap alone. -/
theorem Fine.client (fine : Fine program heap (call ::ₘ others))
    (sound : ∀ call ∈ calls, Sound program.wiring heap call)
    (expected : ∀ call ∈ calls, Expected call) : Fine program heap (↑calls + others) where
  sound := fine.sound
  calls := mem_after sound fun call other => fine.calls call (Multiset.mem_cons_of_mem other)
  expected := mem_after expected fun call other =>
    fine.expected call (Multiset.mem_cons_of_mem other)
  drained := fine.drained
  cancels := fine.cancels
  tokens := fine.tokens
  result := fine.result

/-- The program calls what is its own. -/
theorem Fine.internal (fine : Fine program heap (call ::ₘ others))
    (own : ∀ call ∈ calls, ∃ k, call = .client k ∧ program.internal k) :
    Fine program heap (↑calls + others) := by
  refine fine.client (fun call member => ?_) fun call member => ?_
  · obtain ⟨k, rfl, internal⟩ := own call member
    exact sound_internal internal
  · obtain ⟨k, rfl, -⟩ := own call member
    trivial

/-- User code may be called anywhere. -/
theorem Fine.user (fine : Fine program heap pending) :
    Fine program heap (.client program.user ::ₘ pending) where
  sound := fine.sound
  calls := by
    intro call member
    rcases Multiset.mem_cons.mp member with rfl | old
    · exact sound_user
    · exact fine.calls call old
  expected := by
    intro call member
    rcases Multiset.mem_cons.mp member with rfl | old
    · trivial
    · exact fine.expected call old
  drained := fine.drained
  cancels := fine.cancels
  tokens := fine.tokens
  result := fine.result

/-- A callback of other code is pushed on a token. -/
theorem Fine.push (fine : Fine program heap (call ::ₘ others)) (t : ℕ) :
    Fine program (heap.onToken (some t) (·.pushCancelationCallback (.client program.user))).1
      (↑(heap.onToken (some t) (·.pushCancelationCallback (.client program.user))).2 + others) := by
  have makes : ∀ made ∈ (heap.onToken (some t)
      (·.pushCancelationCallback (.client program.user))).2, made = .client program.user := by
    intro made member
    simp only [Heap.onToken, CancelationToken.pushCancelationCallback] at member
    split at member
    · exact List.mem_singleton.mp member
    · cases member
  constructor
  · apply fine.sound.setToken
    intro f member
    rcases List.mem_cons.mp member with rfl | before
    · exact Or.inl rfl
    · exact fine.sound.cancelers _ f before
  · refine mem_after (fun made member => ?_) fun call' other =>
      (fine.calls call' (Multiset.mem_cons_of_mem other)).keeps (Heap.keeps_of_states rfl)
    rw [makes made member]
    exact sound_user
  · refine mem_after (fun made member => ?_) fun call' other =>
      fine.expected call' (Multiset.mem_cons_of_mem other)
    rw [makes made member]
    trivial
  · exact fine.drained.of_states rfl
  · intro u f member
    by_cases same : u = some t
    · subst same
      simp only [Heap.onToken, Heap.setToken_tokens_self] at member
      rcases List.mem_cons.mp member with rfl | before
      · exact ⟨_, rfl⟩
      · exact fine.cancels _ f before
    · simp only [Heap.onToken, Heap.setToken_tokens_ne _ same] at member
      exact fine.cancels u f member
  · exact fine.tokens
  · exact fine.result

/-! ## What a step leaves as it was -/

/-- What the library calls: user code, continuations and the canceler. -/
def Program.Foreign (program : Program K) (k : K) : Prop :=
  k = program.user ∨ k = program.canceler ∨ ∃ p, program.continuation p k

/-- A step that neither delivers to the program nor decides what it returns. -/
structure Steps (program : Program K) (heap : InputHeap K) (pending : Multiset (InputCall K))
    (heap' : InputHeap K) (pending' : Multiset (InputCall K)) : Prop where
  fine : Fine program heap' pending'
  balance : ∀ account : Account Name K, account.Closed program.wiring →
    account.own program.user = 0 → (∀ p, account.target ≠ some (some p)) →
    account.balance heap' pending' = account.balance heap pending
  requested : ∀ p, Requested heap (some p) → Requested heap' (some p)
  asked : ∀ p, Asked heap pending (some p) → Asked heap' pending' (some p)
  ready : ∀ p, heap.Ready p → heap'.Ready p
  outcome : ∀ r, Outcome heap' pending' none r → Outcome heap pending none r
  stack : (heap'.tokens none).doCancels = (heap.tokens none).doCancels
  token : ¬ heap'.Ready none →
    (heap'.states none).cancelationToken = (heap.states none).cancelationToken
  clients : ∀ k, .client k ∈ pending' → .client k ∈ pending ∨ program.Foreign k

/-- A request is never taken back. -/
theorem Requested.exec (requested : Requested heap (some p)) :
    Requested (heap.exec call).1 (some p) := by
  by_cases after : (heap.exec call).1.Ready (some p)
  · exact Or.inl after
  · rcases requested with ready | ⟨t, has, requested⟩
    · exact absurd (Heap.ready_exec ready) after
    · exact Or.inr ⟨t, (Heap.exec_cancelationToken after).trans has,
        Heap.exec_isCancelRequested requested⟩

/-- A request that is made reaches the token. -/
theorem Fine.requested (fine : Fine program heap pending) (p : ℕ) :
    Requested (heap.exec (.requestCancel (some p))).1 (some p) := by
  by_cases ready : heap.Ready (some p)
  · exact Or.inl (Heap.ready_exec ready)
  · obtain ⟨t, has⟩ := fine.tokens p ready
    refine Or.inr ⟨some t, ?_, ?_⟩
    · rw [Heap.exec, Heap.requestCancel_states, has]
    · simp [Heap.exec, Heap.requestCancel, has, Heap.onToken, CancelationToken.requestCancel]

theorem Fine.steps (fine : Fine program heap (call ::ₘ others)) (made : InputCall K)
    (simple : Simple made) (respects : Sound program.wiring heap made)
    (once : ∀ p r, made = .finish p r → ¬ heap.Ready p) :
    Steps program heap (made ::ₘ others) (heap.exec made).1 (↑(heap.exec made).2 + others) where
  fine := fine.exec simple respects once
  balance account closed _ _ := by
    refine Account.exec_balance closed fine.sound respects once ?_
    rintro k rfl
    exact simple.elim
  requested p requested := requested.exec
  asked p asked := by
    rcases asked with requested | member
    · exact Or.inl requested.exec
    · rcases Multiset.mem_cons.mp member with rfl | other
      · exact Or.inl (fine.requested p)
      · exact Or.inr (Multiset.mem_add.mpr (Or.inr other))
  ready p := Heap.ready_exec
  outcome r outcome := exec_outcome fine.sound respects rfl outcome
  stack := by
    have step : Heap.TokenStep heap made none ((heap.exec made).1.tokens none) := Heap.exec_tokens
    generalize (heap.exec made).1.tokens none = token at step ⊢
    cases step with
    | same => rfl
    | request => rfl
    | pop pops =>
      rw [pops] at simple
      exact absurd rfl simple
    | push fut1 sb fut2 unwraps =>
      rw [unwraps] at simple
      exact simple.elim
  token := Heap.exec_cancelationToken
  clients k member := by
    rcases Multiset.mem_add.mp member with made | other
    · refine Or.inr ?_
      rcases exec_clients fine.sound respects (Multiset.mem_coe.mp made) with pushed | ⟨p, kept⟩
      · exact pushed.elim Or.inl fun same => Or.inr (Or.inl same)
      · exact kept.elim Or.inl fun ⟨q, _, kept⟩ => Or.inr (Or.inr ⟨q, kept⟩)
    · exact Or.inl (Multiset.mem_cons_of_mem other)

/-- **The library's own steps.** -/
theorem Fine.library (fine : Fine program heap (call ::ₘ others)) (library : ∀ k, call ≠ .client k)
    (once : ∀ r, call = .finish none r → ¬ heap.Ready none) :
    Steps program heap (call ::ₘ others) (heap.exec call).1 (↑(heap.exec call).2 + others) := by
  have expected := fine.expected call (Multiset.mem_cons_self _ _)
  have respects := fine.calls call (Multiset.mem_cons_self _ _)
  refine fine.steps call ?_ respects ?_
  · cases call with
    | client k => exact absurd rfl (library k)
    | finish => trivial
    | thenRun => trivial
    | requestCancel => trivial
    | popCancelationCallback => exact expected.elim
    | unwrapOuter => exact expected.elim
    | unwrapInner => exact expected.elim
  · rintro q r rfl
    obtain rfl : q = none := expected
    exact once r rfl

/-- User code goes on after a step. -/
theorem Steps.proceed (steps : Steps program heap pending heap' (↑calls + others)) :
    Steps program heap pending heap'
      (↑(calls ++ [.client program.user] : List (InputCall K)) + others) := by
  have moved : ↑(calls ++ [.client program.user] : List (InputCall K)) + others =
      .client program.user ::ₘ ((calls : Multiset (InputCall K)) + others) := by
    rw [← Multiset.coe_add, add_assoc, add_left_comm, Multiset.coe_singleton,
      Multiset.singleton_add]
  rw [moved]
  refine ⟨steps.fine.user, fun account closed user target => ?_, steps.requested,
    fun p asked => ?_, steps.ready, fun r outcome => ?_, steps.stack, steps.token,
    fun k member => ?_⟩
  · rw [← steps.balance account closed user target]
    simp [Account.balance, Account.owes, user]
  · exact (steps.asked p asked).imp_right Multiset.mem_cons_of_mem
  · refine steps.outcome r ?_
    rcases outcome with member | result
    · exact Or.inl ((Multiset.mem_cons.mp member).resolve_left (by simp))
    · exact Or.inr result
  · rcases Multiset.mem_cons.mp member with same | before
    · cases same
      exact Or.inr (Or.inl rfl)
    · exact steps.clients k before

/-- What user code does at once instead of a call of its own. -/
theorem Steps.user {made : InputCall K} (steps : Steps program heap (made ::ₘ others) heap' pending)
    (quiet : ∀ account : Account Name K, account.own program.user = 0 →
      (∀ p, account.target ≠ some (some p)) → account.owes made = 0)
    (given : ∀ r, made ≠ .finish none r) (library : ∀ k, made ≠ .client k) :
    Steps program heap (.client program.user ::ₘ others) heap' pending := by
  refine ⟨steps.fine, fun account closed user target => ?_, steps.requested,
    fun p asked => steps.asked p ?_, steps.ready, fun r outcome => ?_, steps.stack, steps.token,
    fun k member => ?_⟩
  · rw [steps.balance account closed user target]
    simp [Account.balance, Account.owes, user, quiet account user target]
  · refine asked.imp_right fun member => Multiset.mem_cons_of_mem ?_
    exact (Multiset.mem_cons.mp member).resolve_left (by simp)
  · rcases steps.outcome r outcome with member | result
    · have other := (Multiset.mem_cons.mp member).resolve_left (given r).symm
      exact Or.inl (Multiset.mem_cons_of_mem other)
    · exact Or.inr result
  · refine (steps.clients k member).imp_left fun before => Multiset.mem_cons_of_mem ?_
    exact (Multiset.mem_cons.mp before).resolve_left (library k).symm

/-- **What other code does.** -/
theorem Fine.others_step (fine : Fine program heap (.client program.user ::ₘ others))
    (ran : program.others returned heap choice = some (heap', calls)) :
    Steps program heap (.client program.user ::ₘ others) heap' (↑calls + others) := by
  have registered (q : Name) : Registered program.wiring heap q (.client program.user) := Or.inl rfl
  cases choice with
  | «return» =>
    cases ran
    refine ⟨fine.client (by simp) (by simp), fun account _ user _ => ?_, fun _ => id,
      fun p asked => ?_, fun _ => id, fun r outcome => ?_, rfl, fun _ => rfl, fun k member => ?_⟩
    · simp [Account.balance, Account.owes, user]
    · simpa [Asked] using asked
    · simpa [Outcome] using outcome
    · exact Or.inl (Multiset.mem_cons_of_mem (by simpa using member))
  | resolve p r =>
    simp only [Program.others] at ran
    split at ran
    · cases ran
    · rename_i unready
      cases ran
      refine ((fine.steps (.finish (some p) r) trivial (sound_finish _ r) ?_).user (fun account _ target => ?_) ?_
        ?_).proceed
      · rintro q r' same
        cases same
        exact unready
      · exact if_neg (target p)
      · simp
      · simp
  | attach p =>
    simp only [Program.others] at ran
    split at ran
    · cases ran
    · cases ran
      exact ((fine.steps (.thenRun p (.client program.user)) trivial (registered p)
        (by simp)).user (fun _ user _ => user) (by simp) (by simp)).proceed
  | push t =>
    cases ran
    have kept : ∀ p, Requested heap (some p) → Requested (heap.onToken (some t)
        (·.pushCancelationCallback (.client program.user))).1 (some p) := by
      rintro p (ready | ⟨u, has, requested⟩)
      · exact Or.inl ready
      · refine Or.inr ⟨u, has, ?_⟩
        by_cases same : u = some t
        · subst same
          simpa [Heap.onToken, CancelationToken.pushCancelationCallback] using requested
        · rwa [Heap.onToken, Heap.setToken_tokens_ne _ same]
    refine Steps.proceed ⟨fine.push t, fun account _ user _ => ?_, kept, fun p asked => ?_,
      fun _ => id, fun r outcome => ?_, ?_, fun _ => rfl, fun k member => ?_⟩
    · simp only [Heap.onToken, CancelationToken.pushCancelationCallback]
      split <;> simp [Account.balance, Account.owes, user, Account.waiting, Account.settled]
    · refine asked.imp (kept p) fun member => Multiset.mem_add.mpr (Or.inr ?_)
      exact (Multiset.mem_cons.mp member).resolve_left (by simp)
    · rcases outcome with member | result
      · rcases Multiset.mem_add.mp member with made | other
        · simp only [Heap.onToken, CancelationToken.pushCancelationCallback] at made
          split at made
          · cases List.mem_singleton.mp (Multiset.mem_coe.mp made)
          · cases made
        · exact Or.inl (Multiset.mem_cons_of_mem other)
      · exact Or.inr result
    · rw [Heap.onToken, Heap.setToken_tokens_ne _ (by simp)]
    · rcases Multiset.mem_add.mp member with made | other
      · simp only [Heap.onToken, CancelationToken.pushCancelationCallback] at made
        split at made
        · cases List.mem_singleton.mp (Multiset.mem_coe.mp made)
          exact Or.inr (Or.inl rfl)
        · cases made
      · exact Or.inl (Multiset.mem_cons_of_mem other)
  | pop t =>
    cases ran
    exact ((fine.steps (.popCancelationCallback (some t)) (by simp [Simple]) trivial
      (by simp)).user (fun _ _ _ => rfl) (by simp) (by simp)).proceed
  | requestCancel p =>
    simp only [Program.others] at ran
    split at ran
    · cases ran
    · cases ran
      exact ((fine.steps (.requestCancel p) trivial trivial (by simp)).user (fun _ _ _ => rfl)
        (by simp) (by simp)).proceed

/-! ## What is called and what becomes ready -/

/-- Where the calls of other code come from. -/
theorem Fine.others_made (fine : Fine program heap pending)
    (ran : program.others returned heap choice = some (heap', calls)) (member : call ∈ calls) :
    (call = .client program.user ∨ call = .client program.canceler) ∨
      ∃ p r, choice = .resolve p r ∧ call ∈ (heap.states (some p)).thens := by
  have proceeds {made : List (InputCall K)} (member : call ∈ made ++ [.client program.user]) :
      call ∈ made ∨ call = .client program.user :=
    (List.mem_append.mp member).imp_right List.mem_singleton.mp
  cases choice with
  | «return» =>
    cases ran
    cases member
  | resolve p r =>
    simp only [Program.others] at ran
    split at ran
    · cases ran
    · cases ran
      rcases proceeds member with called | rfl
      · exact Or.inr ⟨p, r, rfl, called⟩
      · exact Or.inl (Or.inl rfl)
  | attach p =>
    simp only [Program.others] at ran
    split at ran
    · cases ran
    · cases ran
      rcases proceeds member with called | rfl
      · rcases fine.made (.thenRun p (.client program.user)) trivial called with
          known | ⟨q, r, same, -⟩ | ⟨q, same⟩
        · exact Or.inl known
        · cases same
        · cases same
          exact Or.inl (Or.inl rfl)
      · exact Or.inl (Or.inl rfl)
  | push t =>
    cases ran
    rcases proceeds member with called | rfl
    · simp only [Heap.onToken, CancelationToken.pushCancelationCallback] at called
      split at called
      · exact Or.inl (Or.inl (List.mem_singleton.mp called))
      · cases called
    · exact Or.inl (Or.inl rfl)
  | pop t =>
    cases ran
    have simple : Simple (.popCancelationCallback (some t) : InputCall K) := by simp [Simple]
    rcases proceeds member with called | rfl
    · rcases fine.made _ simple called with known | ⟨q, r, same, -⟩ | ⟨q, same⟩
      · exact Or.inl known
      · cases same
      · cases same
    · exact Or.inl (Or.inl rfl)
  | requestCancel p =>
    simp only [Program.others] at ran
    split at ran
    · cases ran
    · cases ran
      rcases proceeds member with called | rfl
      · rcases fine.made (.requestCancel p) trivial called with
          known | ⟨q, r, same, -⟩ | ⟨q, same⟩
        · exact Or.inl known
        · cases same
        · cases same
      · exact Or.inl (Or.inl rfl)

theorem ready_of_exec {q : Name} (call : InputCall K) (ready : (heap.exec call).1.Ready q) :
    heap.Ready q ∨ ∃ r, call = .finish q r := by
  obtain ⟨r, result⟩ := Option.ne_none_iff_exists'.mp ready
  rcases exec_result result with same | before
  · exact Or.inr ⟨r, same⟩
  · exact Or.inl (Heap.ready_of_result before)

/-- Other code makes ready what it resolves. -/
theorem ready_of_others {q : Name}
    (ran : program.others returned heap choice = some (heap', calls)) (ready : heap'.Ready q) :
    heap.Ready q ∨ ∃ p r, q = some p ∧ choice = .resolve p r := by
  cases choice with
  | «return» =>
    cases ran
    exact Or.inl ready
  | resolve p r =>
    simp only [Program.others] at ran
    split at ran
    · cases ran
    · cases ran
      rcases ready_of_exec (.finish (some p) r) ready with before | ⟨r', same⟩
      · exact Or.inl before
      · cases same
        exact Or.inr ⟨p, r, rfl, rfl⟩
  | attach p =>
    simp only [Program.others] at ran
    split at ran
    · cases ran
    · cases ran
      rcases ready_of_exec (.thenRun p (.client program.user)) ready with before | ⟨r, same⟩
      · exact Or.inl before
      · cases same
  | push t =>
    cases ran
    exact Or.inl ready
  | pop t =>
    cases ran
    exact Or.inl ready
  | requestCancel p =>
    simp only [Program.others] at ran
    split at ran
    · cases ran
    · cases ran
      rcases ready_of_exec (.requestCancel p) ready with before | ⟨r, same⟩
      · exact Or.inl before
      · cases same

/-! ## Accounts -/

/-- What a program counts that waits on none of the given futures. -/
def counting (target : Option Name) (own : K → ℕ) : Account Name K := ⟨target, own, ∅⟩

@[simp] theorem counting_target (target : Option Name) (own : K → ℕ) :
    (counting target own).target = target := rfl

@[simp] theorem counting_own (target : Option Name) (own : K → ℕ) (k : K) :
    (counting target own).own k = own k := rfl

theorem closed_of_homes (user : account.own program.user = 0)
    (canceler : account.own program.canceler = 0)
    (homes : ∀ q k, program.continuation q k → account.own k ≠ 0 → some q ∈ account.homes) :
    account.Closed program.wiring where
  registered := by
    rintro p k (rfl | ⟨q, rfl, kept⟩) counted
    · exact absurd user counted
    · exact homes q k kept counted
  linked _ _ _ _ linked := by cases linked
  cancelers := by
    rintro k (rfl | rfl)
    · exact user
    · exact canceler

/-- Of the callbacks only those of one place in the list are counted. -/
theorem closed_place {inputs : List Input} {index : ℕ} (user : account.own program.user = 0)
    (canceler : account.own program.canceler = 0)
    (homes : account.homes = (inputs[index]?).elim ∅ fun fut : Input => {some fut.p})
    (place : ∀ q k, program.continuation q k → ∃ (i : ℕ) (fut : Input),
      account.own k = (decide (i = index)).toNat ∧ inputs[i]? = some fut ∧ fut.p = q) :
    account.Closed program.wiring := by
  refine closed_of_homes user canceler fun q k kept counted => ?_
  obtain ⟨i, fut, own, listed, rfl⟩ := place q k kept
  obtain rfl : i = index := by
    by_contra other
    rw [own, decide_eq_false other] at counted
    exact counted rfl
  rw [homes, listed]
  exact Finset.mem_singleton_self _

theorem closed_counting {target : Option Name} {own : K → ℕ} (user : own program.user = 0)
    (canceler : own program.canceler = 0)
    (plain : ∀ p k, program.continuation p k → own k = 0) :
    (counting target own).Closed program.wiring :=
  closed_of_homes user canceler fun q k kept counted => absurd (plain q k kept) counted

theorem balance_counting (own : K → ℕ) (heap : InputHeap K) (pending : Multiset (InputCall K)) :
    (counting none own).balance heap pending = weight (counting none own).owes pending := by
  simp [Account.balance, counting, Account.settled]

/-- What a step that leaves the heap alone does to an account. -/
theorem balance_moved (account : Account Name K) (heap : InputHeap K) (k : K)
    (calls : List (InputCall K)) (others : Multiset (InputCall K)) :
    account.balance heap (↑calls + others) + account.own k =
      account.balance heap (.client k ::ₘ others) +
        weight account.owes (calls : Multiset (InputCall K)) :=
  Account.balance_client account k calls others (fun _ => rfl) (fun _ => rfl)

theorem own_le_balance (account : Account Name K) (heap : InputHeap K) (k : K)
    (others : Multiset (InputCall K)) :
    account.own k ≤ account.balance heap (.client k ::ₘ others) := by
  have counted : account.owes (.client k : InputCall K) ≤
      account.balance heap (.client k ::ₘ others) :=
    Account.owes_le_balance (Multiset.mem_cons_self _ others)
  exact counted

/-- Calls of the program weigh what they count. -/
theorem owes_le_owes {account account' : Account Name K} (target : account.target = none)
    (own : ∀ k, account.own k ≤ account'.own k) (call : InputCall K) :
    account.owes call ≤ account'.owes call := by
  induction call with
  | thenRun p f ih => exact ih
  | client k => exact own k
  | finish => simp [Account.owes, target]
  | unwrapOuter => simp [Account.owes, target]
  | unwrapInner => simp [Account.owes, target]
  | requestCancel => exact le_rfl
  | popCancelationCallback => exact le_rfl

/-! ## Requests -/

/-- Nobody has requested cancelation, and nobody is about to. -/
structure Unasked (program : Program K) (heap : InputHeap K) (pending : Multiset (InputCall K)) :
    Prop where
  tokens : ∀ t, (heap.tokens t).isCancelRequested = false
  calls : ∀ call ∈ pending, (∀ p, call ≠ .requestCancel p) ∧ call ≠ .client program.canceler

/-- What waits on a state is not a canceler. -/
theorem plain_of_registered {p : Name} {f : InputCall K}
    (registered : Registered program.wiring heap p f) :
    (∀ p, f ≠ .requestCancel p) ∧ f ≠ .client program.canceler := by
  obtain ⟨k, rfl⟩ := client_of_registered registered
  refine ⟨by simp, fun same => ?_⟩
  obtain rfl : k = program.canceler := by simpa using same
  obtain user | ⟨q, -, kept⟩ := registered
  · exact program.canceler_ne user
  · exact program.canceler_plain q kept

theorem Unasked.after (unasked : Unasked program heap (call ::ₘ others))
    (same : ∀ t, (heap'.tokens t).isCancelRequested = (heap.tokens t).isCancelRequested)
    (plain : ∀ call ∈ calls, (∀ p, call ≠ .requestCancel p) ∧ call ≠ .client program.canceler) :
    Unasked program heap' (↑calls + others) :=
  ⟨fun t => (same t).trans (unasked.tokens t),
    mem_after plain fun call other => unasked.calls call (Multiset.mem_cons_of_mem other)⟩

theorem Unasked.exec (unasked : Unasked program heap (call ::ₘ others))
    (fine : Fine program heap (call ::ₘ others)) (made : InputCall K) (simple : Simple made)
    (respects : Sound program.wiring heap made) (other : ∀ p, made ≠ .requestCancel p) :
    Unasked program (heap.exec made).1 (↑(heap.exec made).2 + others) := by
  cases made with
  | finish p r =>
    exact unasked.after (fun _ => rfl) fun f member =>
      plain_of_registered (fine.sound.registered p f member)
  | thenRun p f =>
    refine unasked.after (fun t => ?_) fun g member => ?_
    · simp only [Heap.exec, Heap.thenRun]
      split <;> rfl
    · simp only [Heap.exec, Heap.thenRun] at member
      split at member
      · cases member
      · rw [List.mem_singleton.mp member]
        exact plain_of_registered respects
  | requestCancel p => exact absurd rfl (other p)
  | popCancelationCallback t =>
    refine unasked.after (fun u => ?_) fun f member => ?_
    · by_cases same : u = t
      · subst same
        simp [Heap.exec, Heap.onToken, CancelationToken.popCancelationCallback]
      · simp only [Heap.exec, Heap.onToken, Heap.setToken_tokens_ne _ same]
    · simp [Heap.exec, Heap.onToken, CancelationToken.popCancelationCallback,
        unasked.tokens t] at member
  | unwrapOuter fut1 sb => exact simple.elim
  | unwrapInner fut2 sb token => exact simple.elim
  | client k => exact simple.elim

/-- User code goes on after a step. -/
theorem Unasked.proceed (unasked : Unasked program heap (↑calls + others)) :
    Unasked program heap (↑(calls ++ [.client program.user] : List (InputCall K)) + others) := by
  refine ⟨unasked.tokens, fun call member => ?_⟩
  rcases Multiset.mem_add.mp member with made | other
  · rcases List.mem_append.mp (Multiset.mem_coe.mp made) with before | last
    · exact unasked.calls call (Multiset.mem_add.mpr (Or.inl (Multiset.mem_coe.mpr before)))
    · rw [List.mem_singleton.mp last]
      exact ⟨by simp, fun same => program.canceler_ne (by simpa using same.symm)⟩
  · exact unasked.calls call (Multiset.mem_add.mpr (Or.inr other))

/-- Other code that does not ask for cancelation causes no request. -/
theorem Unasked.others_step (unasked : Unasked program heap (.client program.user ::ₘ others))
    (fine : Fine program heap (.client program.user ::ₘ others))
    (ran : program.others returned heap choice = some (heap', calls))
    (other : ∀ p, choice ≠ .requestCancel p) : Unasked program heap' (↑calls + others) := by
  cases choice with
  | «return» =>
    cases ran
    exact unasked.after (fun _ => rfl) (by simp)
  | resolve p r =>
    simp only [Program.others] at ran
    split at ran
    · cases ran
    · cases ran
      exact (unasked.exec fine (.finish (some p) r) trivial (sound_finish (some p) r) (by simp)).proceed
  | attach p =>
    simp only [Program.others] at ran
    split at ran
    · cases ran
    · cases ran
      have registered : Registered program.wiring heap p (.client program.user) := Or.inl rfl
      have respects : Sound program.wiring heap (.thenRun p (.client program.user)) := registered
      exact (unasked.exec fine (.thenRun p (.client program.user)) trivial respects (by simp)).proceed
  | push t =>
    cases ran
    refine Unasked.proceed (unasked.after (fun u => ?_) fun f member => ?_)
    · by_cases same : u = some t
      · subst same
        simp [Heap.onToken, CancelationToken.pushCancelationCallback]
      · simp only [Heap.onToken, Heap.setToken_tokens_ne _ same]
    · simp [Heap.onToken, CancelationToken.pushCancelationCallback, unasked.tokens] at member
  | pop t =>
    cases ran
    have simple : Simple (.popCancelationCallback (some t) : InputCall K) := by simp [Simple]
    exact (unasked.exec fine _ simple trivial (by simp)).proceed
  | requestCancel p => exact absurd rfl (other p)

/-! ## The promise -/

/-- Before the future is returned its state is the program's business. -/
theorem others_result (ran : program.others returned heap choice = some (heap', calls))
    (before : returned = false) : heap'.states none = heap.states none := by
  cases choice with
  | «return» =>
    cases ran
    rfl
  | resolve p r =>
    simp only [Program.others] at ran
    split at ran
    · cases ran
    · cases ran
      exact Heap.setState_states_ne _ (by simp)
  | attach p =>
    simp only [Program.others, before, and_true] at ran
    split at ran
    · cases ran
    · rename_i other
      cases ran
      simp only [Heap.exec, Heap.thenRun]
      split
      · exact Heap.setState_states_ne _ (Ne.symm other)
      · rfl
  | push t =>
    cases ran
    rfl
  | pop t =>
    cases ran
    rfl
  | requestCancel p =>
    simp only [Program.others] at ran
    split at ran
    · cases ran
    · cases ran
      simp only [Heap.exec]
      rw [Heap.requestCancel_states]

/-- So it is while the library registers closures and asks for cancelation. -/
theorem Fine.library_result (fine : Fine program heap (call ::ₘ others))
    (library : ∀ k, call ≠ .client k) (undecided : ∀ r, call ≠ .finish none r) :
    (heap.exec call).1.states none = heap.states none := by
  have expected := fine.expected call (Multiset.mem_cons_self _ _)
  cases call with
  | client k => exact absurd rfl (library k)
  | finish q r =>
    obtain rfl : q = none := expected
    exact absurd rfl (undecided r)
  | thenRun q f =>
    simp only [Heap.exec, Heap.thenRun]
    split
    · exact Heap.setState_states_ne _ (Ne.symm expected)
    · rfl
  | requestCancel q =>
    simp only [Heap.exec]
    rw [Heap.requestCancel_states]
  | popCancelationCallback => exact expected.elim
  | unwrapOuter => exact expected.elim
  | unwrapInner => exact expected.elim

/-- A request on the returned future calls the canceler. -/
theorem others_requestCancel
    (ran : program.others returned heap (.requestCancel none) = some (heap', calls))
    (token : (heap.states none).cancelationToken = some none)
    (stack : (heap.tokens none).doCancels = [.client program.canceler]) :
    .client program.canceler ∈ calls := by
  simp only [Program.others] at ran
  split at ran
  · cases ran
  · cases ran
    simp [Heap.exec, Heap.requestCancel, token, Heap.onToken,
      CancelationToken.requestCancel, stack]

theorem makePromise_states (q : Name) (other : q ≠ none) :
    (program.makePromise heap).states q = heap.states q := Heap.setState_states_ne _ other

theorem makePromise_result :
    (program.makePromise heap).states none = { cancelationToken := some none } := by
  simp [Program.makePromise, Heap.onToken]

theorem makePromise_stack :
    ((program.makePromise heap).tokens none).doCancels = [.client program.canceler] := by
  simp [Program.makePromise, Heap.onToken, CancelationToken.pushCancelationCallback]

theorem makePromise_tokens (t : ℕ) :
    (program.makePromise heap).tokens (some t) = heap.tokens (some t) := by
  simp only [Program.makePromise, Heap.onToken]
  rw [Heap.setToken_tokens_ne _ (by simp), Heap.setToken_tokens_ne _ (by simp),
    Heap.setState_tokens]

theorem keeps_makePromise (blank : heap.states none = {}) :
    heap.Keeps (program.makePromise heap) := by
  intro q r held
  by_cases same : q = none
  · subst same
    rw [blank] at held
    cases held
  · rwa [makePromise_states q same]

theorem balance_makePromise (blank : heap.states none = {}) (account : Account Name K) :
    account.balance (program.makePromise heap) pending = account.balance heap pending := by
  have made : account.balance (heap.setState none { cancelationToken := some none }) pending = _ :=
    Account.balance_setState (by rw [blank]) (by rw [blank]) rfl
  simp only [Option.isSome_none, Bool.toNat_false, ite_self, add_zero] at made
  rw [← made]
  rfl

/-- The promise is made by the program. -/
theorem Fine.makePromise (fine : Fine program heap (call ::ₘ others))
    (blank : heap.states none = {})
    (sound : ∀ call ∈ calls, Sound program.wiring heap call)
    (expected : ∀ call ∈ calls, Expected call) :
    Fine program (program.makePromise heap) (↑calls + others) := by
  have keeps : heap.Keeps (program.makePromise heap) := keeps_makePromise blank
  have kept := fine.client sound expected
  constructor
  · apply SoundHeap.setToken
    · apply SoundHeap.setToken
      · refine kept.sound.setState ?_ (fun r result => ?_) (by simp)
        · rw [Heap.not_ready, blank]
        · cases result
      · simp
    · intro f member
      obtain rfl : f = .client program.canceler := by
        simpa [Heap.onToken, CancelationToken.pushCancelationCallback] using member
      exact Or.inr rfl
  · exact fun call' member => (kept.calls call' member).keeps keeps
  · exact kept.expected
  · intro q ready
    by_cases same : q = none
    · subst same
      rw [makePromise_result]
    · rw [makePromise_states q same]
      rw [Heap.Ready, makePromise_states q same] at ready
      exact kept.drained q ready
  · intro t f member
    cases t with
    | none =>
      rw [makePromise_stack] at member
      exact ⟨_, List.mem_singleton.mp member⟩
    | some t =>
      rw [makePromise_tokens] at member
      exact kept.cancels _ f member
  · intro p unready
    rw [makePromise_states _ (by simp)]
    rw [Heap.Ready, makePromise_states _ (by simp)] at unready
    exact kept.tokens p unready
  · rw [makePromise_result]
    exact Or.inl rfl

/-- What was asked for is not lost when the promise is made. -/
theorem Fine.requested_makePromise (fine : Fine program heap pending)
    (requested : Requested heap (some p)) : Requested (program.makePromise heap) (some p) := by
  have state : (program.makePromise heap).states (some p) = heap.states (some p) :=
    makePromise_states _ (by simp)
  by_cases ready : heap.Ready (some p)
  · exact Or.inl (by rwa [Heap.Ready, state])
  · obtain ⟨t, has, requested⟩ := requested.resolve_left ready
    obtain ⟨u, given⟩ := fine.tokens p ready
    obtain rfl : t = some u := Option.some.inj (has.symm.trans given)
    exact Or.inr ⟨some u, by rw [state, has], by rw [makePromise_tokens, requested]⟩

theorem Unasked.makePromise (unasked : Unasked program heap (call ::ₘ others))
    (plain : ∀ call ∈ calls, (∀ p, call ≠ .requestCancel p) ∧ call ≠ .client program.canceler) :
    Unasked program (program.makePromise heap) (↑calls + others) := by
  refine ⟨fun t => ?_, mem_after plain fun call other =>
    unasked.calls call (Multiset.mem_cons_of_mem other)⟩
  cases t with
  | none => simp [Program.makePromise, Heap.onToken, CancelationToken.pushCancelationCallback]
  | some t =>
    rw [makePromise_tokens]
    exact unasked.tokens _

/-- The given futures are not resolved, and nothing is registered on them. -/
theorem fine_given (token : ℕ → ℕ) (sound : ∀ call ∈ pending, Sound program.wiring (given token) call)
    (expected : ∀ call ∈ pending, Expected call) : Fine program (given token) pending where
  sound := by
    refine ⟨?_, ?_, ?_⟩
    · rintro (_ | p) r result <;> cases result
    · rintro (_ | p) f member <;> cases member
    · intro t f member
      cases member
  calls := sound
  expected := expected
  drained := by rintro (_ | p) ready <;> rfl
  cancels t f member := by cases member
  tokens p _ := ⟨token p, rfl⟩
  result := Or.inr rfl

/-- Nothing has been delivered, and nothing waits. -/
theorem balance_given (account : Account Name K) (token : ℕ → ℕ) :
    account.balance (given token) pending = weight account.owes pending := by
  have unsettled : account.settled (given token) = 0 := by
    unfold Account.settled
    cases account.target with
    | none => rfl
    | some p => cases p <;> rfl
  have waits : ∑ p ∈ account.homes, account.waiting (given token) p = 0 :=
    Finset.sum_eq_zero fun p _ => by cases p <;> rfl
  rw [Account.balance, unsettled, waits, add_zero, add_zero]

/-- The agendas when one thread has a call to make, and all run user code. -/
theorem pending_begin {σ : Type} (state : σ) (user call : InputCall K) (threads : ℕ) :
    Config.pending ⟨state, [user, call, user] :: List.replicate threads [user]⟩ =
      call ::ₘ Multiset.replicate (threads + 2) user := by
  rw [Config.pending, List.flatten_cons, List.flatten_replicate_singleton, ← Multiset.coe_add,
    Multiset.coe_replicate, Multiset.replicate_succ, Multiset.replicate_succ, Multiset.cons_swap]
  rfl

/-- User code is not counted. -/
theorem weight_begin (account : Account Name K) {user : InputCall K} (quiet : account.owes user = 0)
    (call : InputCall K) (count : ℕ) :
    weight account.owes (call ::ₘ Multiset.replicate count user) = account.owes call := by
  simp [weight, quiet]

end Tconcurrent.FutureInputs
