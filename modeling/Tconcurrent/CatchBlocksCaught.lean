import Mathlib.Logic.Relation
import Tconcurrent.CatchBlocks
import Tconcurrent.FutureProofs

/-! What a thread still has to do within a catch block.

All of it follows, over continuations, triggers and cancelers, from what the block has
set going.  This holds whatever other threads do meanwhile, as futures are never taken
apart and nothing is done twice. -/
namespace Tconcurrent.CatchBlocks
open Interleaving

variable {s s' : State} {thread p q t c : ℕ} {call f : CatchCall} {calls rest : List CatchCall}
variable {made made' : List Made} {spent : ℕ → Bool} {signal onward : Signal}

/-! ## What follows from a signal -/

/-- The closures that wait for a future. -/
inductive Belongs (made : List Made) (p : ℕ) : CatchCall → Prop where
  | task {q t : ℕ} : made[q]? = some ⟨.then p true, t⟩ → Belongs made p (.client (.task q))
  | whenAny {w index t : ℕ} {futures : List ℕ} {autoCancel : Bool} :
      made[w]? = some ⟨.whenAny futures autoCancel, t⟩ → futures[index]? = some p →
      Belongs made p (.client (.whenAny w index))
  | post (work : Work) : Belongs made p (.client (.post work))

/-- The canceler on a token. -/
inductive Cancels (made : List Made) (t : ℕ) : CatchCall → Prop where
  | task : made[t]? = some ⟨.async, t⟩ → Cancels made t (.client (.cancelTask t))
  | coroutine : made[t]? = some ⟨.coroutine, t⟩ → Cancels made t (.client (.cancelCoroutine t))
  | whenAny {futures : List ℕ} {autoCancel : Bool} :
      made[t]? = some ⟨.whenAny futures autoCancel, t⟩ → Cancels made t (.client (.cancelAny t))

theorem get_append {m : Made} (held : made[q]? = some m) (more : List Made) :
    (made ++ more)[q]? = some m := by
  rw [List.getElem?_append_left (List.getElem?_eq_some_iff.mp held).1, held]

theorem Belongs.append (belongs : Belongs made p f) (more : List Made) :
    Belongs (made ++ more) p f := by
  cases belongs with
  | task held => exact .task (get_append held more)
  | whenAny held listed => exact .whenAny (get_append held more) listed
  | post work => exact .post work

theorem Cancels.append (cancels : Cancels made t f) (more : List Made) :
    Cancels (made ++ more) t f := by
  cases cancels with
  | task held => exact .task (get_append held more)
  | coroutine held => exact .coroutine (get_append held more)
  | whenAny held => exact .whenAny (get_append held more)

/-- What follows still follows when more futures are made. -/
theorem leads_append (follows : onward ∈ leads made spent signal) (more : List Made) :
    onward ∈ leads (made ++ more) spent signal := by
  cases signal with
  | resolved p =>
    simp only [leads, List.mem_flatMap] at follows ⊢
    obtain ⟨⟨m, q⟩, listed, follows⟩ := follows
    refine ⟨(m, q), ?_, follows⟩
    rw [List.mk_mem_zipIdx_iff_getElem?] at listed ⊢
    exact get_append listed more
  | requested p =>
    simp only [leads] at follows ⊢
    split at follows
    · rename_i m held
      rw [get_append held more]
      rcases List.mem_cons.mp follows with rfl | follows
      · exact List.mem_cons_self
      · apply List.mem_cons_of_mem
        unfold cancels at follows ⊢
        cases known : made[m.token]? with
        | none => simp [known] at follows
        | some origin => simpa [known, get_append known more] using follows
    · cases follows

theorem Downstream.append (downstream : Downstream made spent signal onward) (more : List Made) :
    Downstream (made ++ more) spent signal onward :=
  Relation.ReflTransGen.mono (fun _ _ follows => leads_append follows more) _ _ downstream

/-- What a future's continuations do follows from its being resolved. -/
theorem Belongs.leads (belongs : Belongs s.made p f)
    (before : ∀ q, spent q = true → s.done q = true) (does : signal ∈ signals s f) :
    signal ∈ CatchBlocks.leads s.made spent (.resolved p) := by
  have through (q : ℕ) (m : Made) (held : s.made[q]? = some m) (waits : s.done q = false)
      (follows : signal ∈ m.follows p q) : signal ∈ CatchBlocks.leads s.made spent (.resolved p) := by
    refine List.mem_flatMap.mpr ⟨(m, q), List.mk_mem_zipIdx_iff_getElem?.mpr held, ?_⟩
    cases early : spent q with
    | false => simpa [early] using follows
    | true => simp [before q early] at waits
  cases belongs with
  | @task q t held =>
    simp only [signals] at does
    split at does
    · cases does
    · rename_i waiting
      exact through q _ held (by simpa using waiting) (by simpa [Made.follows] using does)
  | @whenAny w index t futures autoCancel held listed =>
    simp only [signals, held, Option.map_some] at does
    split at does
    · cases does
    · rename_i waiting
      refine through w _ held (by simpa using waiting) ?_
      simp only [Made.follows, List.mem_flatMap]
      exact ⟨(p, index), List.mk_mem_zipIdx_iff_getElem?.mpr listed, by simpa using does⟩
  | post work => simp [signals] at does

/-- What the canceler on a future's token does follows from the request. -/
theorem Cancels.leads {m : Made} (cancels : Cancels s.made m.token f)
    (held : s.made[p]? = some m) (before : ∀ q, spent q = true → s.done q = true)
    (does : signal ∈ signals s f) : signal ∈ CatchBlocks.leads s.made spent (.requested p) := by
  simp only [CatchBlocks.leads, held]
  generalize m.token = t at cancels
  cases cancels with
  | task origin =>
    simp only [signals] at does
    apply List.mem_cons_of_mem
    split at does
    · cases does
    · rename_i waiting
      cases early : spent t with
      | false => simpa [CatchBlocks.cancels, origin, early] using does
      | true => exact absurd (before t early) waiting
  | coroutine origin =>
    rw [signals, List.mem_singleton] at does
    rw [does]
    exact List.mem_cons_self
  | whenAny origin =>
    apply List.mem_cons_of_mem
    simpa [signals, CatchBlocks.cancels, origin] using does

/-! ## What a step keeps -/

/-- Futures are made, and things get done. -/
structure Grows (s s' : State) : Prop where
  made : ∃ more, s'.made = s.made ++ more
  done : ∀ q, s.done q = true → s'.done q = true

theorem Grows.refl : Grows s s := ⟨⟨[], by simp⟩, fun _ done => done⟩

theorem Grows.of_same (made : s'.made = s.made) (done : s'.done = s.done) : Grows s s' :=
  ⟨⟨[], by simp [made]⟩, by simp [done]⟩

theorem grows_setDone : Grows s (s.setDone q) := by
  refine ⟨⟨[], by simp [State.setDone]⟩, fun q' done => ?_⟩
  by_cases same : q' = q
  · subst same
    simp [State.setDone]
  · simpa [State.setDone, Function.update_of_ne same] using done

/-- The calls that can be made in a catch block. -/
def Inside (made : List Made) : CatchCall → Prop
  | .finish _ _ | .requestCancel _ | .popCancelationCallback _ => True
  | .thenRun _ f => Inside made f
  | .client (.task _) | .client (.function _) | .client (.cancelTask _) | .client (.post _) => True
  | .client (.whenAny w _) | .client (.cancelAny w) => w < made.length
  | .client (.cancelCoroutine c) => made[c]? = some ⟨.coroutine, c⟩
  | _ => False

theorem Inside.append (inside : Inside made f) (more : List Made) : Inside (made ++ more) f := by
  induction f with
  | thenRun p f ih => exact ih inside
  | client k =>
    cases k with
    | whenAny w index => exact Nat.lt_of_lt_of_le inside (by simp)
    | cancelAny w => exact Nat.lt_of_lt_of_le inside (by simp)
    | cancelCoroutine c => exact get_append inside more
    | _ => exact inside
  | _ => exact inside

/-- What is done does not do anything any more. -/
theorem signals_grows (grows : Grows s s') (inside : Inside s.made f)
    (does : signal ∈ signals s' f) : signal ∈ signals s f := by
  obtain ⟨⟨more, made⟩, done⟩ := grows
  have later (q : ℕ) (p : ℕ) (does : signal ∈ if s'.done q = true then [] else [Signal.resolved p]) :
      signal ∈ if s.done q = true then [] else [Signal.resolved p] := by
    split at does
    · cases does
    · rename_i waiting
      rwa [if_neg fun early => waiting (done q early)]
  induction f with
  | thenRun p f ih => exact ih inside does
  | client k =>
    cases k with
    | task q => exact later q q does
    | cancelTask q => exact later q q does
    | whenAny w index =>
      simp only [signals, made, List.getElem?_append_left inside] at does ⊢
      split at does
      · split at does
        · cases does
        · rename_i waiting
          rwa [if_neg fun early => waiting (done w early)]
      · cases does
    | cancelAny w =>
      simp only [signals, cancels, made, List.getElem?_append_left inside] at does ⊢
      split at does
      · exact later w w does
      · exact later w w does
      · exact does
      · cases does
    | _ => exact does
  | _ => exact does

theorem signals_catching (catching : List Catching) :
    signals { s with catching } f = signals s f := by
  induction f with
  | thenRun p f ih => exact ih
  | client k => cases k <;> rfl
  | _ => rfl

/-- What a call does follows from what a catch block of its thread has set going. -/
structure Caught (s : State) (thread : ℕ) (call : CatchCall) : Prop where
  inside : Inside s.made call
  follows : ∀ signal ∈ signals s call, ∃ entry ∈ s.catching, entry.thread = thread ∧
    Downstream s.made entry.spent entry.root signal

theorem Caught.grows (caught : Caught s thread call) (grows : Grows s s')
    (kept : ∀ entry ∈ s.catching, entry.thread = thread → entry ∈ s'.catching) :
    Caught s' thread call := by
  obtain ⟨more, made⟩ := grows.made
  refine ⟨made ▸ caught.inside.append more, fun signal does => ?_⟩
  obtain ⟨entry, listed, own, downstream⟩ :=
    caught.follows signal (signals_grows grows caught.inside does)
  exact ⟨entry, kept entry listed own, own, made ▸ downstream.append more⟩

/-- What follows from a call that is caught is caught. -/
theorem Caught.next (caught : Caught s thread call) (grows : Grows s s')
    (kept : ∀ entry ∈ s.catching, entry.thread = thread → entry ∈ s'.catching)
    (inside : Inside s'.made f)
    (does : ∀ signal ∈ signals s' f, signal ∈ signals s call ∨ ∃ before ∈ signals s call,
      ∀ entry ∈ s.catching, signal ∈ leads s.made entry.spent before) :
    Caught s' thread f := by
  obtain ⟨more, made⟩ := grows.made
  refine ⟨inside, fun signal member => ?_⟩
  rcases does signal member with same | ⟨before, held, follows⟩
  · obtain ⟨entry, listed, own, downstream⟩ := caught.follows signal same
    exact ⟨entry, kept entry listed own, own, made ▸ downstream.append more⟩
  · obtain ⟨entry, listed, own, downstream⟩ := caught.follows before held
    have onward : Downstream s.made entry.spent entry.root signal :=
      downstream.tail (follows entry listed)
    exact ⟨entry, kept entry listed own, own, made ▸ onward.append more⟩

/-- A continuation is only kept where it belongs. -/
def Formed (made : List Made) : CatchCall → Prop
  | .thenRun p f => Belongs made p f
  | .unwrapOuter _ _ | .unwrapInner _ _ _ => False
  | _ => True

theorem Formed.append (formed : Formed made f) (more : List Made) : Formed (made ++ more) f := by
  cases f with
  | thenRun p f => exact Belongs.append formed more
  | _ => exact formed

theorem Belongs.inside (belongs : Belongs made p f) : Inside made f := by
  cases belongs with
  | task held => trivial
  | whenAny held listed => exact (List.getElem?_eq_some_iff.mp held).1
  | post work => trivial

theorem Belongs.formed (belongs : Belongs made p f) : Formed made f := by
  cases belongs <;> trivial

theorem Cancels.inside (cancels : Cancels made t f) : Inside made f := by
  cases cancels with
  | task held => trivial
  | coroutine held => exact held
  | whenAny held => exact (List.getElem?_eq_some_iff.mp held).1

theorem Cancels.formed (cancels : Cancels made t f) : Formed made f := by
  cases cancels <;> trivial

/-- What holds of the futures, whatever the threads still have to do. -/
structure Wired (s : State) : Prop where
  unterminated : s.terminated = false
  registered : ∀ p, ∀ f ∈ (s.heap.states p).thens, Belongs s.made p f
  cancelers : ∀ t, (s.heap.tokens t).doCancels = [] ∨
    ∃ f, Cancels s.made t f ∧ (s.heap.tokens t).doCancels = [f]
  tokens : ∀ p t, (s.heap.states p).cancelationToken = some t →
    ∃ m, s.made[p]? = some m ∧ m.token = t
  spent : ∀ entry ∈ s.catching, ∀ q, entry.spent q = true → s.done q = true

/-- What a thread still has to do.  The catch blocks that it is in are those that end
later, and what comes before the end of one is caught. -/
structure Open (thread : ℕ) (s : State) (agenda : List CatchCall) : Prop where
  handled : s.handlers thread = agenda.count (.client .endCatch)
  formed : ∀ call ∈ agenda, Formed s.made call
  caught : agenda.Pairwise fun call later =>
    later = .client .endCatch → call = .client .endCatch ∨ Caught s thread call

/-- What other threads do does not matter. -/
theorem Open.frame {agenda : List CatchCall} (opened : Open thread s agenda) (grows : Grows s s')
    (handlers : s'.handlers thread = s.handlers thread)
    (kept : ∀ entry ∈ s.catching, entry.thread = thread → entry ∈ s'.catching) :
    Open thread s' agenda := by
  obtain ⟨more, made⟩ := grows.made
  refine ⟨handlers.trans opened.handled, ?_, ?_⟩
  · exact fun call member => made ▸ (opened.formed call member).append more
  · refine opened.caught.imp fun earlier last => ?_
    exact (earlier last).imp_right fun caught => caught.grows grows kept

theorem Open.tail (opened : Open thread s (call :: rest)) (other : call ≠ .client .endCatch) :
    Open thread s rest := by
  refine ⟨?_, fun f member => opened.formed f (List.mem_cons_of_mem _ member),
    (List.pairwise_cons.mp opened.caught).2⟩
  rw [opened.handled, List.count_cons_of_ne other]

/-- Within a catch block, what comes first is caught. -/
theorem Open.head (opened : Open thread s (call :: rest)) (other : call ≠ .client .endCatch)
    (handling : s.handlers thread ≠ 0) : Caught s thread call := by
  rw [opened.handled, List.count_cons_of_ne other] at handling
  have last : Call.client Closure.endCatch ∈ rest :=
    List.count_pos_iff.mp (Nat.pos_of_ne_zero handling)
  exact ((List.pairwise_cons.mp opened.caught).1 _ last rfl).resolve_left other

/-- A step that neither begins nor ends a catch block. -/
theorem Open.plain (opened : Open thread s (call :: rest)) (other : call ≠ .client .endCatch)
    (grows : Grows s s') (handlers : s'.handlers thread = s.handlers thread)
    (kept : ∀ entry ∈ s.catching, entry.thread = thread → entry ∈ s'.catching)
    (formed : ∀ f ∈ calls, Formed s'.made f) (last : .client .endCatch ∉ calls)
    (caught : s.handlers thread ≠ 0 → Caught s thread call → ∀ f ∈ calls, Caught s' thread f) :
    Open thread s' (calls ++ rest) := by
  have below := (opened.tail other).frame grows handlers kept
  refine ⟨?_, ?_, ?_⟩
  · rw [List.count_append, List.count_eq_zero.mpr last, zero_add, below.handled]
  · intro f member
    rcases List.mem_append.mp member with made | old
    · exact formed f made
    · exact below.formed f old
  · refine List.pairwise_append.mpr ⟨?_, below.caught, fun f made later old same => ?_⟩
    · exact List.pairwise_of_forall_mem_list fun f _ later made same => absurd (same ▸ made) last
    · have handling : s.handlers thread ≠ 0 := by
        rw [opened.handled, List.count_cons_of_ne other]
        exact Nat.ne_of_gt (List.count_pos_iff.mpr (same ▸ old))
      exact Or.inr (caught handling (opened.head other handling) f made)

/-- A step of a thread keeps the futures, its own agenda and those of other threads. -/
structure Advances (thread : ℕ) (s s' : State) (agenda : List CatchCall) : Prop where
  wired : Wired s'
  opened : Open thread s' agenda
  others : ∀ other ≠ thread, ∀ agenda, Open other s agenda → Open other s' agenda

/-- The catch block ends. -/
theorem endCatch_advances (wired : Wired s)
    (opened : Open thread s (.client .endCatch :: rest)) :
    Advances thread s (s.endCatch thread) rest := by
  have counted : s.handlers thread = rest.count (.client .endCatch) + 1 := by
    rw [opened.handled, List.count_cons_self]
  have listed {entry : Catching} (member : entry ∈ (s.endCatch thread).catching) :
      entry ∈ s.catching := by
    simp only [State.endCatch] at member
    split at member
    · exact (List.mem_filter.mp member).1
    · exact member
  refine ⟨⟨wired.unterminated, wired.registered, wired.cancelers, wired.tokens,
    fun entry member => wired.spent entry (listed member)⟩, ?_, ?_⟩
  · refine ⟨?_, fun f member => opened.formed f (List.mem_cons_of_mem _ member), ?_⟩
    · simp [State.endCatch, counted]
    · have below := (List.pairwise_cons.mp opened.caught).2
      by_cases outermost : s.handlers thread = 1
      · have none : Call.client Closure.endCatch ∉ rest := by
          apply List.count_eq_zero.mp
          omega
        exact List.pairwise_of_forall_mem_list fun f _ later member same =>
          absurd (same ▸ member) none
      · refine below.imp fun earlier last => (earlier last).imp_right fun caught => ?_
        exact caught.grows (.of_same rfl rfl) fun entry member _ => by
          simpa [State.endCatch, outermost] using member
  · intro other different agenda opened
    refine opened.frame (.of_same rfl rfl) ?_ ?_
    · simp [State.endCatch, Function.update_of_ne different]
    · intro entry member own
      simp only [State.endCatch]
      split
      · exact List.mem_filter.mpr ⟨member, by simpa [own] using different⟩
      · exact member

/-- A catch block begins, and resolves a future. -/
theorem enterCatch_advances {e : Exc} (wired : Wired s) (opened : Open thread s (call :: rest))
    (other : call ≠ .client .endCatch) :
    Advances thread s (s.enterCatch thread p e).1 ((s.enterCatch thread p e).2 ++ rest) := by
  have grows : Grows s (s.enterCatch thread p e).1 := .of_same rfl rfl
  have kept (entry : Catching) (member : entry ∈ s.catching) :
      entry ∈ (s.enterCatch thread p e).1.catching := List.mem_cons_of_mem _ member
  have below := opened.tail other
  have first : Caught (s.enterCatch thread p e).1 thread (.finish p (.exception e)) := by
    refine ⟨trivial, fun signal does => ⟨_, List.mem_cons_self, rfl, ?_⟩⟩
    rw [signals, List.mem_singleton] at does
    rw [does]
    exact Relation.ReflTransGen.refl
  refine ⟨⟨wired.unterminated, wired.registered, wired.cancelers, wired.tokens, ?_⟩, ?_, ?_⟩
  · intro entry member q early
    rcases List.mem_cons.mp member with rfl | old
    · exact early
    · exact wired.spent entry old q early
  · refine ⟨?_, ?_, ?_⟩
    · have counted := below.handled
      simp [State.enterCatch, counted]
    · intro f member
      rcases List.mem_cons.mp member with rfl | member
      · trivial
      rcases List.mem_cons.mp member with rfl | member
      · trivial
      · exact below.formed f member
    · refine List.Pairwise.cons (fun _ _ _ => Or.inr first) (.cons (fun _ _ _ => Or.inl rfl) ?_)
      refine below.caught.imp fun earlier last => (earlier last).imp_right fun caught => ?_
      exact caught.grows grows fun entry member _ => kept entry member
  · intro other different agenda opened
    refine opened.frame grows ?_ fun entry member _ => kept entry member
    simp [State.enterCatch, Function.update_of_ne different]

/-- What a step changes outside of the futures and the catch blocks. -/
structure Same (s s' : State) : Prop where
  grows : Grows s s'
  heap : s'.heap = s.heap
  made : s'.made = s.made
  handlers : s'.handlers = s.handlers
  catching : s'.catching = s.catching
  terminated : s'.terminated = s.terminated

theorem Same.refl : Same s s := ⟨.refl, rfl, rfl, rfl, rfl, rfl⟩

theorem same_setDone : Same s (s.setDone q) := ⟨grows_setDone, rfl, rfl, rfl, rfl, rfl⟩

theorem same_setCoroutine {coroutine : Coroutine} : Same s (s.setCoroutine c coroutine) :=
  ⟨.of_same rfl rfl, rfl, rfl, rfl, rfl, rfl⟩

theorem same_starts {coroutine : Coroutine} :
    Same s ((s.setDone c).setCoroutine c coroutine) :=
  ⟨⟨⟨[], (List.append_nil _).symm⟩, (grows_setDone (q := c)).done⟩, rfl, rfl, rfl, rfl, rfl⟩

theorem same_queue {queue : List Work} : Same s { s with queue } :=
  ⟨.of_same rfl rfl, rfl, rfl, rfl, rfl, rfl⟩

theorem Same.wired (same : Same s s') (wired : Wired s) : Wired s' := by
  obtain ⟨grows, heap, made, handlers, catching, terminated⟩ := same
  refine ⟨terminated.trans wired.unterminated, ?_, ?_, ?_, ?_⟩
  · rw [heap, made]
    exact wired.registered
  · rw [heap, made]
    exact wired.cancelers
  · rw [heap, made]
    exact wired.tokens
  · rw [catching]
    exact fun entry member q early => grows.done q (wired.spent entry member q early)

theorem Same.frame {agenda : List CatchCall} (same : Same s s') (opened : Open thread s agenda) :
    Open thread s' agenda := by
  refine opened.frame same.grows (by rw [same.handlers]) ?_
  rw [same.catching]
  exact fun entry member _ => member

/-- A step that changes no future, and neither begins nor ends a catch block. -/
theorem Same.advances (same : Same s s') (wired : Wired s) (opened : Open thread s (call :: rest))
    (other : call ≠ .client .endCatch) (formed : ∀ f ∈ calls, Formed s'.made f)
    (last : .client .endCatch ∉ calls)
    (caught : s.handlers thread ≠ 0 → Caught s thread call → ∀ f ∈ calls, Caught s' thread f) :
    Advances thread s s' (calls ++ rest) := by
  refine ⟨same.wired wired, ?_, fun _ _ agenda opened => same.frame opened⟩
  refine opened.plain other same.grows (by rw [same.handlers]) ?_ formed last caught
  rw [same.catching]
  exact fun entry member _ => member

/-- What is made of a call is caught when it does what the call does. -/
theorem Same.caught (same : Same s s') (caught : Caught s thread call)
    (inside : Inside s.made f)
    (does : ∀ signal ∈ signals s' f, signal ∈ signals s call ∨ ∃ before ∈ signals s call,
      ∀ entry ∈ s.catching, signal ∈ leads s.made entry.spent before) :
    Caught s' thread f := by
  refine caught.next same.grows ?_ (by rwa [same.made]) does
  rw [same.catching]
  exact fun entry member _ => member

/-! ## The steps of the futures -/

theorem Belongs.ne_endCatch (belongs : Belongs made p f) : f ≠ .client .endCatch := by
  cases belongs <;> simp

theorem Cancels.ne_endCatch (cancels : Cancels made t f) : f ≠ .client .endCatch := by
  cases cancels <;> simp

theorem Wired.setState (wired : Wired s) {state : SharedBase ℕ ℕ Closure}
    (thens : ∀ f ∈ state.thens, Belongs s.made p f)
    (token : ∀ t, state.cancelationToken = some t → ∃ m, s.made[p]? = some m ∧ m.token = t) :
    Wired { s with heap := s.heap.setState p state } := by
  refine ⟨wired.unterminated, ?_, wired.cancelers, ?_, wired.spent⟩
  · intro q f member
    by_cases same : q = p
    · subst same
      rw [Heap.setState_states_self] at member
      exact thens f member
    · rw [Heap.setState_states_ne state same] at member
      exact wired.registered q f member
  · intro q t held
    by_cases same : q = p
    · subst same
      rw [Heap.setState_states_self] at held
      exact token t held
    · rw [Heap.setState_states_ne state same] at held
      exact wired.tokens q t held

theorem Wired.setToken (wired : Wired s) {token : CancelationToken CatchCall}
    (canceler : token.doCancels = [] ∨ ∃ f, Cancels s.made t f ∧ token.doCancels = [f]) :
    Wired { s with heap := s.heap.setToken t token } := by
  refine ⟨wired.unterminated, wired.registered, ?_, wired.tokens, wired.spent⟩
  intro u
  by_cases same : u = t
  · subst same
    rw [Heap.setToken_tokens_self]
    exact canceler
  · rw [Heap.setToken_tokens_ne token same]
    exact wired.cancelers u

theorem exec_wired (wired : Wired s) (formed : Formed s.made call) :
    Wired { s with heap := (s.heap.exec call).1 } := by
  cases call with
  | finish p r => exact wired.setState (by simp) (by simp)
  | thenRun p f =>
    simp only [Heap.exec, Heap.thenRun]
    split
    · refine wired.setState ?_ fun t held => wired.tokens p t held
      intro g member
      rcases List.mem_append.mp member with old | new
      · exact wired.registered p g old
      · rw [List.mem_singleton.mp new]
        exact formed
    · exact wired
  | requestCancel p =>
    simp only [Heap.exec, Heap.requestCancel]
    split
    · exact wired.setToken (wired.cancelers _)
    · exact wired
  | popCancelationCallback t =>
    refine wired.setToken (Or.inl ?_)
    rcases wired.cancelers t with none | ⟨f, -, one⟩
    · simp [CancelationToken.popCancelationCallback, none]
    · simp [CancelationToken.popCancelationCallback, one]
  | unwrapOuter fut1 sb => exact formed.elim
  | unwrapInner fut2 sb token => exact formed.elim
  | client k => exact wired

/-- What a future makes of a call. -/
inductive Makes (s : State) : CatchCall → CatchCall → Prop where
  | continuation {p : ℕ} {r : Result ℕ ℕ} {f : CatchCall} :
      Belongs s.made p f → Makes s (.finish p r) f
  | now {p : ℕ} {f : CatchCall} : Belongs s.made p f → Makes s (.thenRun p f) f
  | canceler {p : ℕ} {m : Made} {f : CatchCall} :
      s.made[p]? = some m → Cancels s.made m.token f → Makes s (.requestCancel p) f

theorem exec_makes (wired : Wired s) (formed : Formed s.made call)
    (member : f ∈ (s.heap.exec call).2) : Makes s call f := by
  cases call with
  | finish p r => exact .continuation (wired.registered p f member)
  | thenRun p g =>
    simp only [Heap.exec, Heap.thenRun] at member
    split at member
    · cases member
    · rw [List.mem_singleton.mp member]
      exact .now formed
  | requestCancel p =>
    simp only [Heap.exec, Heap.requestCancel] at member
    split at member
    · rename_i t token
      obtain ⟨m, held, rfl⟩ := wired.tokens p t token
      rcases wired.cancelers m.token with none | ⟨g, cancels, one⟩
      · simp [Heap.onToken, CancelationToken.requestCancel, none] at member
      · obtain rfl : f = g := by
          simpa [Heap.onToken, CancelationToken.requestCancel, one] using member
        exact .canceler held cancels
    · cases member
  | popCancelationCallback t =>
    have nothing : (s.heap.tokens t).doCancels.tail = [] := by
      rcases wired.cancelers t with none | ⟨g, -, one⟩
      · rw [none, List.tail_nil]
      · rw [one, List.tail_cons]
    simp [Heap.exec, Heap.onToken, CancelationToken.popCancelationCallback, nothing] at member
  | unwrapOuter fut1 sb => exact formed.elim
  | unwrapInner fut2 sb token => exact formed.elim
  | client k => cases member

theorem Makes.formed (makes : Makes s call f) : Formed s.made f := by
  cases makes with
  | continuation belongs => exact belongs.formed
  | now belongs => exact belongs.formed
  | canceler held cancels => exact cancels.formed

theorem Makes.ne_endCatch (makes : Makes s call f) : f ≠ .client .endCatch := by
  cases makes with
  | continuation belongs => exact belongs.ne_endCatch
  | now belongs => exact belongs.ne_endCatch
  | canceler held cancels => exact cancels.ne_endCatch

theorem Makes.caught (makes : Makes s call f) (wired : Wired s)
    (caught : Caught s thread call) : Caught s thread f := by
  cases makes with
  | @continuation p r f belongs =>
    refine caught.next .refl (fun _ member _ => member) belongs.inside fun signal does => ?_
    exact Or.inr ⟨.resolved p, List.mem_singleton_self _, fun entry member =>
      belongs.leads (wired.spent entry member) does⟩
  | now belongs => exact ⟨belongs.inside, caught.follows⟩
  | @canceler p m f held cancels =>
    refine caught.next .refl (fun _ member _ => member) cancels.inside fun signal does => ?_
    exact Or.inr ⟨.requested p, List.mem_singleton_self _, fun entry member =>
      cancels.leads held (wired.spent entry member) does⟩

theorem library_advances (wired : Wired s) (opened : Open thread s (call :: rest))
    (other : call ≠ .client .endCatch) :
    Advances thread s { s with heap := (s.heap.exec call).1 } ((s.heap.exec call).2 ++ rest) := by
  have formed := opened.formed call List.mem_cons_self
  have grows : Grows s { s with heap := (s.heap.exec call).1 } := .of_same rfl rfl
  refine ⟨exec_wired wired formed, ?_, ?_⟩
  · refine opened.plain other grows rfl (fun _ member _ => member) ?_ ?_ ?_
    · exact fun f member => (exec_makes wired formed member).formed
    · exact fun member => (exec_makes wired formed member).ne_endCatch rfl
    · exact fun _ caught f member => ((exec_makes wired formed member).caught wired caught).grows
        grows fun _ member _ => member
  · exact fun _ _ agenda opened => opened.frame grows rfl fun _ member _ => member

end Tconcurrent.CatchBlocks
