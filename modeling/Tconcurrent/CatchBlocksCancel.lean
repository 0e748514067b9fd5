import Tconcurrent.CatchBlocksCaught

/-! A coroutine is canceled in a catch block only where one is downstream of it.

Each step of a task, a `when_any`, a coroutine or of user code keeps what a thread has to
do in a catch block within what follows from the block, and a canceler that finds an
exception would have to follow from it too. -/
namespace Tconcurrent.CatchBlocks
open Interleaving

variable {s s' : State} {thread q c : ℕ} {call f : CatchCall} {calls rest : List CatchCall}
variable {signal : Signal}

/-- The check of a canceler has never ended the program. -/
def NeverTerminates (config : Config State CatchCall) : Prop :=
  config.state.terminated = false

/-- No coroutine that is suspended lies downstream of what a catch block of the library
has set going. -/
def Clear (s : State) (_ : CatchCall) (_ : Choice) : Prop :=
  ∀ entry ∈ s.catching, ∀ c, s.installed c = true →
    ¬ Downstream s.made entry.spent entry.root (.requested c)

/-! ## The steps of user code -/

theorem Wired.more (wired : Wired s) (m : Made) : Wired { s with made := s.made ++ [m] } := by
  refine ⟨wired.unterminated, ?_, ?_, ?_, wired.spent⟩
  · exact fun p f member => (wired.registered p f member).append _
  · intro t
    rcases wired.cancelers t with none | ⟨f, cancels, one⟩
    · exact Or.inl none
    · exact Or.inr ⟨f, cancels.append _, one⟩
  · intro p t held
    obtain ⟨m', before, own⟩ := wired.tokens p t held
    exact ⟨m', get_append before _, own⟩

theorem create_wired {kind : Kind} {canceler : Closure} (wired : Wired s)
    (cancels : Cancels (s.made ++ [⟨kind, s.made.length⟩]) s.made.length (.client canceler)) :
    Wired (s.create kind canceler) := by
  have more := wired.more ⟨kind, s.made.length⟩
  have state : Wired { s with
      made := s.made ++ [⟨kind, s.made.length⟩]
      heap := s.heap.setState s.made.length { cancelationToken := some s.made.length } } :=
    more.setState (by simp) (by simp)
  exact state.setToken (Or.inr ⟨_, cancels, rfl⟩)

theorem mem_registers {w : ℕ} {futures : List ℕ} (member : f ∈ registers w futures) :
    ∃ p index, futures[index]? = some p ∧ f = .thenRun p (.client (.whenAny w index)) := by
  obtain ⟨⟨p, index⟩, listed, rfl⟩ := List.mem_map.mp member
  exact ⟨p, index, List.mk_mem_zipIdx_iff_getElem?.mp listed, rfl⟩

/-- What user code has done before it makes the calls it decides on. -/
structure Acts (s s' : State) (calls : List CatchCall) : Prop where
  wired : Wired s'
  grows : Grows s s'
  handlers : s'.handlers = s.handlers
  catching : s'.catching = s.catching
  formed : ∀ f ∈ calls, Formed s'.made f
  inside : ∀ f ∈ calls, Inside s'.made f

theorem act_acts {choice : Choice} (wired : Wired s) (ran : act s choice = some (s', calls)) :
    Acts s s' calls := by
  have last (kind : Kind) (token : ℕ) :
      (s.made ++ [⟨kind, token⟩])[s.made.length]? = some ⟨kind, token⟩ := by simp
  unfold act at ran
  split at ran
  · rename_i synchronous
    have created := create_wired wired (.task (last .async _))
    split at ran
    · cases ran
      exact ⟨created, ⟨⟨_, rfl⟩, fun _ done => done⟩, rfl, rfl, by simp [Formed], by simp [Inside]⟩
    · cases ran
      exact ⟨same_queue.wired created, ⟨⟨_, rfl⟩, fun _ done => done⟩, rfl, rfl, by simp, by simp⟩
  · cases ran
    have created := create_wired wired (.coroutine (last .coroutine _))
    exact ⟨same_queue.wired created, ⟨⟨_, rfl⟩, fun _ done => done⟩, rfl, rfl, by simp, by simp⟩
  · rename_i p synchronous
    split at ran
    · cases ran
    · rename_i m held
      cases ran
      have more := wired.more ⟨.then p synchronous, m.token⟩
      refine ⟨more.setState (by simp) (by simp), ⟨⟨_, rfl⟩, fun _ done => done⟩, rfl, rfl, ?_, ?_⟩
      · intro f member
        rw [List.mem_singleton.mp member]
        cases synchronous with
        | false => exact .post _
        | true => exact .task (last (.then p true) m.token)
      · intro f member
        rw [List.mem_singleton.mp member]
        cases synchronous <;> trivial
  · rename_i futures autoCancel
    split at ran
    · cases ran
      have created := create_wired wired
        (.whenAny (last (.whenAny futures autoCancel) s.made.length))
      refine ⟨created, ⟨⟨_, rfl⟩, fun _ done => done⟩, rfl, rfl, ?_, ?_⟩
      · intro f member
        obtain ⟨p, index, listed, rfl⟩ := mem_registers member
        exact .whenAny (last (.whenAny futures autoCancel) s.made.length) listed
      · intro f member
        obtain ⟨p, index, listed, rfl⟩ := mem_registers member
        simp [Inside, State.create]
    · cases ran
  · split at ran
    · cases ran
      exact ⟨wired, .refl, rfl, rfl, by simp [Formed], by simp [Inside]⟩
    · cases ran
  · cases ran

/-- User code that goes on after it has acted, on its own or called back from a catch
block. -/
theorem actThen_advances {choice : Choice} {again : Closure} (wired : Wired s)
    (opened : Open thread s (.client again :: rest)) (other : again ≠ .endCatch)
    (ran : actThen thread s choice again = some (s', calls)) :
    Advances thread s s' (calls ++ rest) := by
  obtain ⟨⟨s₁, made⟩, acted, same⟩ := Option.map_eq_some_iff.mp ran
  obtain ⟨wired₁, grows, handlers, catching, formed, inside⟩ := act_acts wired acted
  cases same
  have distinct : (.client again : CatchCall) ≠ .client .endCatch := by simpa using other
  have stays (f : CatchCall) (member : f ∈ made) : f ≠ .client .endCatch := by
    rintro rfl
    exact (inside _ member).elim
  have last : (.client .endCatch : CatchCall) ∉ made ++ [.client again] := by
    intro member
    rcases List.mem_append.mp member with listed | listed
    · exact stays _ listed rfl
    · exact distinct (List.mem_singleton.mp listed).symm
  have formedAll : ∀ f ∈ made ++ [.client again], Formed s₁.made f := by
    intro f member
    rcases List.mem_append.mp member with listed | listed
    · exact formed f listed
    · rw [List.mem_singleton.mp listed]
      trivial
  by_cases idle : s₁.handlers thread = 0
  · rw [State.setsGoing, if_pos idle]
    refine ⟨wired₁, ?_, fun _ _ agenda opened => opened.frame grows (by rw [handlers]) ?_⟩
    · refine opened.plain distinct grows (by rw [handlers]) ?_ formedAll last ?_
      · exact fun entry member _ => catching ▸ member
      · exact fun handling => absurd (handlers ▸ idle) handling
    · exact fun entry member _ => catching ▸ member
  · rw [State.setsGoing, if_neg idle]
    have grown : Grows s { s₁ with
        catching := (made.flatMap (signals s₁)).map (⟨thread, ·, s₁.done⟩) ++ s₁.catching } :=
      ⟨grows.made, grows.done⟩
    have kept : ∀ entry ∈ s.catching, entry ∈
        (made.flatMap (signals s₁)).map (⟨thread, ·, s₁.done⟩) ++ s₁.catching :=
      fun entry member => List.mem_append_right _ (catching ▸ member)
    refine ⟨⟨wired₁.unterminated, wired₁.registered, wired₁.cancelers, wired₁.tokens, ?_⟩, ?_,
      fun _ _ agenda opened => opened.frame grown (by simp [handlers]) fun entry member _ =>
        kept entry member⟩
    · intro entry member q early
      rcases List.mem_append.mp member with new | old
      · obtain ⟨signal, -, rfl⟩ := List.mem_map.mp new
        exact early
      · exact wired₁.spent entry old q early
    · refine opened.plain distinct grown (by simp [handlers]) (fun entry member _ =>
        kept entry member) formedAll last ?_
      intro _ caught f member
      rcases List.mem_append.mp member with listed | listed
      · refine ⟨inside f listed, fun signal does => ?_⟩
        rw [signals_catching] at does
        refine ⟨_, List.mem_append_left _ (List.mem_map.mpr ⟨signal, ?_, rfl⟩), rfl, .refl⟩
        exact List.mem_flatMap.mpr ⟨f, listed, does⟩
      · rw [List.mem_singleton.mp listed]
        exact caught.grows grown fun entry member _ => kept entry member

/-! ## The steps of tasks, `when_any` and coroutines -/

theorem task_advances (wired : Wired s) (opened : Open thread s (.client (.task q) :: rest)) :
    Advances thread s (task q s).1 ((task q s).2 ++ rest) := by
  unfold task
  split
  · exact Same.refl.advances wired opened (by simp) (by simp) (by simp) (by simp)
  · rename_i waiting
    have mentioned (f : CatchCall) (member : f ∈ (if s.made[q]?.map Made.kind = some .async then
        [Call.popCancelationCallback q] else []) ++ [.client (.function q)]) :
        f = .popCancelationCallback q ∨ f = .client (.function q) := by
      rcases List.mem_append.mp member with pops | calls
      · split at pops
        · exact Or.inl (List.mem_singleton.mp pops)
        · cases pops
      · exact Or.inr (List.mem_singleton.mp calls)
    refine same_setDone.advances wired opened (by simp) ?_ ?_ ?_
    · intro f member
      rcases mentioned f member with rfl | rfl <;> trivial
    · intro member
      rcases mentioned _ member with same | same <;> simp at same
    · intro _ caught f member
      rcases mentioned f member with rfl | rfl
      · exact same_setDone.caught caught trivial (by simp [signals])
      · exact same_setDone.caught caught trivial (by simp [signals, waiting])

theorem function_advances {choice : Choice} (wired : Wired s)
    (opened : Open thread s (.client (.function q) :: rest))
    (ran : function thread q s choice = some (s', calls)) :
    Advances thread s s' (calls ++ rest) := by
  unfold function at ran
  split at ran
  · cases ran
    refine Same.refl.advances wired opened (by simp) (by simp [Formed]) (by simp) ?_
    intro _ caught f member
    rw [List.mem_singleton.mp member]
    exact Same.refl.caught caught trivial (by simp [signals])
  · cases ran
    exact enterCatch_advances wired opened (by simp)
  · exact actThen_advances wired opened (by simp) ran

theorem cancelTask_advances (wired : Wired s)
    (opened : Open thread s (.client (.cancelTask q) :: rest)) :
    Advances thread s (cancelTask q s).1 ((cancelTask q s).2 ++ rest) := by
  unfold cancelTask
  split
  · exact Same.refl.advances wired opened (by simp) (by simp) (by simp) (by simp)
  · rename_i waiting
    refine same_setDone.advances wired opened (by simp) (by simp [Formed]) (by simp) ?_
    intro _ caught f member
    rcases List.mem_cons.mp member with rfl | member
    · exact same_setDone.caught caught trivial (by simp [signals])
    · rw [List.mem_singleton.mp member]
      exact same_setDone.caught caught trivial (by simp [signals, waiting])

theorem whenAny_advances {w index : ℕ} (wired : Wired s)
    (opened : Open thread s (.client (.whenAny w index) :: rest)) :
    Advances thread s (whenAny w index s).1 ((whenAny w index s).2 ++ rest) := by
  unfold whenAny
  split
  · rename_i futures autoCancel kind
    split
    · exact Same.refl.advances wired opened (by simp) (by simp) (by simp) (by simp)
    · rename_i waiting
      have mentioned (f : CatchCall) (member : f ∈ (if autoCancel then
          (futures.eraseIdx index).map Call.requestCancel else []) ++
            [.finish w (.value (.plain index))]) :
          f = .finish w (.value (.plain index)) ∨ autoCancel = true ∧
            ∃ p ∈ futures.eraseIdx index, f = .requestCancel p := by
        rcases List.mem_append.mp member with requests | finishes
        · split at requests
          · rename_i auto
            obtain ⟨p, listed, rfl⟩ := List.mem_map.mp requests
            exact Or.inr ⟨auto, p, listed, rfl⟩
          · cases requests
        · exact Or.inl (List.mem_singleton.mp finishes)
      have does (signal : Signal) (member : signal ∈ triggers w index futures autoCancel) :
          signal ∈ signals s (.client (.whenAny w index)) := by
        simpa [signals, kind, waiting] using member
      refine same_setDone.advances wired opened (by simp) ?_ ?_ ?_
      · intro f member
        rcases mentioned f member with rfl | ⟨-, p, -, rfl⟩ <;> trivial
      · intro member
        rcases mentioned _ member with same | ⟨-, p, -, same⟩ <;> cases same
      · intro _ caught f member
        rcases mentioned f member with rfl | ⟨auto, p, listed, rfl⟩
        · refine same_setDone.caught caught trivial fun signal member => Or.inl (does signal ?_)
          rw [List.mem_singleton.mp member]
          exact List.mem_cons_self
        · refine same_setDone.caught caught trivial fun signal member => Or.inl (does signal ?_)
          rw [List.mem_singleton.mp member, triggers, if_pos auto]
          exact List.mem_cons_of_mem _ (List.mem_map_of_mem listed)
  · exact Same.refl.advances wired opened (by simp) (by simp) (by simp) (by simp)

theorem cancelAny_advances {w : ℕ} (wired : Wired s)
    (opened : Open thread s (.client (.cancelAny w) :: rest)) :
    Advances thread s (cancelAny w s).1 ((cancelAny w s).2 ++ rest) := by
  unfold cancelAny
  split
  · rename_i futures autoCancel kind
    have requests (f : CatchCall) (member : f ∈ futures.map Call.requestCancel) :
        ∃ p ∈ futures, f = .requestCancel p := by
      obtain ⟨p, listed, rfl⟩ := List.mem_map.mp member
      exact ⟨p, listed, rfl⟩
    refine Same.refl.advances wired opened (by simp) ?_ (by simp) ?_
    · intro f member
      obtain ⟨p, -, rfl⟩ := requests f member
      trivial
    · intro _ caught f member
      obtain ⟨p, listed, rfl⟩ := requests f member
      refine Same.refl.caught caught trivial fun signal member => Or.inl ?_
      rw [List.mem_singleton.mp member, signals, cancels, kind]
      exact List.mem_map_of_mem listed
  · exact Same.refl.advances wired opened (by simp) (by simp) (by simp) (by simp)

/-- A coroutine whose canceler is installed is not canceled in a catch block. -/
theorem Clear.not_caught {choice : Choice} (clear : Clear s call choice)
    (installed : s.installed c = true) : ¬ Caught s thread (.client (.cancelCoroutine c)) := by
  intro caught
  obtain ⟨entry, listed, -, downstream⟩ := caught.follows _ (List.mem_singleton_self _)
  exact clear entry listed c installed downstream

theorem cancelCoroutine_advances {choice : Choice} (wired : Wired s)
    (opened : Open thread s (.client (.cancelCoroutine c) :: rest)) (clear : Clear s call choice) :
    Advances thread s (cancelCoroutine c s).1 ((cancelCoroutine c s).2 ++ rest) := by
  unfold cancelCoroutine
  dsimp only
  split
  · exact Same.refl.advances wired opened (by simp) (by simp) (by simp) (by simp)
  · split
    · rename_i waiting
      refine same_starts.advances wired opened (by simp) (by simp [Formed]) (by simp) ?_
      intro _ caught f member
      rw [List.mem_singleton.mp member]
      refine same_starts.caught caught trivial fun signal member => ?_
      rw [List.mem_singleton.mp member]
      refine Or.inr ⟨.requested c, List.mem_singleton_self _, fun entry listed => ?_⟩
      have held : s.made[c]? = some ⟨.coroutine, c⟩ := caught.inside
      have early : entry.spent c = false := by
        by_contra spent
        rw [wired.spent entry listed c (by simpa using spent)] at waiting
        cases waiting
      simp [leads, held, cancels, early]
    · split
      · rename_i installed
        refine same_starts.advances wired opened (by simp) (by simp [Formed]) (by simp) ?_
        exact fun _ caught => absurd caught (clear.not_caught installed)
      · exact same_starts.advances wired opened (by simp) (by simp) (by simp) (by simp)

/-- Outside of every catch block nothing is terminated. -/
theorem Open.idle (opened : Open thread s (call :: rest)) (other : call ≠ .client .endCatch)
    (low : ¬ Inside s.made call) : s.handlers thread = 0 := by
  by_contra handling
  exact low (opened.head other handling).inside

theorem cancelAwait_advances (wired : Wired s)
    (opened : Open thread s (.client (.cancelAwait c) :: rest))
    (ran : cancelAwait thread c s = some (s', calls)) : Advances thread s s' (calls ++ rest) := by
  have idle := opened.idle (by simp) id
  rw [cancelAwait, if_neg (by simpa using idle)] at ran
  split at ran
  · rename_i p phase
    cases ran
    refine Same.refl.advances wired opened (by simp) ?_ ?_ fun handling => absurd idle handling
    · cases p <;> simp [Formed]
    · cases p <;> simp
  · cases ran
  · cases ran
    exact Same.refl.advances wired opened (by simp) (by simp) (by simp) (by simp)

theorem abort_advances (wired : Wired s) (opened : Open thread s (.client (.abort c) :: rest)) :
    Advances thread s (abort thread c s).1 ((abort thread c s).2 ++ rest) := by
  have idle := opened.idle (by simp) id
  have same : Same s (s.setCoroutine c { s.coroutines c with phase := .ended }) :=
    same_setCoroutine
  unfold abort
  dsimp only
  split
  · obtain ⟨wired', opened', others⟩ := enterCatch_advances (p := c) (e := .operationCanceled)
      (same.wired wired) (same.frame opened) (by simp)
    exact ⟨wired', opened', fun other different agenda opened =>
      others other different agenda (same.frame opened)⟩
  · exact same.advances wired opened (by simp) (by simp [Formed]) (by simp)
      fun handling => absurd idle handling

theorem start_advances (wired : Wired s) (opened : Open thread s (.client (.start c) :: rest)) :
    Advances thread s (start c s).1 ((start c s).2 ++ rest) := by
  have idle := opened.idle (by simp) id
  unfold start
  split
  · exact Same.refl.advances wired opened (by simp) (by simp) (by simp) (by simp)
  · exact same_starts.advances wired opened (by simp) (by simp [Formed]) (by simp)
      fun handling => absurd idle handling

theorem resume_advances (wired : Wired s) (opened : Open thread s (.client (.resume c) :: rest)) :
    Advances thread s (resume c s).1 ((resume c s).2 ++ rest) := by
  have idle := opened.idle (by simp) id
  unfold resume
  split
  · exact same_setCoroutine.advances wired opened (by simp) (by simp [Formed]) (by simp)
      fun handling => absurd idle handling
  · exact Same.refl.advances wired opened (by simp) (by simp) (by simp) (by simp)

theorem await_advances {p : Option ℕ} (wired : Wired s)
    (opened : Open thread s (.client (.coroutine c) :: rest))
    (ran : await thread c p s = some (s', calls)) : Advances thread s s' (calls ++ rest) := by
  have idle := opened.idle (by simp) id
  have again : Advances thread s s ([.client (.coroutine c)] ++ rest) :=
    Same.refl.advances wired opened (by simp) (by simp [Formed]) (by simp)
      fun handling => absurd idle handling
  simp only [await] at ran
  rw [if_neg (by simpa using idle)] at ran
  split at ran
  · cases ran
    exact again
  · split at ran
    · split at ran
      · cases ran
        exact again
      · cases ran
    · have mentioned (f : CatchCall) (member : f ∈ resumes c p ++
            if (s.coroutines c).requested then [.client (.cancelAwait c)] else []) :
          Formed s.made f ∧ f ≠ .client .endCatch := by
        rcases List.mem_append.mp member with waits | canceled
        · cases p with
          | some p =>
            rw [List.mem_singleton.mp waits]
            exact ⟨.post _, by simp⟩
          | none =>
            rw [List.mem_singleton.mp waits]
            exact ⟨trivial, by simp⟩
        · split at canceled
          · rw [List.mem_singleton.mp canceled]
            exact ⟨trivial, by simp⟩
          · cases canceled
      cases ran
      refine same_setCoroutine.advances wired opened (by simp) ?_ ?_
        fun handling => absurd idle handling
      · exact fun f member => (mentioned f member).1
      · exact fun member => (mentioned _ member).2 rfl

theorem coroutine_advances {choice : Choice} (wired : Wired s)
    (opened : Open thread s (.client (.coroutine c) :: rest))
    (ran : coroutine thread c s choice = some (s', calls)) :
    Advances thread s s' (calls ++ rest) := by
  have idle := opened.idle (by simp) id
  have same : Same s (s.setCoroutine c { s.coroutines c with phase := .ended }) :=
    same_setCoroutine
  unfold coroutine at ran
  split at ran
  · cases ran
    exact same.advances wired opened (by simp) (by simp [Formed]) (by simp)
      fun handling => absurd idle handling
  · cases ran
    obtain ⟨wired', opened', others⟩ := enterCatch_advances (p := c) (e := .user 0)
      (same.wired wired) (same.frame opened) (by simp)
    exact ⟨wired', opened', fun other different agenda opened =>
      others other different agenda (same.frame opened)⟩
  · split at ran
    · exact await_advances wired opened ran
    · cases ran
  · exact actThen_advances wired opened (by simp) ran

theorem user_advances {choice : Choice} (wired : Wired s)
    (opened : Open thread s (.client .user :: rest))
    (ran : user thread s choice = some (s', calls)) : Advances thread s s' (calls ++ rest) := by
  have idle := opened.idle (by simp) id
  unfold user at ran
  split at ran
  · cases ran
    exact Same.refl.advances wired opened (by simp) (by simp) (by simp) (by simp)
  · rename_i index
    obtain ⟨work, queued, same⟩ := Option.map_eq_some_iff.mp ran
    cases same
    refine same_queue.advances wired opened (by simp) (by simp [Formed]) ?_
      fun handling => absurd idle handling
    cases work <;> simp [Work.closure]
  · exact actThen_advances wired opened (by simp) ran

theorem clientExec_advances {choice : Choice} {k : Closure} (wired : Wired s)
    (opened : Open thread s (.client k :: rest)) (clear : Clear s (.client k) choice)
    (ran : clientExec thread choice s k = some (s', calls)) :
    Advances thread s s' (calls ++ rest) := by
  cases k with
  | user => exact user_advances wired opened ran
  | task q =>
    have made : task q s = (s', calls) := Option.some.inj ran
    have advanced := task_advances wired opened
    rwa [made] at advanced
  | function q => exact function_advances wired opened ran
  | cancelTask q =>
    have made : cancelTask q s = (s', calls) := Option.some.inj ran
    have advanced := cancelTask_advances wired opened
    rwa [made] at advanced
  | post work =>
    cases ran
    exact same_queue.advances wired opened (by simp) (by simp) (by simp) (by simp)
  | whenAny w index =>
    have made : whenAny w index s = (s', calls) := Option.some.inj ran
    have advanced := whenAny_advances wired opened
    rwa [made] at advanced
  | cancelAny w =>
    have made : cancelAny w s = (s', calls) := Option.some.inj ran
    have advanced := cancelAny_advances wired opened
    rwa [made] at advanced
  | cancelCoroutine c =>
    have made : cancelCoroutine c s = (s', calls) := Option.some.inj ran
    have advanced := cancelCoroutine_advances wired opened clear
    rwa [made] at advanced
  | cancelAwait c => exact cancelAwait_advances wired opened ran
  | abort c =>
    have made : abort thread c s = (s', calls) := Option.some.inj ran
    have advanced := abort_advances wired opened
    rwa [made] at advanced
  | start c =>
    have made : start c s = (s', calls) := Option.some.inj ran
    have advanced := start_advances wired opened
    rwa [made] at advanced
  | resume c =>
    have made : resume c s = (s', calls) := Option.some.inj ran
    have advanced := resume_advances wired opened
    rwa [made] at advanced
  | coroutine c => exact coroutine_advances wired opened ran
  | endCatch =>
    cases ran
    exact endCatch_advances wired opened

theorem exec_advances {choice : Choice} (wired : Wired s) (opened : Open thread s (call :: rest))
    (clear : Clear s call choice) (ran : exec thread choice s call = some (s', calls)) :
    Advances thread s s' (calls ++ rest) := by
  have alive : ¬ s.terminated = true := by simp [wired.unterminated]
  cases call with
  | client k =>
    simp only [exec, if_neg alive] at ran
    exact clientExec_advances wired opened clear ran
  | _ =>
    simp only [exec, if_neg alive] at ran
    cases ran
    exact library_advances wired opened (by simp)

/-! ## Whole runs -/

variable {engine : Engine} {threads : ℕ} {config : Config State CatchCall}

/-- **No coroutine is canceled in a catch block**, in every run of any number of threads in
which no suspended coroutine lies downstream of what a catch block has set going. -/
theorem neverTerminates_of_clear
    (reached : Reachable exec Clear (program engine threads) config) : NeverTerminates config := by
  have kept := reached.invariant_threads Wired Open
    ⟨rfl, by simp [program], fun _ => Or.inl rfl, by simp [program], by simp [program]⟩ ?_ ?_
  · exact kept.1.unterminated
  · intro thread agenda listed
    obtain rfl := List.eq_of_mem_replicate (List.mem_of_getElem? listed)
    exact ⟨rfl, by simp [Formed], List.pairwise_singleton _ _⟩
  · intro thread choice s call rest s' calls wired opened clear ran
    obtain ⟨wired', opened', others⟩ := exec_advances wired opened clear ran
    exact ⟨wired', opened', others⟩

/-- The signals that are reached in a number of rounds. -/
def spread (next : Signal → List Signal) : ℕ → List Signal → List Signal
  | 0, reached => reached
  | rounds + 1, reached => spread next rounds (reached ∪ reached.flatMap next)

/-- The condition can be checked. -/
def clear (s : State) (_ : CatchCall) (_ : Choice) : Bool :=
  s.catching.all fun entry =>
    let reached := spread (leads s.made entry.spent) (2 * s.made.length) [entry.root]
    reached.contains entry.root &&
      reached.all fun signal => (leads s.made entry.spent signal).all (reached.contains ·) &&
        match signal with
        | .requested c => !s.installed c
        | .resolved _ => true

theorem clear_sound (s : State) (call : CatchCall) (choice : Choice)
    (checked : clear s call choice = true) : Clear s call choice := by
  intro entry listed c installed downstream
  have checked := List.all_eq_true.mp checked entry listed
  simp only [Bool.and_eq_true, List.all_eq_true, List.contains_iff_mem] at checked
  obtain ⟨root, closed⟩ := checked
  generalize spread (leads s.made entry.spent) (2 * s.made.length) [entry.root] = reached at *
  have member (signal : Signal) (downstream : Downstream s.made entry.spent entry.root signal) :
      signal ∈ reached := by
    induction downstream with
    | refl => exact root
    | tail _ follows ih => exact (closed _ ih).1 _ follows
  simpa [installed] using (closed _ (member _ downstream)).2

/-- A task fails while a coroutine is suspended, and its continuation runs in the catch
block; then another task succeeds, and the `when_any` over it and the coroutine cancels
the coroutine. -/
theorem neverTerminates_failThenCancel : ∃ config : Config State CatchCall,
    NeverTerminates config ∧ config.state.done 2 = true ∧
      (config.state.coroutines 0).phase = .ended := by
  have ran : ((program .stackful 1).runWithin exec clear
      [(0, .asyncResumable), (0, .run 0), (0, .return), (0, .await none), (0, .return),
        (0, .async false), (0, .then 1 true), (0, .return), (0, .run 1), (0, .return),
        (0, .return), (0, .throw), (0, .return), (0, .return), (0, .return), (0, .return),
        (0, .return), (0, .async false), (0, .whenAny [3, 0] true), (0, .return), (0, .return),
        (0, .run 1), (0, .return), (0, .return), (0, .return), (0, .return), (0, .return),
        (0, .return), (0, .return), (0, .return), (0, .return)]).map (fun config =>
      decide (config.state.done 2 = true ∧ (config.state.coroutines 0).phase = .ended)) =
        some true := by decide
  obtain ⟨config, reached, holds⟩ := reachable_of_replay_within clear_sound _ _ ran
  exact ⟨config, neverTerminates_of_clear reached, of_decide_eq_true holds⟩

/-- A `when_any` cancels a suspended coroutine, as its other future has failed: the check
in the coroutine's canceler finds the exception that `packaged_task` has caught. -/
theorem failed_task_terminates : ∃ config : Config State CatchCall,
    Reachable exec Anything (program .stackful 1) config ∧
      (config.state.coroutines 0).phase = .awaiting none ∧ config.state.handlers 0 = 1 ∧
      ¬ NeverTerminates config := by
  have ran : ((program .stackful 1).run exec
      [(0, .asyncResumable), (0, .run 0), (0, .return), (0, .await none), (0, .return),
        (0, .async false), (0, .whenAny [1, 0] true), (0, .return), (0, .return), (0, .run 1),
        (0, .return), (0, .return), (0, .throw), (0, .return), (0, .return), (0, .return),
        (0, .return), (0, .return)]).map (fun config =>
      decide ((config.state.coroutines 0).phase = .awaiting none ∧
        config.state.handlers 0 = 1 ∧ config.state.terminated = true)) = some true := by decide
  obtain ⟨config, reached, holds⟩ := reachable_of_replay _ _ ran
  obtain ⟨suspended, handling, ended⟩ := of_decide_eq_true holds
  refine ⟨config, reached, suspended, handling, fun right => ?_⟩
  rw [NeverTerminates, ended] at right
  cases right

end Tconcurrent.CatchBlocks
