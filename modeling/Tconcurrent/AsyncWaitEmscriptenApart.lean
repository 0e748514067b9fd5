import Tconcurrent.AsyncWaitEmscripten

/-! Timers are kept apart while at most one wait has not finished.

Every call of `async_wait` starts the ids and the map over, so the id is always the first
one.  It belongs to the newest wait, and to no other as long as all earlier ones are done
with it. -/
namespace Tconcurrent.AsyncWaitEmscripten
open Interleaving

variable {s s' : State} {calls agenda rest : List WaitCall} {call : WaitCall} {choice : Choice}
  {v w h : ℕ} {outcome : Outcome}

def Outstanding (s : State) (w : ℕ) : Prop := w < s.made ∧ (s.waits w).fired = false

/-- Each outstanding wait has its own id and its own timer. -/
structure KeepsApart (s : State) : Prop where
  distinct : ∀ v w, Outstanding s v → Outstanding s w →
    (s.waits v).timeoutId = (s.waits w).timeoutId → v = w
  mapped : ∀ w, Outstanding s w → ∃ h, s.timeouts (s.waits w).timeoutId = some h ∧
    s.timers h = ⟨w, true⟩
  cleared : ∀ w h, (w, h) ∈ s.cleared → (s.timers h).wait = w
  /-- When the timer fires the wait's own future is resolved. -/
  fires : ∀ w h, Outstanding s w → s.timers h = ⟨w, true⟩ →
    (exec 0 (.timeout h) s .loop).map (fun step => (step.1.waits w).results) = some [.value]
  once : ∀ w < s.made, (s.waits w).results.length = (s.waits w).fired.toNat

structure Sane (s : State) : Prop where
  unmade : ∀ w, s.made ≤ w → s.waits w = {}
  handles : s.handles = s.made
  armed : ∀ h, (s.timers h).armed = true → h < s.made
  own : ∀ h < s.made, (s.timers h).wait = h
  awaitId : s.awaitId = none
  results : ∀ w, (s.waits w).results.length = (s.waits w).fired.toNat
  canceler : ∀ w, (s.waits w).canceler = true → (s.waits w).fired = false
  live : ∀ w < s.made, (s.waits w).fired = false → (s.waits w).callback = true
  /-- Only the newest wait may still use its id. -/
  unfinished : ∀ w, (s.waits w).callback = true → w + 1 = s.made ∧
    (s.waits w).timeoutId = 1 ∧ s.timeouts 1 = some w ∧ (s.timers w).armed = true
  cleared : ∀ w h, (w, h) ∈ s.cleared → h = w ∧ w < s.made

/-- A canceler that has still to clear its timer. -/
structure Cancelers (s : State) (agenda : List WaitCall) : Prop where
  unfinished : ∀ w, .canceler w ∈ agenda → (s.waits w).fired = true ∧ (s.waits w).callback = true
  once : ∀ w, agenda.count (.canceler w) ≤ 1

/-- The event loop goes on when nothing else is left. -/
def AtBottom (agenda : List WaitCall) : Prop := ∃ above, agenda = above ++ [.loop] ∧ .loop ∉ above

theorem Sane.keepsApart (sane : Sane s) : KeepsApart s where
  distinct v w old new same := by
    have first := (sane.unfinished v (sane.live v old.1 old.2)).1
    have second := (sane.unfinished w (sane.live w new.1 new.2)).1
    omega
  mapped w outstanding := by
    obtain ⟨-, id, stored, armed⟩ :=
      sane.unfinished w (sane.live w outstanding.1 outstanding.2)
    refine ⟨w, by rw [id, stored], ?_⟩
    have own := sane.own w outstanding.1
    cases timer : s.timers w with
    | mk owner still =>
      rw [timer] at own armed
      simp only at own armed
      rw [own, armed]
  cleared w h listed := by
    obtain ⟨rfl, below⟩ := sane.cleared w h listed
    exact sane.own h below
  fires w h outstanding timer := by
    have set := sane.live w outstanding.1 outstanding.2
    have none_yet : (s.waits w).results = [] := by
      rw [← List.length_eq_zero_iff, sane.results, outstanding.2]
      rfl
    simp [exec, timer, doCall, setTimer, setWait, resolve, set, outstanding.2, none_yet]
  once w _ := sane.results w

/-! ## Every step -/

variable {wait : Wait}

theorem setWait_setWait {wait' : Wait} : setWait w wait (setWait w wait' s) = setWait w wait s := by
  simp only [setWait, Function.update_idem]

/-- One wait changes, and does not start to use its id. -/
theorem Sane.setWait (sane : Sane s) (known : w < s.made)
    (results : wait.results.length = wait.fired.toNat)
    (canceler : wait.canceler = true → wait.fired = false)
    (live : wait.fired = false → wait.callback = true)
    (unfinished : wait.callback = true →
      (s.waits w).callback = true ∧ wait.timeoutId = (s.waits w).timeoutId) :
    Sane (setWait w wait s) := by
  have elsewhere : ∀ v, v ≠ w → (AsyncWaitEmscripten.setWait w wait s).waits v = s.waits v :=
    fun v other => Function.update_of_ne other _ _
  have here : (AsyncWaitEmscripten.setWait w wait s).waits w = wait := Function.update_self _ _ _
  refine { sane with unmade := ?_, results := ?_, canceler := ?_, live := ?_, unfinished := ?_ }
  · intro v unmade
    have unmade : s.made ≤ v := unmade
    rw [elsewhere v (by omega)]
    exact sane.unmade v unmade
  · intro v
    by_cases same : v = w
    · rw [same, here, results]
    · rw [elsewhere v same, sane.results]
  · intro v
    by_cases same : v = w
    · rw [same, here]
      exact canceler
    · rw [elsewhere v same]
      exact sane.canceler v
  · intro v made
    by_cases same : v = w
    · rw [same, here]
      exact live
    · rw [elsewhere v same]
      exact sane.live v made
  · intro v
    by_cases same : v = w
    · rw [same, here]
      intro set
      obtain ⟨before, id⟩ := unfinished set
      rw [id]
      exact sane.unfinished w before
    · rw [elsewhere v same]
      exact sane.unfinished v

/-- A timer is stopped that no callback waits for. -/
theorem Sane.disarm (sane : Sane s) (idle : (s.waits h).callback = false) :
    Sane (setTimer h { s.timers h with armed := false } s) := by
  have elsewhere : ∀ k, k ≠ h →
      (setTimer h { s.timers h with armed := false } s).timers k = s.timers k :=
    fun k other => Function.update_of_ne other _ _
  have here : (setTimer h { s.timers h with armed := false } s).timers h =
      { s.timers h with armed := false } := Function.update_self _ _ _
  refine { sane with armed := ?_, own := ?_, unfinished := ?_ }
  · intro k armed
    by_cases same : k = h
    · rw [same, here] at armed
      cases armed
    · rw [elsewhere k same] at armed
      exact sane.armed k armed
  · intro k made
    by_cases same : k = h
    · subst same
      rw [here]
      exact sane.own k made
    · rw [elsewhere k same]
      exact sane.own k made
  · intro w set
    have other : w ≠ h := by
      rintro rfl
      exact absurd (idle.symm.trans set) (by simp)
    rw [elsewhere w other]
    exact sane.unfinished w set

/-- The promise is resolved by the canceler. -/
theorem Sane.resolve (sane : Sane s) (unfired : (s.waits w).fired = false) (known : w < s.made) :
    Sane (resolve w outcome s) := by
  apply sane.setWait known
  case results =>
    rw [List.length_append, sane.results, unfired]
    rfl
  case canceler => simp
  case live => simp
  case unfinished => exact fun set => ⟨set, rfl⟩

/-- The callback of a resolved wait is dropped. -/
theorem Sane.dropCallback (sane : Sane s) (known : w < s.made) (fired : (s.waits w).fired = true) :
    Sane (AsyncWaitEmscripten.setWait w { s.waits w with callback := false } s) := by
  apply sane.setWait known
  case results => exact sane.results w
  case canceler => exact sane.canceler w
  case live =>
    intro unfired
    exact absurd (fired.symm.trans unfired) (by simp)
  case unfinished => simp

/-- The timer of a wait fires. -/
theorem Sane.doCall (sane : Sane s) (known : w < s.made) :
    Sane (setTimer w { s.timers w with armed := false } (doCall w s).1) := by
  cases fired : (s.waits w).fired with
  | true =>
    have over_already : (AsyncWaitEmscripten.doCall w s).1 =
        AsyncWaitEmscripten.setWait w { s.waits w with callback := false } s := by
      simp only [AsyncWaitEmscripten.doCall, fired, if_true]
      split <;> rfl
    rw [over_already]
    exact (sane.dropCallback known fired).disarm (by simp [AsyncWaitEmscripten.setWait])
  | false =>
    have set := sane.live w known fired
    have resolved : (AsyncWaitEmscripten.doCall w s).1 = AsyncWaitEmscripten.setWait w
        { s.waits w with callback := false, fired := true, canceler := false
                         results := (s.waits w).results ++ [.value] } s := by
      simp only [AsyncWaitEmscripten.doCall, set, fired, if_true, AsyncWaitEmscripten.resolve,
        Bool.false_eq_true, if_false, setWait_setWait]
      simp [AsyncWaitEmscripten.setWait]
    rw [resolved]
    have done : Sane (AsyncWaitEmscripten.setWait w
        { s.waits w with callback := false, fired := true, canceler := false
                         results := (s.waits w).results ++ [.value] } s) := by
      apply sane.setWait known
      case results =>
        rw [List.length_append, sane.results, fired]
        rfl
      case canceler => simp
      case live => simp
      case unfinished => simp
    exact done.disarm (by simp [AsyncWaitEmscripten.setWait])

/-- The canceler of the newest wait clears its own timer. -/
theorem Sane.clear (sane : Sane s) (fired : (s.waits w).fired = true)
    (set : (s.waits w).callback = true) : Sane (clear w s) := by
  obtain ⟨newest, id, stored, -⟩ := sane.unfinished w set
  have known : w < s.made := by omega
  have disarmed : Sane (setTimer w { s.timers w with armed := false }
      (AsyncWaitEmscripten.setWait w { s.waits w with callback := false } s)) :=
    (sane.dropCallback known fired).disarm (by simp [AsyncWaitEmscripten.setWait])
  have idle : ∀ v, (Function.update s.waits w { s.waits w with callback := false } v).callback =
      false := by
    intro v
    by_cases same : v = w
    · simp [same]
    · rw [Function.update_of_ne same]
      by_contra on
      have later := (sane.unfinished v (by simpa using on)).1
      omega
  have clears : AsyncWaitEmscripten.clear w s =
      { setTimer w { s.timers w with armed := false }
          (AsyncWaitEmscripten.setWait w { s.waits w with callback := false } s) with
        timeouts := Function.update s.timeouts 1 none, cleared := s.cleared ++ [(w, w)] } := by
    simp [AsyncWaitEmscripten.clear, AsyncWaitEmscripten.setWait, setTimer, id, stored]
  rw [clears]
  refine { disarmed with unfinished := ?_, cleared := ?_ }
  · intro v on
    exact absurd ((idle v).symm.trans on) (by simp)
  · intro v h listed
    rcases List.mem_append.mp listed with earlier | now
    · exact sane.cleared v h earlier
    · obtain ⟨rfl, rfl⟩ : v = w ∧ h = w := by simpa using now
      exact ⟨rfl, known⟩

/-- Every wait gets the first id. -/
theorem asyncWait_spec (awaitId : s.awaitId = none) : asyncWait s = { s with
    waits := Function.update s.waits s.made { callback := true, canceler := true, timeoutId := 1 }
    made := s.made + 1
    timers := Function.update s.timers s.handles ⟨s.made, true⟩
    handles := s.handles + 1
    lastTimeoutId := 2
    timeouts := Function.update (fun _ => none) 1 (some s.handles) } := by
  simp [asyncWait, initModule, setTimeout, setTimer, setWait, awaitId]

/-- A new wait, when all others are done with the id. -/
theorem Sane.asyncWait (sane : Sane s) (alone : ∀ w < s.made, (s.waits w).callback = false) :
    Sane (asyncWait s) := by
  have idle : ∀ w, (s.waits w).callback = false := by
    intro w
    by_cases made : w < s.made
    · exact alone w made
    · rw [sane.unmade w (by omega)]
  rw [asyncWait_spec sane.awaitId, sane.handles]
  constructor
  case unmade =>
    intro w unmade
    have unmade : s.made + 1 ≤ w := unmade
    exact (Function.update_of_ne (by omega) _ _).trans (sane.unmade w (by omega))
  case handles => rfl
  case armed =>
    intro h armed
    by_cases same : h = s.made
    · exact same ▸ Nat.lt_succ_self _
    · simp only [Function.update_of_ne same] at armed
      exact Nat.lt_succ_of_lt (sane.armed h armed)
  case own =>
    intro h made
    have made : h < s.made + 1 := made
    by_cases same : h = s.made
    · simp [same]
    · simp only [Function.update_of_ne same]
      exact sane.own h (by omega)
  case awaitId => exact sane.awaitId
  case results =>
    intro w
    by_cases same : w = s.made
    · simp [same]
    · simp only [Function.update_of_ne same]
      exact sane.results w
  case canceler =>
    intro w
    by_cases same : w = s.made
    · simp [same]
    · simp only [Function.update_of_ne same]
      exact sane.canceler w
  case live =>
    intro w made
    have made : w < s.made + 1 := made
    by_cases same : w = s.made
    · simp [same]
    · simp only [Function.update_of_ne same]
      exact sane.live w (by omega)
  case unfinished =>
    intro w
    by_cases same : w = s.made
    · simp [same]
    · simp [Function.update_of_ne same, idle]
  case cleared =>
    intro w h listed
    obtain ⟨same, known⟩ := sane.cleared w h listed
    exact ⟨same, Nat.lt_succ_of_lt known⟩

theorem AtBottom.alone (bottom : AtBottom (.loop :: rest)) : rest = [] := by
  obtain ⟨above, split, inside⟩ := bottom
  cases above with
  | nil => exact (List.cons.inj split).2
  | cons first above =>
    obtain ⟨rfl, -⟩ := List.cons.inj split
    exact absurd List.mem_cons_self inside

theorem AtBottom.goOn (bottom : AtBottom (call :: rest)) (other : call ≠ .loop)
    (inside : .loop ∉ calls) : AtBottom (calls ++ rest) := by
  obtain ⟨above, split, outside⟩ := bottom
  cases above with
  | nil => exact absurd (List.cons.inj split).1 other
  | cons first above =>
    obtain ⟨rfl, rfl⟩ := List.cons.inj split
    refine ⟨calls ++ above, by simp, fun member => ?_⟩
    rcases List.mem_append.mp member with member | member
    · exact inside member
    · exact outside (List.mem_cons_of_mem _ member)

theorem Cancelers.tail (cancelers : Cancelers s (call :: rest)) : Cancelers s rest where
  unfinished w member := cancelers.unfinished w (List.mem_cons_of_mem _ member)
  once w := (List.count_le_count_cons).trans (cancelers.once w)

/-- A canceler starts to wait for its future's continuations. -/
theorem Cancelers.resolve (cancelers : Cancelers s agenda) (unfired : (s.waits w).fired = false)
    (set : (s.waits w).callback = true) :
    Cancelers (resolve w outcome s) (.user :: .canceler w :: agenda) := by
  have elsewhere : ∀ v, v ≠ w → (AsyncWaitEmscripten.resolve w outcome s).waits v = s.waits v :=
    fun v other => Function.update_of_ne other _ _
  have fresh : .canceler w ∉ agenda := by
    intro member
    have fired := (cancelers.unfinished w member).1
    exact absurd (unfired.symm.trans fired) (by simp)
  constructor
  · intro v member
    by_cases same : v = w
    · subst same
      simp [AsyncWaitEmscripten.resolve, setWait, set]
    · rw [elsewhere v same]
      apply cancelers.unfinished v
      simpa [same] using member
  · intro v
    by_cases same : v = w
    · subst same
      simp [List.count_eq_zero.mpr fresh]
    · simpa [List.count_cons, Ne.symm same] using cancelers.once v

/-- A timer is disarmed before its wait is called. -/
theorem doCall_setTimer {timer : Timer} :
    (doCall w (setTimer h timer s)).1 = setTimer h timer (doCall w s).1 := by
  cases set : (s.waits w).callback with
  | true =>
    cases fired : (s.waits w).fired with
    | true => simp [doCall, setTimer, set, fired, setWait]
    | false => simp [doCall, setTimer, set, fired, setWait, resolve]
  | false => simp [doCall, setTimer, set, setWait]

theorem doCall_calls : (doCall w s).2 = [] ∨ (doCall w s).2 = [.user] := by
  simp only [doCall]
  split
  · split
    · exact Or.inl rfl
    · exact Or.inr rfl
  · exact Or.inl rfl

theorem sane_step {thread : ℕ} (sane : Sane s) (cancelers : Cancelers s (call :: rest))
    (bottom : AtBottom (call :: rest)) (permitted : WaitsAlone s call choice)
    (ran : exec thread choice s call = some (s', calls)) :
    Sane s' ∧ Cancelers s' (calls ++ rest) ∧ AtBottom (calls ++ rest) := by
  cases call with
  | loop =>
    obtain rfl := bottom.alone
    cases choice with
    | task =>
      cases ran
      exact ⟨sane, ⟨by simp, by simp⟩, ⟨[.user], rfl, by simp⟩⟩
    | timeout h =>
      simp only [exec] at ran
      split at ran
      · rename_i armed
        have known := sane.armed h armed
        have own := sane.own h known
        obtain ⟨rfl, rfl⟩ := Prod.mk.inj (Option.some.inj ran)
        have kept := sane.doCall known
        rw [doCall_setTimer]
        simp only [own] at kept ⊢
        refine ⟨kept, ?_, ?_⟩
        · rcases doCall_calls with nothing | user
          · rw [nothing]
            exact ⟨by simp, by simp⟩
          · rw [user]
            exact ⟨by simp, by simp⟩
        · rcases doCall_calls with nothing | user
          · rw [nothing]
            exact ⟨[], rfl, by simp⟩
          · rw [user]
            exact ⟨[.user], rfl, by simp⟩
      · cases ran
    | «return» | asyncWait | requestCancel => cases ran
  | user =>
    cases choice with
    | «return» =>
      cases ran
      exact ⟨sane, cancelers.tail, bottom.goOn (by simp) (by simp)⟩
    | asyncWait =>
      cases ran
      have alone := permitted rfl
      refine ⟨sane.asyncWait alone, ⟨fun w member => ?_, fun w => ?_⟩, bottom⟩
      · have set := (cancelers.unfinished w member).2
        have known := (sane.unfinished w set).1
        rw [alone w (by omega)] at set
        cases set
      · exact cancelers.once w
    | requestCancel w =>
      simp only [exec] at ran
      split at ran
      · rename_i known
        obtain ⟨rfl, rfl⟩ := Prod.mk.inj (Option.some.inj ran)
        split
        · rename_i pushed
          have unfired := sane.canceler w pushed
          rw [cancel, if_neg (by rw [unfired]; simp)]
          refine ⟨sane.resolve unfired known, ?_, bottom.goOn (by simp) (by simp)⟩
          exact cancelers.resolve unfired (sane.live w known unfired)
        · exact ⟨sane, cancelers, bottom⟩
      · cases ran
    | task | timeout => cases ran
  | canceler w =>
    obtain rfl : calls = [] := by cases choice <;> cases ran <;> rfl
    obtain rfl : s' = clear w s := by cases choice <;> cases ran <;> rfl
    obtain ⟨fired, set⟩ := cancelers.unfinished w List.mem_cons_self
    have newest := (sane.unfinished w set).1
    refine ⟨sane.clear fired set, ⟨fun v member => ?_, fun v => cancelers.tail.once v⟩,
      bottom.goOn (by simp) (by simp)⟩
    have later := (sane.unfinished v (cancelers.tail.unfinished v member).2).1
    obtain rfl : v = w := by omega
    have twice := cancelers.once v
    have again := List.count_pos_iff.mpr member
    rw [List.count_cons_self] at twice
    simp only [List.nil_append] at again
    omega

/-! ## Every run -/

variable {config : Config State WaitCall}

theorem sane_of_reachable (reached : Reachable exec WaitsAlone start config) :
    Sane config.state := by
  have initial : Sane {} := by constructor <;> simp
  obtain ⟨agenda, -, sane, -⟩ := reached.invariant_agenda
    (fun s agenda => Sane s ∧ Cancelers s agenda ∧ AtBottom agenda)
    ⟨initial, ⟨by simp, by simp⟩, ⟨[], rfl, by simp⟩⟩
    fun _ _ _ _ _ _ _ holds permitted ran =>
      sane_step holds.1 holds.2.1 holds.2.2 permitted ran
  exact sane

/-- **Timers are kept apart** if no wait is started before the last one has finished. -/
theorem keepsApart_of_waitsAlone (reached : Reachable exec WaitsAlone start config) :
    KeepsApart config.state :=
  (sane_of_reachable reached).keepsApart

/-- A second wait gets the id of the first one. -/
theorem Sane.collides (sane : Sane s) (outstanding : Outstanding s w) :
    ¬ KeepsApart (AsyncWaitEmscripten.asyncWait s) := by
  intro apart
  obtain ⟨-, id, -, -⟩ := sane.unfinished w (sane.live w outstanding.1 outstanding.2)
  have known := outstanding.1
  rw [asyncWait_spec sane.awaitId] at apart
  have same := apart.distinct w s.made
    ⟨Nat.lt_succ_of_lt known, by simp [Function.update_of_ne (Nat.ne_of_lt known), outstanding.2]⟩
    ⟨Nat.lt_succ_self _, by simp⟩
    (by simp [Function.update_of_ne (Nat.ne_of_lt known), id])
  omega

def waitsAlone (s : State) (_ : WaitCall) (choice : Choice) : Bool :=
  choice != .asyncWait || (List.range s.made).all fun w => !(s.waits w).callback

theorem waitsAlone_sound (s : State) (call : WaitCall) (choice : Choice)
    (permitted : waitsAlone s call choice = true) : WaitsAlone s call choice := by
  rintro rfl w known
  have all : ∀ w < s.made, (s.waits w).callback = false := by simpa [waitsAlone] using permitted
  exact all w known

/-- One wait is cancelled, another fires, and a third one is outstanding. -/
theorem keepsApart_three : ∃ config : Config State WaitCall,
    (config.state.waits 0).results = [.operationCanceled] ∧
      (config.state.waits 1).results = [.value] ∧ Outstanding config.state 2 ∧
      KeepsApart config.state := by
  have ran : (start.runWithin exec waitsAlone
      [(0, .task), (0, .asyncWait), (0, .requestCancel 0), (0, .return), (0, .return),
        (0, .asyncWait), (0, .return), (0, .timeout 1), (0, .asyncWait)]).map
      (fun config => decide ((config.state.waits 0).results = [.operationCanceled] ∧
        (config.state.waits 1).results = [.value] ∧
        2 < config.state.made ∧ (config.state.waits 2).fired = false)) = some true := by
    decide
  obtain ⟨config, reached, holds⟩ := reachable_of_replay_within waitsAlone_sound _ _ ran
  obtain ⟨canceled, fired, known, waiting⟩ := of_decide_eq_true holds
  exact ⟨config, canceled, fired, ⟨known, waiting⟩, keepsApart_of_waitsAlone reached⟩

/-- Two waits are outstanding under one id, and cancelling the first clears the timer of the
second, which is never resolved. -/
theorem second_wait_loses_timer : ∃ config : Config State WaitCall,
    Reachable exec Anything start config ∧ Outstanding config.state 1 ∧
      (0, 1) ∈ config.state.cleared ∧ config.state.timers 1 = ⟨1, false⟩ ∧
      ¬ KeepsApart config.state := by
  have ran : (start.run exec [(0, .task), (0, .asyncWait), (0, .asyncWait), (0, .requestCancel 0),
      (0, .return), (0, .return)]).map (fun config => decide (1 < config.state.made ∧
        (config.state.waits 1).fired = false ∧ (0, 1) ∈ config.state.cleared ∧
        config.state.timers 1 = ⟨1, false⟩)) = some true := by
    decide
  obtain ⟨config, reached, holds⟩ := reachable_of_replay _ _ ran
  obtain ⟨known, waiting, cleared, timer⟩ := of_decide_eq_true holds
  refine ⟨config, reached, ⟨known, waiting⟩, cleared, timer, fun apart => ?_⟩
  have owner := apart.cleared 0 1 cleared
  rw [timer] at owner
  cases owner

/-- The continuation of a cancelled wait starts another, whose timer the canceler clears. -/
theorem wait_from_continuation_loses_timer : ∃ config : Config State WaitCall,
    Reachable exec Anything start config ∧ Outstanding config.state 1 ∧
      config.state.timers 1 = ⟨1, false⟩ := by
  have ran : (start.run exec [(0, .task), (0, .asyncWait), (0, .requestCancel 0), (0, .asyncWait),
      (0, .return), (0, .return)]).map (fun config => decide (1 < config.state.made ∧
        (config.state.waits 1).fired = false ∧ config.state.timers 1 = ⟨1, false⟩)) =
      some true := by
    decide
  obtain ⟨config, reached, holds⟩ := reachable_of_replay _ _ ran
  obtain ⟨known, waiting, timer⟩ := of_decide_eq_true holds
  exact ⟨config, reached, ⟨known, waiting⟩, timer⟩

end Tconcurrent.AsyncWaitEmscripten
