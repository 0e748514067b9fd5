import Tconcurrent.StackfulCoroutineSteps

/-! When a stackful coroutine is resumed.

`run_coroutine` finds the coroutine suspended, and no await goes on after a request,
as long as the coroutine does not enter an await once cancelation was requested:
`set_canceler` calls the canceler of that await at once, in the coroutine itself. -/
namespace Tconcurrent.StackfulCoroutine
open Interleaving

variable {s s' : State} {call : CoroutineCall} {calls rest : List CoroutineCall} {choice : Choice}
  {isSender : ℕ → Bool} {config : Config State CoroutineCall}

/-- The executor is at the bottom of the agenda; above it is what one task does.
After a crash nothing runs. -/
inductive Placed (s : State) : List CoroutineCall → Prop where
  | sane {above : List CoroutineCall} (sane : Sane s ↑above) : Placed s (above ++ [.executor])
  | crashed {rest : List CoroutineCall} (watched : Watched s) : Placed s (.crashed :: rest)

theorem Placed.watched {agenda : List CoroutineCall} (placed : Placed s agenda) : Watched s := by
  cases placed with
  | sane sane => exact sane.watched
  | crashed watched => exact watched

/-- One step of the calls above the executor. -/
theorem above_step {thread : ℕ} {others : Multiset CoroutineCall}
    (sane : Sane s (call ::ₘ others))
    (clean : AwaitsUncanceled s call choice) (ran : exec thread choice s call = some (s', calls)) :
    Sane s' (↑calls + others) ∨ calls = [.crashed] ∧ Watched s' := by
  cases call with
  | user => exact Or.inl (user_step sane ran)
  | body => exact Or.inl (body_step sane clean ran)
  | exitCoroutine =>
    cases ran
    left
    simpa using exitCoroutine_step sane
  | resumeWork =>
    cases ran
    left
    simpa using resumeWork_step sane
  | submitted =>
    cases ran
    left
    simpa using submitted_step sane
  | cancelAwait k =>
    have made : cancelAwait k s = (s', calls) := Option.some.inj ran
    rcases cancelAwait_step sane made with ⟨-, stepped⟩ | ⟨-, crash⟩
    · exact Or.inl stepped
    · exact Or.inr crash
  | executor | crashed => exact (sane.fits _ (Multiset.mem_cons_self _ _)).elim

/-- One step of the executor: it takes the next task when nothing else is going on. -/
theorem executor_step (sane : Sane s 0) (ran : executor s choice = some (s', calls)) :
    Placed s' calls := by
  cases choice with
  | task =>
    cases ran
    have inside : Sane s ↑[CoroutineCall.user] := by simpa using sane.user
    exact .sane inside
  | continuation k =>
    simp only [executor] at ran
    split at ran
    · rename_i listed
      generalize continued : continuation k { s with queue := s.queue.erase k } = stepped at ran
      obtain ⟨after, inside⟩ := stepped
      cases ran
      rcases continuation_step sane listed continued with resumed | ⟨-, rfl, watched⟩
      · exact .sane resumed
      · exact .crashed watched
    · cases ran
  | _ => cases ran

theorem placed_step {thread : ℕ} (placed : Placed s (call :: rest))
    (clean : AwaitsUncanceled s call choice)
    (ran : exec thread choice s call = some (s', calls)) : Placed s' (calls ++ rest) := by
  generalize agenda : call :: rest = whole at placed
  cases placed with
  | crashed watched =>
    cases agenda
    cases ran
  | @sane above sane =>
    cases above with
    | nil =>
      cases agenda
      rw [List.append_nil]
      exact executor_step sane ran
    | cons head above =>
      cases agenda
      rw [← Multiset.cons_coe] at sane
      rcases above_step sane clean ran with sane' | ⟨rfl, watched⟩
      · have inside : Sane s' ↑(calls ++ above) := by simpa using sane'
        simpa using Placed.sane inside
      · exact .crashed watched

theorem sane_start (isSender : ℕ → Bool) : Sane { isSender } 0 where
  watched := ⟨rfl, nofun⟩
  awaits := ⟨nofun, fun _ _ => ⟨rfl, rfl, rfl⟩, nofun, nofun, nofun, List.nodup_nil,
    fun _ => Nat.zero_le 1⟩
  ends := ⟨rfl, rfl, nofun, ⟨nofun, fun ⟨unwinding, _⟩ => nomatch unwinding⟩⟩
  canceler := rfl
  active := rfl
  cancels := Nat.zero_le 1
  fits := by simp

theorem placed_of_reachable (reached : Reachable exec AwaitsUncanceled (start isSender) config) :
    ∃ agenda, config.threads = [agenda] ∧ Placed config.state agenda := by
  have initial : Sane { isSender } ↑([] : List CoroutineCall) := sane_start isSender
  exact reached.invariant_agenda Placed (.sane initial)
    fun _ _ _ _ _ _ _ placed clean ran => placed_step placed clean ran

/-- **A coroutine is resumed where it is suspended**, and no await or yield goes on
after a request, in every run in which no await is entered after one. -/
theorem watched_of_awaitsUncanceled
    (reached : Reachable exec AwaitsUncanceled (start isSender) config) : Watched config.state := by
  obtain ⟨agenda, -, placed⟩ := placed_of_reachable reached
  exact placed.watched

/-- The condition can be checked. -/
def awaitsUncanceled (s : State) : CoroutineCall → Choice → Bool
  | .body, .awaitFuture k => !s.canceled || s.resolved k
  | .body, .awaitSender _ => !s.canceled
  | _, _ => true

theorem awaitsUncanceled_sound (s : State) (call : CoroutineCall) (choice : Choice)
    (checked : awaitsUncanceled s call choice = true) : AwaitsUncanceled s call choice := by
  cases call with
  | body =>
    cases choice with
    | awaitFuture k =>
      intro canceled
      simpa [awaitsUncanceled, canceled] using checked
    | awaitSender k => simpa [awaitsUncanceled, AwaitsUncanceled] using checked
    | _ => trivial
  | _ => trivial

/-- The coroutine awaits a ready future, cancels itself and yields. -/
theorem watched_canceledInside : ∃ config : Config State CoroutineCall,
    Watched config.state ∧
      config.state.history = [(false, .result), (true, .operationCanceled)] := by
  have ran : ((start fun _ => false).runWithin exec awaitsUncanceled
      [(0, .task), (0, .submit false), (0, .resolve 0), (0, .awaitFuture 0), (0, .requestCancel),
        (0, .yield 1)]).map (fun config => decide (config.state.history =
          [(false, .result), (true, .operationCanceled)])) = some true := by decide
  obtain ⟨config, reached, holds⟩ := reachable_of_replay_within awaitsUncanceled_sound _ _ ran
  exact ⟨config, watched_of_awaitsUncanceled reached, of_decide_eq_true holds⟩

/-- The coroutine cancels itself and awaits a pending future: the canceler of the await
resumes the coroutine, which is running. -/
theorem await_after_request_resumes_running : ∃ config : Config State CoroutineCall,
    Reachable exec Anything (start fun _ => false) config ∧ config.state.phase = .running ∧
      ¬ Watched config.state := by
  have ran : ((start fun _ => false).run exec
      [(0, .task), (0, .submit false), (0, .requestCancel), (0, .awaitFuture 0), (0, .return),
        (0, .return)]).map (fun config => decide (config.state.phase = .running ∧
          config.state.badResume = true)) = some true := by decide
  obtain ⟨config, reached, holds⟩ := reachable_of_replay _ _ ran
  obtain ⟨running, bad⟩ := of_decide_eq_true holds
  refine ⟨config, reached, running, fun watched => ?_⟩
  rw [watched.resumes] at bad
  cases bad

end Tconcurrent.StackfulCoroutine
