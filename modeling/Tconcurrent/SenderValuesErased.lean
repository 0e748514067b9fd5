import Tconcurrent.SenderValues

/-! Compositions of senders without their values are those of `SenderComposition`, step by
step, so they signal exactly once. -/
namespace Tconcurrent.SenderValues
open Interleaving Completion

variable {V E : Type} {s s' : State V E} {others pending : Multiset (SenderCall V E)}
  {call : SenderCall V E} {calls : List (SenderCall V E)} {choice : Choice V E} {i : ℕ}
  {r : Receiver V E} {sender : Sender V E} {completion : Completion V E}

/-- No timer of an `async_wait` runs before the canceler is set. -/
def FiresInstalled (s : State V E) (_ : SenderCall V E) (choice : Choice V E) : Prop :=
  ∀ i completion, choice = .fire i completion → (s.leaves i).kind = .asyncWait →
    (s.leaves i).installed = true

/-- The configuration in `SenderComposition`. -/
def eraseConfig (config : Config (State V E) (SenderCall V E)) :
    Config SenderComposition.State SenderComposition.SenderCall :=
  config.map (·.erase) (·.erase)

def Choice.erase : Choice V E → SenderComposition.Choice
  | .return => .return
  | .submit => .submit
  | .requestCancel => .requestCancel
  | .fire i completion => .fire i (signalOf completion)
  | .install => .install
  | .bare => .bare
  | .ignore => .ignore

theorem erase_setLeaf (leaf : Leaf V E) :
    (s.setLeaf i leaf).erase = s.erase.setLeaf i leaf.erase := by
  simp only [State.erase, State.setLeaf, SenderComposition.State.setLeaf,
    SenderComposition.State.mk.injEq, true_and, and_true]
  funext j
  by_cases same : j = i
  · subst same
    simp
  · simp [same]

theorem erase_newLeaf (leaf : Leaf V E) : (s.newLeaf leaf).erase = s.erase.newLeaf leaf.erase := by
  simp only [State.erase, State.newLeaf, SenderComposition.State.newLeaf,
    SenderComposition.State.mk.injEq, true_and, and_true]
  funext j
  by_cases same : j = s.next
  · subst same
    simp
  · simp [same]

theorem erase_fireLeaf :
    SenderComposition.fireLeaf i (signalOf completion) s.erase =
      ((fireLeaf i completion s).1.erase, (fireLeaf i completion s).2.map (·.erase)) := by
  unfold fireLeaf SenderComposition.fireLeaf
  have fired : (s.erase.leaves i).fired = (s.leaves i).fired := rfl
  dsimp only
  rw [fired]
  split
  · rfl
  · rw [erase_setLeaf]
    rfl

theorem erase_requestCancel :
    SenderComposition.requestCancel s.erase =
      ((requestCancel s).1.erase, (requestCancel s).2.map (·.erase)) := by
  unfold requestCancel SenderComposition.requestCancel
  have canceled : s.erase.canceled = s.canceled := rfl
  have canceler : s.erase.canceler = s.canceler := rfl
  rw [canceled, canceler]
  split
  · rfl
  · cases s.canceler <;> rfl

theorem isUser_erase (leaf : Leaf V E) : leaf.erase.kind = .user ↔ leaf.kind.isUser = true := by
  obtain ⟨kind, -⟩ := leaf
  cases kind <;> simp [Leaf.erase, Kind.erase, Kind.isUser]

theorem erase_submit (ran : submit sender r choice s = some (s', calls)) :
    SenderComposition.submit sender.erase (r.map (·.erase)) choice.erase s.erase =
      some (s'.erase, calls.map (·.erase)) := by
  cases sender with
  | async | asyncWait =>
    cases ran
    rw [erase_newLeaf]
    rfl
  | user signals =>
    cases choice with
    | install | bare =>
      cases ran
      rw [erase_newLeaf]
      rfl
    | _ => cases ran
  | «then» | asyncThen | connect | wrap =>
    cases ran
    rfl

theorem erase_signal :
    SenderComposition.signal (signalOf completion) (r.map (·.erase)) s.erase =
      ((signal completion r s).1.erase, (signal completion r s).2.map (·.erase)) := by
  cases r with
  | nil =>
    simp [signal, SenderComposition.signal, State.erase, State.reset,
      SenderComposition.State.reset, SenderCall.erase]
  | cons stage r => cases stage <;> cases completion <;> rfl

theorem erase_enter {requested : Bool} {v : V} {stage : Stage V E} :
    SenderComposition.enter requested stage.erase (r.map (·.erase)) s.erase =
      ((enter requested v stage r s).1.erase,
        (enter requested v stage r s).2.map (·.erase)) := by
  cases stage <;> rfl

theorem erase_check {requested : Bool} {v : V} {stage : Stage V E} :
    SenderComposition.check requested stage.erase (r.map (·.erase)) s.erase =
      ((check requested v stage r s).1.erase,
        (check requested v stage r s).2.map (·.erase)) := by
  unfold check SenderComposition.check
  have canceled : s.erase.canceled = s.canceled := rfl
  rw [canceled]
  split <;> rfl

theorem erase_setCanceler :
    SenderComposition.setCanceler i s.erase =
      ((setCanceler i s).1.erase, (setCanceler i s).2.map (·.erase)) := by
  have armed : (s.erase.leaves i).armed = (s.leaves i).armed := rfl
  have canceled : s.erase.canceled = s.canceled := rfl
  have set := @erase_setLeaf V E s i { s.leaves i with installed := true }
  unfold SenderComposition.setCanceler
  refine Prod.ext ?_ ?_
  · exact congrArg (fun set : SenderComposition.State => { set with
      canceler := some i
      assertFailed := s.assertFailed || s.canceler.isSome }) set.symm
  · simp only [armed, canceled, setCanceler, List.map_append]
    split <;> split <;> rfl

theorem erase_cancelLeaf :
    SenderComposition.cancelLeaf i choice.erase s.erase =
      ((cancelLeaf i s choice).1.erase, (cancelLeaf i s choice).2.map (·.erase)) := by
  have kind : (s.erase.leaves i).kind = .user ↔ (s.leaves i).kind.isUser = true :=
    isUser_erase _
  have fires : SenderComposition.fireLeaf i .done s.erase =
      ((fireLeaf i .done s).1.erase, (fireLeaf i .done s).2.map (·.erase)) :=
    @erase_fireLeaf V E s i .done
  unfold SenderComposition.cancelLeaf
  cases choice with
  | ignore =>
    simp only [cancelLeaf, kind, Choice.erase, and_true]
    split
    · rfl
    · exact fires
  | _ => simpa [cancelLeaf, Choice.erase] using fires

/-- A step that is certain. -/
theorem erase_step {step : SenderStep V E} {step' : SenderComposition.SenderStep}
    (same : step' = (step.1.erase, step.2.map (·.erase))) (ran : some step = some (s', calls)) :
    some step' = some (s'.erase, calls.map (·.erase)) := by
  cases ran
  rw [same]

theorem erase_user [Inhabited V] (ran : user s choice = some (s', calls)) :
    ∃ choice' : SenderComposition.Choice,
      (∀ i sig, choice' = .fire i sig → ∃ completion, choice = .fire i completion) ∧
      SenderComposition.user s.erase choice' = some (s'.erase, calls.map (·.erase)) := by
  cases choice with
  | «return» =>
    cases ran
    exact ⟨.return, by simp, rfl⟩
  | submit =>
    refine ⟨.submit, by simp, ?_⟩
    simp only [user] at ran
    split at ran
    · cases ran
    · rename_i fresh
      cases ran
      have submitted : s.erase.submitted = s.submitted := rfl
      simp only [SenderComposition.user, submitted, fresh]
      rfl
  | requestCancel =>
    cases ran
    refine ⟨.requestCancel, by simp, ?_⟩
    simp only [SenderComposition.user, erase_requestCancel, List.map_append]
    rfl
  | fire i completion =>
    simp only [user] at ran
    split at ran
    · rename_i inside
      obtain ⟨sent, signals, same⟩ := Option.map_eq_some_iff.mp ran
      cases same
      refine ⟨.fire i (signalOf sent), fun j sig same => ?_, ?_⟩
      · cases same
        exact ⟨completion, rfl⟩
      · have kind : (s.leaves i).kind.erase = .user ∨ signalOf sent = .value := by
          cases kind : (s.leaves i).kind with
          | user _ => exact .inl rfl
          | async | asyncWait =>
            rw [kind] at signals
            cases signals
            exact .inr rfl
        have fits : i < s.erase.next ∧ (s.erase.leaves i).armed = true ∧
            ((s.erase.leaves i).kind = .user ∨ signalOf sent = .value) :=
          ⟨inside.1, inside.2, kind⟩
        simp only [SenderComposition.user, if_pos fits, erase_fireLeaf, List.map_append]
        rfl
    · cases ran
  | _ => cases ran

theorem erase_function {result : Except E V} (ran : function result r s choice = some (s', calls)) :
    ∃ choice' : SenderComposition.Choice, (∀ i sig, choice' ≠ .fire i sig) ∧
      SenderComposition.function (r.map (·.erase)) s.erase choice' =
        some (s'.erase, calls.map (·.erase)) := by
  cases choice with
  | «return» =>
    cases ran
    cases result with
    | ok v => exact ⟨.return, by simp, rfl⟩
    | error e => exact ⟨.throw, by simp, rfl⟩
  | requestCancel =>
    cases ran
    refine ⟨.requestCancel, by simp, ?_⟩
    simp only [SenderComposition.function, erase_requestCancel, List.map_append]
    rfl
  | _ => cases ran

theorem erase_asyncFunction {answer : Answer V E}
    (ran : asyncFunction answer r s choice = some (s', calls)) :
    ∃ choice' : SenderComposition.Choice, (∀ i sig, choice' ≠ .fire i sig) ∧
      SenderComposition.asyncFunction (r.map (·.erase)) s.erase choice' =
        some (s'.erase, calls.map (·.erase)) := by
  cases choice with
  | «return» =>
    cases answer with
    | throw e =>
      cases ran
      exact ⟨.throw, by simp, rfl⟩
    | submit sender =>
      cases ran
      exact ⟨.submitTo sender.erase, by simp, rfl⟩
  | requestCancel =>
    cases ran
    refine ⟨.requestCancel, by simp, ?_⟩
    simp only [SenderComposition.asyncFunction, erase_requestCancel, List.map_append]
    rfl
  | _ => cases ran

/-- Each step is one of `SenderComposition`. -/
theorem erase_exec [Inhabited V] {thread : ℕ} (ran : exec thread choice s call = some (s', calls)) :
    ∃ choice' : SenderComposition.Choice,
      (∀ i sig, choice' = .fire i sig → ∃ completion, choice = .fire i completion) ∧
      SenderComposition.exec thread choice' s.erase call.erase =
        some (s'.erase, calls.map (·.erase)) := by
  cases call with
  | user => exact erase_user ran
  | submit sender r =>
    refine ⟨choice.erase, fun i sig same => ?_, erase_submit ran⟩
    cases choice <;> cases same
    exact ⟨_, rfl⟩
  | setCanceler i => exact ⟨.return, by simp, erase_step erase_setCanceler ran⟩
  | arm i =>
    cases ran
    refine ⟨.return, by simp, ?_⟩
    simp only [SenderComposition.exec, SenderCall.erase, erase_setLeaf]
    rfl
  | cancelLeaf i =>
    refine ⟨choice.erase, fun i sig same => ?_, erase_step erase_cancelLeaf ran⟩
    cases choice <;> cases same
    exact ⟨_, rfl⟩
  | signal completion r => exact ⟨.return, by simp, erase_step erase_signal ran⟩
  | check requested v stage r => exact ⟨.return, by simp, erase_step erase_check ran⟩
  | enter requested v stage r => exact ⟨.return, by simp, erase_step erase_enter ran⟩
  | function result r =>
    obtain ⟨choice', others, same⟩ := erase_function ran
    exact ⟨choice', fun i sig fires => absurd fires (others i sig), same⟩
  | asyncFunction answer r =>
    obtain ⟨choice', others, same⟩ := erase_asyncFunction ran
    exact ⟨choice', fun i sig fires => absurd fires (others i sig), same⟩

theorem erase_start (sender : Sender V E) (threads : ℕ) :
    eraseConfig (start sender threads) = SenderComposition.start sender.erase threads := by
  simp only [eraseConfig, start, SenderComposition.start, Config.map, List.map_replicate]
  rfl

/-- The run without the values. -/
theorem erase_reachable [Inhabited V] {threads : ℕ} {config : Config (State V E) (SenderCall V E)}
    (reached : Reachable exec FiresInstalled (start sender threads) config) :
    Reachable SenderComposition.exec SenderComposition.FiresInstalled
      (SenderComposition.start sender.erase threads) (eraseConfig config) := by
  rw [← erase_start]
  refine reached.simulated _ _ fun thread choice s call s' calls timely ran => ?_
  obtain ⟨choice', fires, ran'⟩ := erase_exec ran
  refine ⟨choice', fun i sig fired kind => ?_, ran'⟩
  obtain ⟨completion, same⟩ := fires i sig fired
  refine timely i completion same ?_
  cases waits : (s.leaves i).kind with
  | asyncWait => rfl
  | async | user =>
    simp [State.erase, Leaf.erase, waits, Kind.erase] at kind

/-- What is known of a composition without its values is known of it. -/
theorem sane_erase [Inhabited V] {threads : ℕ} {config : Config (State V E) (SenderCall V E)}
    (reached : Reachable exec FiresInstalled (start sender threads) config) :
    SenderComposition.Sane config.state.erase (eraseConfig config).pending :=
  (erase_reachable reached).invariant SenderComposition.Sane
    (SenderComposition.sane_start sender.erase threads)
    fun _ _ _ _ _ _ _ sane timely ran => SenderComposition.exec_step sane timely ran

end Tconcurrent.SenderValues
