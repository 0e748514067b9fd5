import Tconcurrent.UnwrapTreeSteps

/-! What a cancelation request on an unwrapped future of a tree reaches. -/
namespace Tconcurrent.UnwrapTree
open Interleaving

variable {s s' : State} {pending others : Multiset TreeAction} {call : TreeAction}
  {calls : List TreeAction} {c : TreeCall} {b : Branch} {choice : Choice} {threads : ℕ}
  {config : Config State TreeAction}

theorem userCode_cases (call : TreeAction) : userCode call = [] ∨ userCode call = [.client .user] := by
  unfold userCode
  split <;> simp

theorem exec_library (library : ∀ c, call ≠ .client c) {thread : ℕ} :
    exec thread choice s call =
      some ({ s with heap := (s.heap.exec call).1, obtained := obtain s call },
        userCode call ++ (s.heap.exec call).2 ++ userCode call) := by
  cases call with
  | client c => exact absurd rfl (library c)
  | _ => rfl

/-- **Every step of every thread keeps the invariant.** -/
theorem exec_step {thread : ℕ} (sane : Sane s (call ::ₘ others))
    (ran : exec thread choice s call = some (s', calls)) : Sane s' (↑calls + others) := by
  by_cases program : ∃ c, call = .client c
  · obtain ⟨c, rfl⟩ := program
    exact clientExec_step sane ran
  · have library : ∀ c, call ≠ .client c := fun c same => program ⟨c, same⟩
    rw [exec_library library] at ran
    cases ran
    apply around (Sane _) _ (sane.library library)
    rcases userCode_cases call with none | one
    · simp [none]
    · simpa [one] using fun pending => Sane.user

theorem sane_start (threads : ℕ) : Sane (start threads).state (start threads).pending := by
  have alone : Sane (start 0).state 0 :=
    { heap := by
        apply SoundHeap.setState _ (by simp [Heap.Ready]) (by simp) (by simp)
        exact ⟨by simp, by simp, by simp⟩
      calls := by simp
      accounts := fun duty => by
        have unready : ∀ p, ((start 0).state.heap.states p).r = none := by
          intro p
          by_cases current : p = .root <;> simp [start, Heap.setState_states_ne, current]
        have alone : ∀ p, ((start 0).state.heap.states p).thens = [] := by
          intro p
          by_cases current : p = .root <;> simp [start, Heap.setState_states_ne, current]
        have settled : duty.account.settled (start 0).state.heap = 0 := by
          simp [Account.settled, Duty.account, unready]
        have branches : ∀ b, ¬ IsBranch (start 0).state b := by
          intro b branch
          cases b with
          | nil => exact branch.1 rfl
          | cons i p => exact absurd branch.2 (by simp [Present, start])
        rw [Account.balance, settled]
        simp only [Account.waiting, alone, weight_nil_coe, weight_zero, Finset.sum_const_zero]
        cases duty <;> simp [Duty.due, branches] <;> rfl
      rooted := by simp [start]
      posted := by simp [start]
      run := by simp [start]
      delivered := by simp [Outcome, start, Heap.setState_states_ne]
      returned := by simp [start]
      produced := by simp [start]
      obtained := by simp [start]
      unwrappedToken := fun b branch => by
        cases b with
        | nil => exact absurd rfl branch.1
        | cons i p => exact absurd branch.2 (by simp [Present, start])
      innerToken := by simp [start]
      carried := by simp [start, Heap.setState_states_ne]
      quiet := by simp [start]
      cancelers := by simp [start] }
  have every : ∀ users, Sane (start 0).state (Multiset.replicate users (.client .user)) := by
    intro users
    induction users with
    | zero => exact alone
    | succ users ih =>
      rw [Multiset.replicate_succ]
      exact ih.user
  have pending := Config.pending_replicate (start threads).state threads
    (Call.client TreeCall.user : TreeAction)
  rw [show (start threads).pending = _ from pending]
  exact every threads

theorem sane_of_reachable {allowed : State → TreeAction → Choice → Prop}
    (reached : Reachable exec allowed (start threads) config) :
    Sane config.state config.pending :=
  reached.invariant Sane (sane_start threads) fun _ _ _ _ _ _ _ sane _ ran => exec_step sane ran

/-! ## The stack of the shared token -/

/-- A branch that a request need not reach any more. -/
def Spent (s : State) (b : Branch) : Prop :=
  s.heap.Ready (.inner b) ∨ (s.heap.tokens (.inner b)).isCancelRequested = true

/-- A canceler is pushed only on top of branches that are resolved or cancelled,
and a branch that completes finds no canceler of an unresolved one on top. -/
def OwnTop (s : State) (call : TreeAction) (_ : Choice) : Prop :=
  (∀ b fut, call = .unwrapOuter (.outer b) (.unwrapped b) →
    (s.heap.states (.outer b)).r = some (.value (.future fut)) →
    fut.cancelationToken ≠ some .shared →
    ∀ j, .requestCancel (.inner j) ∈ (s.heap.tokens .shared).doCancels → Spent s j) ∧
  (call = .popCancelationCallback .shared →
    ∀ j, (s.heap.tokens .shared).doCancels.head? = some (.requestCancel (.inner j)) →
      s.heap.Ready (.inner j))

/-- The canceler of every unresolved branch is installed, and those below the top
belong to branches that a request need not reach. -/
structure Reaching (s : State) : Prop where
  installed : ∀ b, s.obtained b = true → s.innerToken b = some (.inner b) →
    ¬ s.heap.Ready (.inner b) → .requestCancel (.inner b) ∈ (s.heap.tokens .shared).doCancels
  below : ∀ b, .requestCancel (.inner b) ∈ (s.heap.tokens .shared).doCancels.tail → Spent s b

/-- The program's own steps push and pop nothing, and take back neither a result
nor a future that was obtained. -/
theorem clientExec_frame (sane : Sane s (.client c ::ₘ others))
    (ran : clientExec choice s c = some (s', calls)) :
    s'.heap.tokens = s.heap.tokens ∧ s'.obtained = s.obtained ∧ s.heap.Keeps s'.heap ∧
      ∀ b, s.obtained b = true → s'.innerToken b = s.innerToken b := by
  have same : ∀ s₁ : State, s₁.heap = s.heap → s₁.obtained = s.obtained →
      s₁.innerToken = s.innerToken → s₁.heap.tokens = s.heap.tokens ∧ s₁.obtained = s.obtained ∧
        s.heap.Keeps s₁.heap ∧ ∀ b, s.obtained b = true → s₁.innerToken b = s.innerToken b := by
    intro s₁ heap obtained token
    rw [heap, obtained, token]
    exact ⟨rfl, rfl, .refl, fun _ _ => rfl⟩
  cases c with
  | user =>
    cases choice with
    | «continue» p andThen =>
      simp only [clientExec, user] at ran
      split at ran
      · cases ran
        obtain ⟨outerBlank, unwrappedBlank⟩ := sane.blank_next p
        obtain ⟨-, keeps, -⟩ := setUp sane.heap outerBlank unwrappedBlank (by simp)
          (some .shared) (some .shared)
        exact ⟨rfl, rfl, keeps, fun _ _ => rfl⟩
      · cases ran
    | resolveRoot r =>
      simp only [clientExec, user] at ran
      split at ran
      · cases ran
      · cases ran
        exact same _ rfl rfl rfl
    | resolve b r =>
      simp only [clientExec, user] at ran
      split at ran
      · cases ran
        exact same _ rfl rfl rfl
      · cases ran
    | run b =>
      simp only [clientExec, user] at ran
      split at ran
      · cases ran
        exact same _ rfl rfl rfl
      · cases ran
    | «return» =>
      cases ran
      exact same _ rfl rfl rfl
    | requestCancel p =>
      cases ran
      exact same _ rfl rfl rfl
    | _ => cases ran
  | post b =>
    cases choice <;> cases ran <;> exact same _ rfl rfl rfl
  | packagedTask b =>
    have ran := Option.some.inj ran
    unfold packagedTask at ran
    split at ran
    · split at ran
      · split at ran <;> cases ran <;> exact same _ rfl rfl rfl
      · cases ran
        exact same _ rfl rfl rfl
      · cases ran
        exact same _ rfl rfl rfl
    · cases ran
      exact same _ rfl rfl rfl
  | returnFuture b =>
    cases choice with
    | throws e =>
      cases ran
      exact same _ rfl rfl rfl
    | «returns» own r =>
      cases ran
      refine ⟨rfl, rfl, Heap.keeps_setState sane.blank_inner.unready, fun j taken => ?_⟩
      have other : j ≠ b := by
        rintro rfl
        obtain ⟨t, token⟩ := Option.ne_none_iff_exists'.mp (sane.obtained j taken).2
        exact sane.no_outcome (by simp [Duty.Counts]) _ (sane.returned j t token).2
      exact Function.update_of_ne other _ _
    | _ => cases ran

theorem Reaching.client (sane : Sane s (.client c ::ₘ others)) (reaching : Reaching s)
    (ran : clientExec choice s c = some (s', calls)) : Reaching s' := by
  obtain ⟨tokens, obtained, keeps, innerToken⟩ := clientExec_frame sane ran
  constructor
  · intro b taken token unready
    rw [obtained] at taken
    rw [innerToken b taken] at token
    rw [tokens]
    exact reaching.installed b taken token fun ready => unready (keeps.ready ready)
  · intro b member
    rw [tokens] at member
    unfold Spent
    rw [tokens]
    exact (reaching.below b member).imp keeps.ready id

/-- **The library's own steps under the condition.** -/
theorem Reaching.library (sane : Sane s (call ::ₘ others)) (reaching : Reaching s)
    (allowed : OwnTop s call choice) :
    Reaching { s with heap := (s.heap.exec call).1, obtained := obtain s call } := by
  have spent : ∀ b, Spent s b →
      Spent { s with heap := (s.heap.exec call).1, obtained := obtain s call } b := fun b =>
    Or.imp Heap.ready_exec Heap.exec_isCancelRequested
  have step : Heap.TokenStep s.heap call .shared ((s.heap.exec call).1.tokens .shared) :=
    Heap.exec_tokens
  -- A branch that is obtained in this step pushes its canceler.
  have fresh : ∀ b, obtain s call b = true → s.innerToken b = some (.inner b) →
      s.obtained b = true ∨ call = .unwrapOuter (.outer b) (.unwrapped b) ∧
        ((s.heap.exec call).1.tokens .shared).doCancels =
          .requestCancel (.inner b) :: (s.heap.tokens .shared).doCancels := by
    intro b taken token
    rcases obtain_cases taken with before | ⟨sb, v, rfl, result⟩
    · exact Or.inl before
    · obtain ⟨j, same, rfl, -, shared⟩ := sane.unwrapping (Multiset.mem_cons_self _ _)
      cases same
      obtain ⟨t, own, rfl⟩ := sane.delivered b v (Or.inr result)
      rw [token] at own
      cases own
      refine Or.inr ⟨rfl, ?_⟩
      simp [Heap.exec, Heap.unwrapOuter, result, shared, Heap.onToken,
        CancelationToken.pushCancelationCallback]
  constructor
  · intro b taken token unready
    change .requestCancel (.inner b) ∈ ((s.heap.exec call).1.tokens .shared).doCancels
    rcases fresh b taken token with before | ⟨-, pushed⟩
    · have old := reaching.installed b before token fun ready => unready (Heap.ready_exec ready)
      generalize (s.heap.exec call).1.tokens .shared = now at step
      cases step with
      | same => exact old
      | request => exact old
      | pop current =>
        have top := allowed.2 current b
        cases stack : (s.heap.tokens .shared).doCancels with
        | nil => simp [stack] at old
        | cons f rest =>
          rw [stack] at old top
          rcases List.mem_cons.mp old with rfl | below
          · exact absurd (Heap.ready_exec (top rfl)) unready
          · exact below
      | push fut1 sb fut2 current result shared different => exact List.mem_cons_of_mem _ old
    · rw [pushed]
      exact List.mem_cons_self
  · intro b member
    change .requestCancel (.inner b) ∈ ((s.heap.exec call).1.tokens .shared).doCancels.tail at member
    apply spent
    generalize (s.heap.exec call).1.tokens .shared = now at step member
    cases step with
    | same => exact reaching.below b member
    | request => exact reaching.below b member
    | pop current => exact reaching.below b (List.mem_of_mem_tail member)
    | push fut1 sb fut2 current result shared different =>
      subst current
      obtain ⟨j, rfl, rfl, -, -⟩ := sane.unwrapping (Multiset.mem_cons_self _ _)
      exact allowed.1 j fut2 rfl result (Ne.symm different) b member

/-- `request_cancel` on what `unwrap` returned for branch `b` comes to an end and
leaves the token of the inner future with cancelation requested. -/
def Cancels (s : State) (b : Branch) : Prop :=
  ∃ t, s.innerToken b = some t ∧ ∃ fuel heap',
    s.heap.settle fuel [.requestCancel (.unwrapped b)] = some heap' ∧
      (heap'.tokens t).isCancelRequested = true

/-- A check of the condition. -/
def spent (s : State) : TreeAction → Bool
  | .requestCancel (.inner b) =>
    decide (s.heap.Ready (.inner b)) || (s.heap.tokens (.inner b)).isCancelRequested
  | _ => true

end Tconcurrent.UnwrapTree
