import Tconcurrent.Accounts
import Tconcurrent.UnwrapTree

/-! Every step of a tree of continuations keeps its invariant.

Each branch is owed two results, that of its packaged task and that of `unwrap`,
and the states that are not resolved yet carry the tokens they were made with. -/
namespace Tconcurrent.UnwrapTree
open Interleaving

def wiring : Wiring TreeState TreeToken TreeCall where
  link
    | .unwrapped b => some (.outer b, .inner b)
    | _ => none
  outer_plain := by
    intro sb outer inner linked
    cases sb <;> cases linked
    rfl
  continuation p k := ∃ i q, p = futureAt q ∧ k = .post (i :: q)
  canceler _ := False
  internal k := ∀ b, k ≠ .post b

/-- A path at which a continuation was registered. -/
def IsBranch (s : State) (b : Branch) : Prop := b ≠ [] ∧ Present s b

instance (s : State) (b : Branch) : Decidable (IsBranch s b) :=
  inferInstanceAs (Decidable (_ ∧ _))

inductive Duty where
  | root
  | outer (b : Branch)
  | unwrapped (b : Branch)
  | inner (b : Branch)

namespace Duty

def target : Duty → TreeState
  | .root => .root
  | .outer b => .outer b
  | .unwrapped b => .unwrapped b
  | .inner b => .inner b

/-- The calls that end in the result of a packaged task. -/
def Counts : Duty → TreeCall → Bool
  | .outer b, .post j => j = b
  | .outer b, .packagedTask j => j = b
  | .outer b, .returnFuture j => j = b
  | _, _ => false

def account (duty : Duty) : Account TreeState TreeCall where
  target := some duty.target
  own call := (duty.Counts call).toNat
  homes := match duty with
    | .root => ∅
    | .outer b => {futureAt b.tail}
    | .unwrapped b => {.outer b, .inner b}
    | .inner _ => ∅

def due (s : State) : Duty → ℕ
  | .root => s.rootProduced.toNat
  | .outer b => (decide (IsBranch s b ∧ b ∉ s.posted)).toNat
  | .unwrapped b => (decide (IsBranch s b)).toNat
  | .inner b => (s.produced b).toNat

theorem due_le_one (duty : Duty) (s : State) : duty.due s ≤ 1 := by
  cases duty <;> exact Bool.toNat_le _

theorem closed (duty : Duty) : duty.account.Closed wiring where
  registered := by
    rintro p k ⟨i, q, rfl, rfl⟩ counted
    cases duty with
    | outer b =>
      have same : i :: q = b := by
        by_contra different
        simp [account, Counts, different] at counted
      subst same
      simp [account]
    | _ => exact absurd rfl counted
  linked := by
    intro sb outer inner target linked
    cases sb with
    | unwrapped b =>
      cases linked
      cases duty <;> simp_all [account, Duty.target]
    | _ => cases linked
  cancelers k pushed := pushed.elim

end Duty

def dutyOf : TreeState → Duty
  | .root => .root
  | .outer b => .outer b
  | .unwrapped b => .unwrapped b
  | .inner b => .inner b

@[simp] theorem target_dutyOf (p : TreeState) : (dutyOf p).account.target = some p := by
  cases p <;> rfl

/-- What every reachable state of a tree satisfies. -/
structure Sane (s : State) (pending : Multiset TreeAction) : Prop where
  heap : SoundHeap wiring s.heap
  calls : ∀ call ∈ pending, Sound wiring s.heap call
  accounts : ∀ duty : Duty, duty.account.balance s.heap pending = duty.due s
  rooted : ∀ p, 0 < s.continuations p → Present s p
  posted : s.posted.Nodup ∧ ∀ b ∈ s.posted, IsBranch s b
  /-- A continuation runs once its future is ready. -/
  run : ∀ b, b ∈ s.posted ∨ .client (.packagedTask b) ∈ pending → s.heap.Ready (futureAt b.tail)
  /-- What a packaged task delivers is what the user's function has returned. -/
  delivered : ∀ b v, Outcome s.heap pending (.outer b) (.value v) →
    ∃ t, s.innerToken b = some t ∧ v = .future ⟨.inner b, some t⟩
  returned : ∀ b t, s.innerToken b = some t → (t = .shared ∨ t = .inner b) ∧
    Outcome s.heap pending (.outer b) (.value (.future ⟨.inner b, some t⟩))
  produced : ∀ b, s.produced b = true → s.innerToken b ≠ none
  obtained : ∀ b, s.obtained b = true → IsBranch s b ∧ s.innerToken b ≠ none
  unwrappedToken : ∀ b, IsBranch s b → ¬ s.heap.Ready (.unwrapped b) →
    (s.heap.states (.unwrapped b)).cancelationToken = some .shared
  innerToken : ∀ b t, s.innerToken b = some t → ¬ s.heap.Ready (.inner b) →
    (s.heap.states (.inner b)).cancelationToken = some t
  carried : ∀ b t, (s.heap.states (.inner b)).cancelationToken = some t → s.innerToken b = some t
  /-- Nobody but `unwrap` pushes callbacks. -/
  quiet : ∀ b, (s.heap.tokens (.inner b)).doCancels = []
  cancelers : ∀ f ∈ (s.heap.tokens .shared).doCancels,
    ∃ b, f = .requestCancel (.inner b) ∧ s.innerToken b = some (.inner b)

variable {s s' : State} {pending others : Multiset TreeAction} {call : TreeAction}
  {calls : List TreeAction} {c : TreeCall} {b : Branch}

/-! ## What the balances say -/

theorem Sane.unresolved (sane : Sane s pending) {p : TreeState} {r : TreeResult}
    (member : .finish p r ∈ pending) : ¬ s.heap.Ready p :=
  Account.unready_of_finish ((sane.accounts (dutyOf p)).trans_le ((dutyOf p).due_le_one s))
    (target_dutyOf p) member

theorem Sane.due_of_pending (sane : Sane s pending) (duty : Duty) (member : call ∈ pending)
    (owed : 0 < duty.account.owes call) : 0 < duty.due s := by
  rw [← sane.accounts duty]
  exact owed.trans_le (Account.owes_le_balance member)

theorem Sane.requested (sane : Sane s pending) {p : TreeState} {r : TreeResult}
    (outcome : Outcome s.heap pending p r) : 0 < (dutyOf p).due s := by
  rw [← sane.accounts (dutyOf p)]
  exact Account.balance_pos_of_outcome (target_dutyOf p) outcome

/-- A packaged task has no result as long as somebody still has to run it. -/
theorem Sane.no_outcome (sane : Sane s (.client c ::ₘ others))
    (counts : (Duty.outer b).Counts c = true) (r : TreeResult) :
    ¬ Outcome s.heap (.client c ::ₘ others) (.outer b) r := by
  apply Account.no_outcome ((sane.accounts (.outer b)).trans_le ((Duty.outer b).due_le_one s))
  · rfl
  · simp [Account.owes, Duty.account, counts]
  · simp

theorem Sane.unready_of_due (sane : Sane s pending) {p : TreeState} (none : (dutyOf p).due s = 0) :
    ¬ s.heap.Ready p := by
  intro ready
  obtain ⟨r, result⟩ := Option.ne_none_iff_exists'.mp ready
  have due := sane.requested (Or.inr result)
  omega

/-- What can wait on which state. -/
theorem waits_of_registered {heap : TreeHeap} {p : TreeState} {f : TreeAction}
    (waits : Registered wiring heap p f) :
    (∃ i q, p = futureAt q ∧ f = .client (.post (i :: q))) ∨
      (∃ b, p = .outer b ∧ f = .unwrapOuter (.outer b) (.unwrapped b)) ∨
      ∃ b token, p = .inner b ∧ heap.Ready (.outer b) ∧
        f = .unwrapInner (.inner b) (.unwrapped b) token := by
  cases f with
  | client k =>
    obtain ⟨i, q, rfl, rfl⟩ := waits
    exact Or.inl ⟨i, q, rfl, rfl⟩
  | unwrapOuter fut1 sb =>
    obtain ⟨rfl, inner, linked⟩ := waits
    cases sb with
    | unwrapped b =>
      cases linked
      exact Or.inr (Or.inl ⟨b, rfl, rfl⟩)
    | _ => cases linked
  | unwrapInner fut2 sb token =>
    obtain ⟨rfl, outer, linked, ready⟩ := waits
    cases sb with
    | unwrapped b =>
      cases linked
      exact Or.inr (Or.inr ⟨b, token, rfl, ready, rfl⟩)
    | _ => cases linked
  | _ => exact waits.elim

/-- Nobody waits on the states of a branch that is registered next. -/
theorem Sane.blank_next (sane : Sane s pending) (p : Branch) :
    Blank s.heap (.outer (s.continuations p :: p)) ∧
      Blank s.heap (.unwrapped (s.continuations p :: p)) := by
  have absent : ¬ IsBranch s (s.continuations p :: p) := fun branch => branch.2.false
  constructor
  · refine ⟨Heap.not_ready.mp (sane.unready_of_due ?_), ?_⟩
    · simp [dutyOf, Duty.due, absent]
    · apply List.eq_nil_iff_forall_not_mem.mpr
      intro f member
      obtain ⟨i, q, same, -⟩ | ⟨b, same, rfl⟩ | ⟨b, token, same, -⟩ :=
        waits_of_registered (sane.heap.registered _ f member)
      · cases q <;> cases same
      · cases same
        have counted := Account.owes_le_waiting
          (Duty.unwrapped (s.continuations p :: p)).account member
        have listed := Account.waiting_le_balance
          (Duty.unwrapped (s.continuations p :: p)).account s.heap pending
          (p := .outer (s.continuations p :: p)) (by simp [Duty.account])
        rw [sane.accounts] at listed
        simp [Account.owes, Duty.account, Duty.target, Duty.due, absent] at counted listed
        omega
      · cases same
  · refine ⟨Heap.not_ready.mp (sane.unready_of_due ?_), ?_⟩
    · simp [dutyOf, Duty.due, absent]
    · apply List.eq_nil_iff_forall_not_mem.mpr
      intro f member
      obtain ⟨i, q, same, rfl⟩ | ⟨b, same, -⟩ | ⟨b, token, same, -⟩ :=
        waits_of_registered (sane.heap.registered _ f member)
      · have path : q = s.continuations p :: p := by cases q <;> cases same; rfl
        subst path
        have counted := Account.owes_le_waiting
          (Duty.outer (i :: s.continuations p :: p)).account member
        have listed := Account.waiting_le_balance
          (Duty.outer (i :: s.continuations p :: p)).account s.heap pending
          (p := .unwrapped (s.continuations p :: p)) (by simp [Duty.account, futureAt])
        rw [sane.accounts] at listed
        have none : ¬ IsBranch s (i :: s.continuations p :: p) := fun branch =>
          (sane.rooted _ (Nat.zero_lt_of_lt branch.2)).false
        simp [Account.owes, Duty.account, Duty.Counts, Duty.due, none] at counted listed
        omega
      · cases same
      · cases same

/-- Nor on the future that the user's function is about to return. -/
theorem Sane.blank_inner (sane : Sane s (.client (.returnFuture b) ::ₘ others)) :
    Blank s.heap (.inner b) := by
  have undecided := sane.no_outcome (b := b) (by simp [Duty.Counts])
  refine ⟨Heap.not_ready.mp (sane.unready_of_due ?_), ?_⟩
  · rw [← Nat.le_zero, ← Nat.not_lt]
    intro due
    have produced : s.produced b = true := by simpa [dutyOf, Duty.due] using due
    obtain ⟨t, token⟩ := Option.ne_none_iff_exists'.mp (sane.produced b produced)
    exact undecided _ (sane.returned b t token).2
  · apply List.eq_nil_iff_forall_not_mem.mpr
    intro f member
    obtain ⟨i, q, same, -⟩ | ⟨j, same, -⟩ | ⟨j, token, same, ready, -⟩ :=
      waits_of_registered (sane.heap.registered _ f member)
    · cases q <;> cases same
    · cases same
    · cases same
      obtain ⟨r, result⟩ := Option.ne_none_iff_exists'.mp ready
      exact undecided r (Or.inr result)

/-! ## Steps -/

theorem sound_client (heap : TreeHeap) {k : TreeCall} (own : ∀ b, k ≠ .post b) :
    Sound wiring heap (.client k) := Or.inl own

/-- A packaged task may fail, and no other promise of the tree is an outer future. -/
theorem sound_finish (heap : TreeHeap) {p : TreeState} {r : TreeResult}
    (plain : ∀ b, p ≠ .unwrapped b)
    (carries : ∀ b, p = .outer b → (∃ e, r = .exception e) ∨
      ∃ fut : Future TreeState TreeToken, r = .value (.future fut) ∧ fut.p = .inner b) :
    Sound wiring heap (.finish p r) := by
  constructor
  · intro outer inner linked
    cases p with
    | unwrapped b => exact absurd rfl (plain b)
    | _ => cases linked
  · intro sb inner linked
    cases sb with
    | unwrapped b =>
      cases linked
      exact carries b rfl
    | _ => cases linked

theorem owes_user (duty : Duty) : duty.account.owes (.client .user : TreeAction) = 0 := by
  cases duty <;> rfl

/-- User code may be called anywhere. -/
theorem Sane.user (sane : Sane s pending) : Sane s (.client .user ::ₘ pending) where
  heap := sane.heap
  calls := by
    intro call member
    rcases Multiset.mem_cons.mp member with rfl | old
    · exact sound_client _ (by simp)
    · exact sane.calls call old
  accounts duty := by
    rw [← sane.accounts duty]
    simp [Account.balance, owes_user]
  rooted := sane.rooted
  posted := sane.posted
  run b running := sane.run b (by simpa using running)
  delivered b v outcome := sane.delivered b v (by simpa [Outcome] using outcome)
  returned b t token := by simpa [Outcome] using sane.returned b t token
  produced := sane.produced
  obtained := sane.obtained
  unwrappedToken := sane.unwrappedToken
  innerToken := sane.innerToken
  carried := sane.carried
  quiet := sane.quiet
  cancelers := sane.cancelers

theorem Sane.moved (sane : Sane s (.client c ::ₘ others)) (calls : List TreeAction) (duty : Duty) :
    duty.account.balance s.heap (↑calls + others) + (duty.Counts c).toNat =
      duty.due s + weight duty.account.owes (calls : Multiset TreeAction) := by
  rw [← sane.accounts duty]
  exact Account.balance_client duty.account c calls others (fun _ => rfl) (fun _ => rfl)

/-- A step that leaves the heap alone. -/
theorem Sane.frame (sane : Sane s (.client c ::ₘ others)) (posted : List Branch)
    (rootProduced : Bool) (produced : Branch → Bool)
    (listed : posted.Nodup ∧ ∀ b ∈ posted, IsBranch s b)
    (made : ∀ b, produced b = true → s.innerToken b ≠ none)
    (runs : ∀ b, b ∈ posted ∨ .client (.packagedTask b) ∈ calls → s.heap.Ready (futureAt b.tail))
    (sound : ∀ call ∈ calls, Sound wiring s.heap call)
    (fails : ∀ b r, .finish (.outer b) r ∈ calls → ∃ e, r = .exception e)
    (due : ∀ duty : Duty, duty.due { s with posted, rootProduced, produced } +
      (duty.Counts c).toNat = duty.due s + weight duty.account.owes (calls : Multiset TreeAction)) :
    Sane { s with posted, rootProduced, produced } (↑calls + others) where
  heap := sane.heap
  calls := mem_after sound fun call other => sane.calls call (Multiset.mem_cons_of_mem other)
  accounts duty := by
    have moved := sane.moved calls duty
    have paid := due duty
    change duty.account.balance s.heap _ = _
    omega
  rooted := sane.rooted
  posted := listed
  run b running := by
    rcases running with waits | member
    · exact runs b (Or.inl waits)
    · rcases Multiset.mem_add.mp member with made | other
      · exact runs b (Or.inr (Multiset.mem_coe.mp made))
      · exact sane.run b (Or.inr (Multiset.mem_cons_of_mem other))
  delivered b v outcome := by
    rcases outcome_after (.client c) rfl outcome with made | before
    · obtain ⟨e, same⟩ := fails b _ made
      cases same
    · exact sane.delivered b v before
  returned b t token := by
    obtain ⟨which, outcome⟩ := sane.returned b t token
    exact ⟨which, (outcome.after .refl).resolve_left (by simp)⟩
  produced := made
  obtained := sane.obtained
  unwrappedToken := sane.unwrappedToken
  innerToken := sane.innerToken
  carried := sane.carried
  quiet := sane.quiet
  cancelers := sane.cancelers

/-- The first closure of `unwrap` runs while its state has the shared token. -/
theorem Sane.unwrapping (sane : Sane s pending) {fut1 sb : TreeState}
    (member : .unwrapOuter fut1 sb ∈ pending) : ∃ b, fut1 = .outer b ∧ sb = .unwrapped b ∧
      IsBranch s b ∧ (s.heap.states (.unwrapped b)).cancelationToken = some .shared := by
  obtain ⟨ready, inner, linked⟩ := sane.calls _ member
  cases sb with
  | unwrapped b =>
    cases linked
    have owed : (Duty.unwrapped b).account.owes
        (.unwrapOuter (.outer b) (.unwrapped b) : TreeAction) = 1 := by
      simp [Account.owes, Duty.account, Duty.target]
    have branch : IsBranch s b := by
      have due := sane.due_of_pending (.unwrapped b) member (by omega)
      simpa [Duty.due] using due
    have single := (sane.accounts (.unwrapped b)).trans_le ((Duty.unwrapped b).due_le_one s)
    have unready := Account.unready_of_pending single rfl member owed
    exact ⟨b, rfl, rfl, branch, sane.unwrappedToken b branch unready⟩
  | _ => cases linked

theorem hasValue_iff {heap : TreeHeap} {p : TreeState} :
    heap.hasValue p = true ↔ ∃ v, (heap.states p).r = some (.value v) := by
  unfold Heap.hasValue
  split
  · rename_i v result
    simp [result]
  · rename_i other
    simp only [Bool.false_eq_true, false_iff]
    rintro ⟨v, result⟩
    exact other v result

/-- The library's calls obtain an inner future when they take it. -/
theorem obtain_cases {b : Branch} (obtained : obtain s call b = true) : s.obtained b = true ∨
    ∃ sb v, call = .unwrapOuter (.outer b) sb ∧ (s.heap.states (.outer b)).r = some (.value v) := by
  cases call with
  | unwrapOuter fut1 sb =>
    cases fut1 with
    | outer j =>
      by_cases current : b = j
      · subst current
        simp only [obtain, Function.update_self, Bool.or_eq_true, hasValue_iff] at obtained
        exact obtained.imp id fun ⟨v, result⟩ => ⟨sb, v, rfl, result⟩
      · simp only [obtain, Function.update_of_ne current] at obtained
        exact Or.inl obtained
    | _ => exact Or.inl obtained
  | _ => exact Or.inl obtained

/-- **The library's own steps.** -/
theorem Sane.library (sane : Sane s (call ::ₘ others)) (library : ∀ k, call ≠ .client k) :
    Sane { s with heap := (s.heap.exec call).1, obtained := obtain s call }
      (↑(s.heap.exec call).2 + others) := by
  have respects := sane.calls call (Multiset.mem_cons_self _ _)
  have once : ∀ p r, call = .finish p r → ¬ s.heap.Ready p := by
    rintro p r rfl
    exact sane.unresolved (Multiset.mem_cons_self _ _)
  have keeps := Heap.keeps_exec once
  have kept := exec_sound sane.heap respects once
  have branching : ∀ fut1 sb, call = .unwrapOuter fut1 sb → ∃ b, fut1 = .outer b ∧
      sb = .unwrapped b ∧ IsBranch s b ∧
        (s.heap.states (.unwrapped b)).cancelationToken = some .shared := by
    rintro fut1 sb rfl
    exact sane.unwrapping (Multiset.mem_cons_self _ _)
  exact {
    heap := kept.1
    calls := mem_after kept.2 fun call' other =>
      (sane.calls call' (Multiset.mem_cons_of_mem other)).keeps keeps
    accounts := fun duty => by
      rw [Account.exec_balance duty.closed sane.heap respects once library]
      exact sane.accounts duty
    rooted := sane.rooted
    posted := sane.posted
    run := fun b running => by
      apply keeps.ready
      rcases running with waits | member
      · exact sane.run b (Or.inl waits)
      · rcases Multiset.mem_add.mp member with made | other
        · obtain pushed | ⟨p, i, q, -, same⟩ :=
            exec_clients sane.heap respects (Multiset.mem_coe.mp made)
          · exact pushed.elim
          · cases same
        · exact sane.run b (Or.inr (Multiset.mem_cons_of_mem other))
    delivered := fun b v outcome =>
      sane.delivered b v (exec_outcome sane.heap respects rfl outcome)
    returned := fun b t token => by
      obtain ⟨which, outcome⟩ := sane.returned b t token
      exact ⟨which, outcome.exec once⟩
    produced := sane.produced
    obtained := fun b taken => by
      rcases obtain_cases taken with before | ⟨sb, v, rfl, result⟩
      · exact sane.obtained b before
      · obtain ⟨j, same, -, branch, -⟩ := branching _ _ rfl
        cases same
        obtain ⟨t, token, -⟩ := sane.delivered b v (Or.inr result)
        exact ⟨branch, by simp [token]⟩
    unwrappedToken := fun b branch unready => by
      rw [Heap.exec_cancelationToken unready]
      exact sane.unwrappedToken b branch fun ready => unready (keeps.ready ready)
    innerToken := fun b t token unready => by
      rw [Heap.exec_cancelationToken unready]
      exact sane.innerToken b t token fun ready => unready (keeps.ready ready)
    carried := fun b t token => sane.carried b t (Heap.exec_token_of_some token)
    quiet := fun b => by
      have step : Heap.TokenStep s.heap call (.inner b) ((s.heap.exec call).1.tokens (.inner b)) :=
        Heap.exec_tokens
      change ((s.heap.exec call).1.tokens (.inner b)).doCancels = []
      generalize (s.heap.exec call).1.tokens (.inner b) = token at step ⊢
      cases step with
      | same => exact sane.quiet b
      | request => exact sane.quiet b
      | pop current => simp [sane.quiet b]
      | push fut1 sb fut2 current result shared different =>
        obtain ⟨j, rfl, rfl, -, token⟩ := branching _ _ current
        rw [token] at shared
        cases shared
    cancelers := fun f member => by
      have step : Heap.TokenStep s.heap call .shared ((s.heap.exec call).1.tokens .shared) :=
        Heap.exec_tokens
      change f ∈ ((s.heap.exec call).1.tokens .shared).doCancels at member
      generalize (s.heap.exec call).1.tokens .shared = token at step member
      cases step with
      | same => exact sane.cancelers f member
      | request => exact sane.cancelers f member
      | pop current => exact sane.cancelers f (List.mem_of_mem_tail member)
      | push fut1 sb fut2 current result shared different =>
        rcases List.mem_cons.mp member with rfl | old
        · obtain ⟨j, rfl, rfl, -, -⟩ := branching _ _ current
          obtain ⟨t, token, same⟩ := sane.delivered j _ (Or.inr result)
          obtain rfl : fut2 = ⟨.inner j, some t⟩ := by simpa using same
          obtain ⟨rfl | rfl, -⟩ := sane.returned j t token
          · exact absurd rfl different
          · exact ⟨j, rfl, token⟩
        · exact sane.cancelers f old }

/-- A continuation is registered, and joined by `unwrap`. -/
theorem thenUnwrap_step {p : Branch} {andThen : Bool} (sane : Sane s (.client .user ::ₘ others))
    (present : Present s p) :
    Sane (thenUnwrap p andThen s).1
      (↑((thenUnwrap p andThen s).2 ++ [.client .user] : List TreeAction) + others) := by
  obtain ⟨outerBlank, unwrappedBlank⟩ := sane.blank_next p
  obtain ⟨same, keeps, heap⟩ := setUp sane.heap outerBlank unwrappedBlank (by simp)
    (some .shared) (some .shared)
  have branches : ∀ b, IsBranch (thenUnwrap p andThen s).1 b ↔
      IsBranch s b ∨ b = s.continuations p :: p := by
    intro b
    cases b with
    | nil => simp [IsBranch]
    | cons i q =>
      by_cases current : q = p
      · subst current
        have branches : i < s.continuations q + 1 ↔ i < s.continuations q ∨ i = s.continuations q := by
          omega
        simp only [IsBranch, Present, thenUnwrap, Function.update_self, branches]
        simp
      · simp [IsBranch, Present, thenUnwrap, current]
  have absent : ¬ IsBranch s (s.continuations p :: p) := fun branch => branch.2.false
  have before : ∀ q r, Outcome (thenUnwrap p andThen s).1.heap
      (↑((thenUnwrap p andThen s).2 ++ [.client .user] : List TreeAction) + others) q r →
        Outcome s.heap (.client .user ::ₘ others) q r := fun q r outcome =>
    (outcome_after _ (same q).1 outcome).resolve_left (by simp [thenUnwrap])
  have elsewhere : ∀ q, q ≠ .outer (s.continuations p :: p) → q ≠ .unwrapped (s.continuations p :: p) →
      (thenUnwrap p andThen s).1.heap.states q = s.heap.states q := by
    intro q outer unwrapped
    simp only [thenUnwrap]
    rw [Heap.setState_states_ne _ unwrapped, Heap.setState_states_ne _ outer]
  exact {
    heap := heap
    calls := by
      apply mem_after
      · simp only [thenUnwrap, List.cons_append, List.nil_append, List.mem_cons, List.not_mem_nil,
          or_false]
        rintro call (rfl | rfl | rfl)
        · exact ⟨_, p, rfl, rfl⟩
        · exact ⟨rfl, _, rfl⟩
        · exact sound_client _ (by simp)
      · exact fun call other => (sane.calls call (Multiset.mem_cons_of_mem other)).keeps keeps
    accounts := fun duty => by
      have moved := sane.moved ((thenUnwrap p andThen s).2 ++ [.client .user]) duty
      rw [← Account.balance_congr (fun q => (same q).1) (fun q => (same q).2)] at moved
      refine Nat.add_right_cancel (moved.trans ?_)
      cases duty with
      | root => simp [thenUnwrap, Duty.due, Duty.Counts, Account.owes, Duty.account, Duty.target]
      | inner b =>
        simp [thenUnwrap, Duty.due, Duty.Counts, Account.owes, Duty.account, Duty.target]
      | outer b =>
        have waits : s.continuations p :: p ∉ s.posted := fun member =>
          absent (sane.posted.2 _ member)
        simp only [Duty.due, branches]
        by_cases current : b = s.continuations p :: p
        · subst current
          simp [thenUnwrap, Duty.Counts, Account.owes, Duty.account, Duty.target, absent, waits]
        · simp [thenUnwrap, Duty.Counts, Account.owes, Duty.account, Duty.target, current,
            Ne.symm current]
      | unwrapped b =>
        simp only [Duty.due, branches]
        by_cases current : b = s.continuations p :: p
        · subst current
          simp [thenUnwrap, Duty.Counts, Account.owes, Duty.account, Duty.target, absent]
        · simp [thenUnwrap, Duty.Counts, Account.owes, Duty.account, Duty.target, current]
    rooted := fun q children => by
      have old : Present s q := by
        by_cases current : q = p
        · exact current ▸ present
        · apply sane.rooted q
          simpa [thenUnwrap, current] using children
      cases q with
      | nil => trivial
      | cons i q => exact ((branches (i :: q)).mpr (Or.inl ⟨by simp, old⟩)).2
    posted := ⟨sane.posted.1, fun b waits => (branches b).mpr (Or.inl (sane.posted.2 b waits))⟩
    run := fun b running => by
      apply keeps.ready
      rcases running with waits | member
      · exact sane.run b (Or.inl waits)
      · have old := (Multiset.mem_add.mp member).resolve_left (by simp [thenUnwrap])
        exact sane.run b (Or.inr (Multiset.mem_cons_of_mem old))
    delivered := fun b v outcome => sane.delivered b v (before _ _ outcome)
    returned := fun b t token => by
      obtain ⟨which, outcome⟩ := sane.returned b t token
      exact ⟨which, (outcome.after keeps).resolve_left (by simp)⟩
    produced := sane.produced
    obtained := fun b taken => by
      obtain ⟨branch, returned⟩ := sane.obtained b taken
      exact ⟨(branches b).mpr (Or.inl branch), returned⟩
    unwrappedToken := fun b branch unready => by
      rcases (branches b).mp branch with old | rfl
      · have different : b ≠ s.continuations p :: p := by
          rintro rfl
          exact absent old
        rw [elsewhere _ (by simp) (by simpa using different)]
        exact sane.unwrappedToken b old fun ready => unready (keeps.ready ready)
      · simp [thenUnwrap]
    innerToken := fun b t token unready => by
      rw [elsewhere _ (by simp) (by simp)]
      exact sane.innerToken b t token fun ready => unready (keeps.ready ready)
    carried := fun b t token => by
      rw [elsewhere _ (by simp) (by simp)] at token
      exact sane.carried b t token
    quiet := sane.quiet
    cancelers := sane.cancelers }

/-- The user's function returns a future. -/
theorem returnFuture_step {own : Bool} {r : Option TreeResult}
    (sane : Sane s (.client (.returnFuture b) ::ₘ others)) :
    Sane (returnFuture b own r s).1 (↑(returnFuture b own r s).2 + others) := by
  have blank := sane.blank_inner
  have undecided := sane.no_outcome (b := b) (by simp [Duty.Counts])
  have fresh : s.innerToken b = none := by
    by_contra returned
    obtain ⟨t, token⟩ := Option.ne_none_iff_exists'.mp returned
    exact undecided _ (sane.returned b t token).2
  have unproduced : s.produced b = false := by
    rw [← Bool.not_eq_true]
    exact fun produced => sane.produced b produced fresh
  have keeps : s.heap.Keeps (returnFuture b own r s).1.heap := Heap.keeps_setState blank.unready
  have elsewhere : ∀ q, q ≠ .inner b →
      (returnFuture b own r s).1.heap.states q = s.heap.states q := fun q other =>
    Heap.setState_states_ne _ other
  exact {
    heap := by
      apply sane.heap.setState blank.unready
      · intro r' _
        exact sound_finish s.heap (by simp) (by simp)
      · simp
    calls := by
      apply mem_after
      · simp only [returnFuture, List.mem_singleton]
        rintro call rfl
        apply sound_finish _ (by simp)
        rintro j same
        cases same
        exact Or.inr ⟨_, rfl, rfl⟩
      · exact fun call other => (sane.calls call (Multiset.mem_cons_of_mem other)).keeps keeps
    accounts := fun duty => by
      have moved : duty.account.balance (returnFuture b own r s).1.heap
          (↑(returnFuture b own r s).2 + others) + _ = _ :=
        Account.balance_setUp duty.account (.returnFuture b) _ others blank rfl
      rw [sane.accounts duty] at moved
      refine Nat.add_right_cancel (moved.trans ?_)
      cases duty with
      | inner j =>
        by_cases current : j = b
        · subst current
          simp [returnFuture, Duty.due, Duty.Counts, Account.owes, Duty.account, Duty.target,
            unproduced]
        · simp [returnFuture, Duty.due, Duty.Counts, Account.owes, Duty.account, Duty.target,
            current]
      | outer j =>
        change (Duty.outer j).due s + _ + _ = (Duty.outer j).due s + _
        by_cases current : b = j
        · simp [returnFuture, Duty.Counts, Account.owes, Duty.account, Duty.target, current]
        · simp [returnFuture, Duty.Counts, Account.owes, Duty.account, Duty.target, current,
            Ne.symm current]
      | root => simp [returnFuture, Duty.due, Duty.Counts, Account.owes, Duty.account, Duty.target]
      | unwrapped j =>
        change (Duty.unwrapped j).due s + _ + _ = (Duty.unwrapped j).due s + _
        simp [returnFuture, Duty.Counts, Account.owes, Duty.account, Duty.target]
    rooted := sane.rooted
    posted := sane.posted
    run := fun j running => by
      apply keeps.ready
      rcases running with waits | member
      · exact sane.run j (Or.inl waits)
      · have old := (Multiset.mem_add.mp member).resolve_left (by simp [returnFuture])
        exact sane.run j (Or.inr (Multiset.mem_cons_of_mem old))
    delivered := fun j v outcome => by
      rcases outcome_after (.client (.returnFuture b)) (by rw [elsewhere _ (by simp)]) outcome with
        made | before
      · simp only [returnFuture, List.mem_singleton] at made
        cases made
        exact ⟨_, Function.update_self .., rfl⟩
      · have other : j ≠ b := by
          rintro rfl
          exact undecided _ before
        obtain ⟨t, token, same⟩ := sane.delivered j v before
        exact ⟨t, (Function.update_of_ne other _ _).trans token, same⟩
    returned := fun j t token => by
      by_cases current : j = b
      · subst current
        have same : (if own then TreeToken.inner j else .shared) = t := by
          simpa [returnFuture] using token
        subst same
        constructor
        · cases own <;> simp
        · exact Or.inl (by simp [returnFuture])
      · simp only [returnFuture, Function.update_of_ne current] at token
        obtain ⟨which, outcome⟩ := sane.returned j t token
        exact ⟨which, (outcome.after keeps).resolve_left (by simp)⟩
    produced := fun j made => by
      by_cases current : j = b
      · simp [returnFuture, current]
      · simp only [returnFuture, Function.update_of_ne current] at made ⊢
        exact sane.produced j made
    obtained := fun j taken => by
      obtain ⟨branch, returned⟩ := sane.obtained j taken
      have other : j ≠ b := by
        rintro rfl
        exact returned fresh
      refine ⟨branch, ?_⟩
      simpa [returnFuture, Function.update_of_ne other] using returned
    unwrappedToken := fun j branch unready => by
      rw [elsewhere _ (by simp)]
      exact sane.unwrappedToken j branch fun ready => unready (keeps.ready ready)
    innerToken := fun j t token unready => by
      by_cases current : j = b
      · subst current
        have pending : r = none := by
          simpa [returnFuture, Heap.Ready] using unready
        simpa [returnFuture, pending] using token
      · rw [elsewhere _ (by simpa using current)]
        simp only [returnFuture, Function.update_of_ne current] at token
        exact sane.innerToken j t token fun ready => unready (keeps.ready ready)
    carried := fun j t token => by
      by_cases current : j = b
      · subst current
        cases r with
        | none => simpa [returnFuture] using token
        | some r => simp [returnFuture] at token
      · rw [elsewhere _ (by simpa using current)] at token
        exact (Function.update_of_ne current _ _).trans (sane.carried j t token)
    quiet := sane.quiet
    cancelers := fun f member => by
      obtain ⟨j, same, token⟩ := sane.cancelers f member
      have other : j ≠ b := by
        rintro rfl
        rw [fresh] at token
        cases token
      exact ⟨j, same, (Function.update_of_ne other _ _).trans token⟩ }

theorem packagedTask_step (sane : Sane s (.client (.packagedTask b) ::ₘ others))
    (ran : packagedTask b s = (s', calls)) : Sane s' (↑calls + others) := by
  have ready := sane.run b (Or.inr (Multiset.mem_cons_self _ _))
  -- The branches differ in the calls that carry the duty on.
  have common : ∀ calls : List TreeAction, (∀ call ∈ calls, call = .client .user ∨
      call = .client (.returnFuture b) ∨ ∃ e, call = .finish (.outer b) (.exception e)) →
      (∀ duty : Duty, weight duty.account.owes (calls : Multiset TreeAction) =
        (duty.Counts (.packagedTask b)).toNat) → Sane s (↑calls + others) := by
    intro calls made owes
    apply sane.frame s.posted s.rootProduced s.produced sane.posted sane.produced
    · rintro j (waits | member)
      · exact sane.run j (Or.inl waits)
      · obtain same | same | ⟨e, same⟩ := made _ member <;> cases same
    · intro call member
      obtain rfl | rfl | ⟨e, rfl⟩ := made _ member
      · exact sound_client _ (by simp)
      · exact sound_client _ (by simp)
      · exact sound_finish _ (by simp) fun _ _ => Or.inl ⟨e, rfl⟩
    · intro j r member
      obtain same | same | ⟨e, same⟩ := made _ member
      · cases same
      · cases same
      · cases same
        exact ⟨e, rfl⟩
    · intro duty
      rw [owes duty]
  have calling : ∀ call ∈ ([.client .user, .client (.returnFuture b)] : List TreeAction),
      call = .client .user ∨ call = .client (.returnFuture b) ∨
        ∃ e, call = .finish (.outer b) (.exception e) := by simp
  have carried : ∀ duty : Duty, weight duty.account.owes
      (([.client .user, .client (.returnFuture b)] : List TreeAction) : Multiset TreeAction) =
        (duty.Counts (.packagedTask b)).toNat := by
    intro duty
    cases duty <;> simp [Duty.Counts, Account.owes, Duty.account]
  have failing : ∀ e, Sane s
      (↑([.finish (.outer b) (.exception e)] : List TreeAction) + others) := by
    intro e
    apply common
    · simp
    · intro duty
      cases duty with
      | outer j =>
        by_cases current : b = j
        · simp [Duty.Counts, Account.owes, Duty.account, Duty.target, current]
        · simp [Duty.Counts, Account.owes, Duty.account, Duty.target, current, Ne.symm current]
      | _ => simp [Duty.Counts, Account.owes, Duty.account, Duty.target]
  unfold packagedTask at ran
  split at ran
  · split at ran
    · split at ran
      · cases ran
        exact failing _
      · cases ran
        exact common _ calling carried
    · cases ran
      exact failing _
    · rename_i unresolved
      exact absurd unresolved ready
  · cases ran
    exact common _ calling carried

theorem resolveRoot_step {r : TreeResult} (sane : Sane s (.client .user ::ₘ others))
    (waiting : ∀ b ∈ s.posted, s.heap.Ready (futureAt b.tail))
    (ran : user s (.resolveRoot r) = some (s', calls)) : Sane s' (↑calls + others) := by
  simp only [user] at ran
  split at ran
  · cases ran
  · rename_i unproduced
    cases ran
    apply sane.frame s.posted true s.produced sane.posted sane.produced
    · simpa using waiting
    · simp only [List.mem_cons, List.not_mem_nil, or_false]
      rintro call (rfl | rfl)
      · exact sound_finish _ (by simp) (by simp)
      · exact sound_client _ (by simp)
    · simp
    · intro duty
      cases duty with
      | root =>
        simp [Duty.due, Duty.Counts, Account.owes, Duty.account, Duty.target, unproduced]
      | outer j =>
        change (Duty.outer j).due s + _ = (Duty.outer j).due s + _
        simp [Duty.Counts, Account.owes, Duty.account, Duty.target]
      | unwrapped j =>
        change (Duty.unwrapped j).due s + _ = (Duty.unwrapped j).due s + _
        simp [Duty.Counts, Account.owes, Duty.account, Duty.target]
      | inner j =>
        change (Duty.inner j).due s + _ = (Duty.inner j).due s + _
        simp [Duty.Counts, Account.owes, Duty.account, Duty.target]

theorem resolve_step {r : TreeResult} (sane : Sane s (.client .user ::ₘ others))
    (waiting : ∀ b ∈ s.posted, s.heap.Ready (futureAt b.tail))
    (ran : user s (.resolve b r) = some (s', calls)) : Sane s' (↑calls + others) := by
  simp only [user] at ran
  split at ran
  · rename_i pending
    cases ran
    apply sane.frame s.posted s.rootProduced _ sane.posted
    · intro j made
      by_cases current : j = b
      · exact current ▸ pending.1
      · rw [Function.update_of_ne current] at made
        exact sane.produced j made
    · simpa using waiting
    · simp only [List.mem_cons, List.not_mem_nil, or_false]
      rintro call (rfl | rfl)
      · exact sound_finish _ (by simp) (by simp)
      · exact sound_client _ (by simp)
    · simp
    · intro duty
      cases duty with
      | inner j =>
        by_cases current : j = b
        · subst current
          simp [Duty.due, Duty.Counts, Account.owes, Duty.account, Duty.target, pending.2]
        · simp [Duty.due, Duty.Counts, Account.owes, Duty.account, Duty.target, current]
      | root =>
        change Duty.root.due s + _ = Duty.root.due s + _
        simp [Duty.Counts, Account.owes, Duty.account, Duty.target]
      | outer j =>
        change (Duty.outer j).due s + _ = (Duty.outer j).due s + _
        simp [Duty.Counts, Account.owes, Duty.account, Duty.target]
      | unwrapped j =>
        change (Duty.unwrapped j).due s + _ = (Duty.unwrapped j).due s + _
        simp [Duty.Counts, Account.owes, Duty.account, Duty.target]
  · cases ran

/-- The executor runs what was posted. -/
theorem run_step (sane : Sane s (.client .user ::ₘ others))
    (waiting : ∀ b ∈ s.posted, s.heap.Ready (futureAt b.tail))
    (ran : user s (.run b) = some (s', calls)) : Sane s' (↑calls + others) := by
  simp only [user] at ran
  split at ran
  · rename_i member
    cases ran
    obtain ⟨distinct, branches⟩ := sane.posted
    apply sane.frame (s.posted.erase b) s.rootProduced s.produced
      ⟨distinct.erase b, fun j waits => branches j (List.mem_of_mem_erase waits)⟩ sane.produced
    · rintro j (waits | running)
      · exact waiting j (List.mem_of_mem_erase waits)
      · obtain rfl : j = b := by simpa using running
        exact waiting j member
    · simp only [List.mem_cons, List.not_mem_nil, or_false]
      rintro call (rfl | rfl)
      · exact sound_client _ (by simp)
      · exact sound_client _ (by simp)
    · simp
    · intro duty
      cases duty with
      | outer j =>
        change (decide (IsBranch s j ∧ _)).toNat + _ = (decide (IsBranch s j ∧ _)).toNat + _
        by_cases current : j = b
        · subst current
          simp [Duty.Counts, Account.owes, Duty.account, branches j member, member,
            distinct.not_mem_erase]
        · simp [Duty.Counts, Account.owes, Duty.account, Ne.symm current,
            List.mem_erase_of_ne current]
      | root =>
        change Duty.root.due s + _ = Duty.root.due s + _
        simp [Duty.Counts, Account.owes, Duty.account]
      | unwrapped j =>
        change (Duty.unwrapped j).due s + _ = (Duty.unwrapped j).due s + _
        simp [Duty.Counts, Account.owes, Duty.account]
      | inner j =>
        change (Duty.inner j).due s + _ = (Duty.inner j).due s + _
        simp [Duty.Counts, Account.owes, Duty.account]
  · cases ran

theorem user_step {choice : Choice} (sane : Sane s (.client .user ::ₘ others))
    (ran : user s choice = some (s', calls)) : Sane s' (↑calls + others) := by
  -- Most of what the user does adds at most one result that a producer owes.
  have waiting : ∀ b, b ∈ s.posted → s.heap.Ready (futureAt b.tail) := fun b member =>
    sane.run b (Or.inl member)
  cases choice with
  | «return» =>
    cases ran
    apply sane.frame s.posted s.rootProduced s.produced sane.posted sane.produced
    · simpa using waiting
    · simp
    · simp
    · intro duty
      cases duty <;> rfl
  | «continue» p andThen =>
    simp only [user] at ran
    split at ran
    · rename_i present
      cases ran
      exact thenUnwrap_step sane present
    · cases ran
  | requestCancel p =>
    cases ran
    apply sane.frame s.posted s.rootProduced s.produced sane.posted sane.produced
    · simpa using waiting
    · simp only [List.mem_cons, List.not_mem_nil, or_false]
      rintro call (rfl | rfl)
      · trivial
      · exact sound_client _ (by simp)
    · simp
    · intro duty
      change duty.due s + _ = _
      cases duty <;> simp [Duty.Counts, Account.owes, Duty.account]
  | resolveRoot r => exact resolveRoot_step sane waiting ran
  | resolve b r => exact resolve_step sane waiting ran
  | run b => exact run_step sane waiting ran
  | _ => cases ran

theorem post_step {choice : Choice} (sane : Sane s (.client (.post b) ::ₘ others))
    (ran : clientExec choice s (.post b) = some (s', calls)) : Sane s' (↑calls + others) := by
  have ready : s.heap.Ready (futureAt b.tail) := by
    obtain own | pushed | ⟨p, ⟨i, q, rfl, same⟩, ready⟩ := sane.calls _ (Multiset.mem_cons_self _ _)
    · exact absurd rfl (own b)
    · exact pushed.elim
    · cases same
      exact ready
  have owed : (Duty.outer b).account.owes (.client (.post b) : TreeAction) = 1 := by
    simp [Account.owes, Duty.account, Duty.Counts]
  have due := sane.due_of_pending (.outer b) (Multiset.mem_cons_self _ _) (by omega)
  obtain ⟨branch, absent⟩ : IsBranch s b ∧ b ∉ s.posted := by simpa [Duty.due] using due
  have later : Sane { s with posted := b :: s.posted } (↑([] : List TreeAction) + others) := by
    apply sane.frame (b :: s.posted) s.rootProduced s.produced _ sane.produced
    · rintro j (waits | running)
      · rcases List.mem_cons.mp waits with rfl | old
        · exact ready
        · exact sane.run j (Or.inl old)
      · cases running
    · simp
    · simp
    · intro duty
      cases duty with
      | outer j =>
        change (decide (IsBranch s j ∧ _)).toNat + _ = (decide (IsBranch s j ∧ _)).toNat + _
        by_cases current : j = b
        · subst current
          simp [Duty.Counts, branch, absent]
        · simp [Duty.Counts, current, Ne.symm current]
      | _ => rfl
    · refine ⟨List.nodup_cons.mpr ⟨absent, sane.posted.1⟩, fun j waits => ?_⟩
      rcases List.mem_cons.mp waits with rfl | old
      · exact branch
      · exact sane.posted.2 j old
  have now : Sane s (↑([.client (.packagedTask b)] : List TreeAction) + others) := by
    apply sane.frame s.posted s.rootProduced s.produced sane.posted sane.produced
    · rintro j (waits | running)
      · exact sane.run j (Or.inl waits)
      · obtain rfl : j = b := by simpa using running
        exact ready
    · simp only [List.mem_singleton]
      rintro call rfl
      exact sound_client _ (by simp)
    · simp
    · intro duty
      change duty.due s + _ = _
      cases duty <;> simp [Duty.Counts, Account.owes, Duty.account]
  cases choice with
  | later =>
    cases ran
    exact later
  | _ =>
    cases ran
    exact now

theorem clientExec_step {choice : Choice} (sane : Sane s (.client c ::ₘ others))
    (ran : clientExec choice s c = some (s', calls)) : Sane s' (↑calls + others) := by
  cases c with
  | user => exact user_step sane ran
  | post b => exact post_step sane ran
  | packagedTask b => exact packagedTask_step sane (Option.some.inj ran)
  | returnFuture b =>
    cases choice with
    | throws e =>
      cases ran
      apply sane.frame s.posted s.rootProduced s.produced sane.posted sane.produced
      · rintro j (waits | running)
        · exact sane.run j (Or.inl waits)
        · simp at running
      · simp only [List.mem_singleton]
        rintro call rfl
        exact sound_finish _ (by simp) fun _ _ => Or.inl ⟨e, rfl⟩
      · intro j r member
        obtain ⟨rfl, rfl⟩ : j = b ∧ r = .exception e := by simpa using member
        exact ⟨e, rfl⟩
      · intro duty
        change duty.due s + _ = _
        cases duty with
        | outer j =>
          by_cases current : b = j
          · simp [Duty.Counts, Account.owes, Duty.account, Duty.target, current]
          · simp [Duty.Counts, Account.owes, Duty.account, Duty.target, current, Ne.symm current]
        | _ => simp [Duty.Counts, Account.owes, Duty.account, Duty.target]
    | «returns» own r =>
      cases ran
      exact returnFuture_step sane
    | _ => cases ran

end Tconcurrent.UnwrapTree
