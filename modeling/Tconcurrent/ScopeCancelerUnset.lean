import Tconcurrent.ScopeCanceler

/-! When a `scope_canceler` unsets its own callback and no other.

An object pops by position and remembers only its token, so it has to be the newest on its
token when it is destroyed, and must not be overwritten.  A callback whose copy another
thread has taken is called in any case. -/
namespace Tconcurrent.ScopeCanceler
open Interleaving Newest

variable {s s' : State} {call : ScopeCall} {choice : Choice} {calls : List ScopeCall}
variable {pending others : Multiset ScopeCall} {h k t : ℕ}

/-- Only empty objects are assigned to, and what is destroyed was pushed last among what is
left on its token and has no copy of its callback on the way. -/
def Nested (s : State) : ScopeCall → Choice → Prop
  | .user, .moveAssign target source => target = source ∨ s.objects target = none
  | .user, .destroy h => ∀ k, s.objects h = some k → s.taken k = 0 ∧
    (s.expired (s.token k) = false → ∀ j < s.next, k < j → aliveOn s (s.token k) j = false)
  | _, _ => True

/-- `Nested`, decided. -/
def nested (s : State) : ScopeCall → Choice → Bool
  | .user, .moveAssign target source => decide (target = source ∨ s.objects target = none)
  | .user, .destroy h =>
    (s.objects h).all fun k => decide (s.taken k = 0) && (s.expired (s.token k) ||
      (List.range s.next).all fun j => !(decide (k < j) && aliveOn s (s.token k) j))
  | _, _ => true

theorem nested_sound (permitted : nested s call choice = true) : Nested s call choice := by
  unfold nested at permitted
  unfold Nested
  split at permitted
  · exact of_decide_eq_true permitted
  · intro k held
    rw [held, Option.all_some] at permitted
    obtain ⟨idle, last⟩ := Bool.and_eq_true_iff.mp permitted
    refine ⟨of_decide_eq_true idle, fun valid j below after => ?_⟩
    rw [valid, Bool.false_or] at last
    have none := List.all_eq_true.mp last j (List.mem_range.mpr below)
    simpa [after] using none
  · trivial

/-- The stack of a token lists the callbacks whose objects are left, the newest first, and
no other callback was ever called. -/
structure Exact (s : State) : Prop where
  stack : ∀ t, s.expired t = false → (s.tokens t).doCancels = newest (aliveOn s t) s.next
  called : s.stale = false

/-! ## The invariant -/

/-- Whether a call is that of a callback. -/
def callOf (k : ℕ) : ScopeCall → ℕ
  | .callback j => if j = k then 1 else 0
  | .user => 0

/-- Every object has a callback of its own. -/
structure Owned (s : State) : Prop where
  named : ∀ h k, s.objects h = some k → k < s.next ∧ h < s.nextObject
  unique : ∀ h h' k, s.objects h = some k → s.objects h' = some k → h = h'

structure Sane (s : State) (pending : Multiset ScopeCall) : Prop where
  owned : Owned s
  exact : Exact s
  taken : ∀ k, s.taken k = weight (callOf k) pending
  kept : ∀ k, 0 < s.taken k → alive s k = true

theorem Owned.alive_iff (owned : Owned s) : alive s k = true ↔ ∃ h, s.objects h = some k := by
  rw [alive, decide_eq_true_iff]
  exact ⟨fun ⟨h, _, held⟩ => ⟨h, held⟩, fun ⟨h, held⟩ => ⟨h, (owned.named h k held).2, held⟩⟩

/-- Where the objects have the same callbacks, the same callbacks are alive. -/
theorem alive_congr (owned : Owned s) (owned' : Owned s')
    (same : (∃ h, s'.objects h = some k) ↔ ∃ h, s.objects h = some k) :
    alive s' k = alive s k := by
  rw [Bool.eq_iff_iff, owned.alive_iff, owned'.alive_iff, same]

theorem weight_callbacks (callbacks : List ℕ) :
    weight (callOf k) (callbacks.map ScopeCall.callback : Multiset ScopeCall) =
      callbacks.count k := by
  induction callbacks with
  | nil => rfl
  | cons j rest ih =>
    rw [List.map_cons, weight_cons_coe, ih, List.count_cons, callOf, Nat.add_comm]
    simp

/-- An operation on a token leaves the stacks right if it leaves its own right, and what it
calls is alive. -/
theorem onToken_step {op : CancelationToken ℕ → CancelationToken ℕ × List ℕ} (owned : Owned s)
    (fresh : s.stale = false) (taken : ∀ k, s.taken k = weight (callOf k) others)
    (kept : ∀ k, 0 < s.taken k → alive s k = true)
    (elsewhere : ∀ u, u ≠ t → s.expired u = false →
      (s.tokens u).doCancels = newest (aliveOn s u) s.next)
    (here : s.expired t = false → (op (s.tokens t)).1.doCancels = newest (aliveOn s t) s.next)
    (selected : ∀ k ∈ (op (s.tokens t)).2, alive s k = true) :
    Sane (onToken s t op).1 (↑((onToken s t op).2 ++ [ScopeCall.user]) + others) := by
  refine ⟨⟨owned.named, owned.unique⟩, ⟨fun u valid => ?_, fresh⟩, fun k => ?_, fun k some => ?_⟩
  · rcases eq_or_ne u t with rfl | other
    · simp only [onToken, Function.update_self]
      exact here valid
    · simp only [onToken, Function.update_of_ne other]
      exact elsewhere u other valid
  · rw [← Multiset.coe_add, weight_add, weight_add]
    simp only [onToken, weight_callbacks, ← taken k]
    simp [callOf, Nat.add_comm]
  · rcases Nat.eq_zero_or_pos (s.taken k) with none | before
    · simp only [onToken, none, Nat.zero_add] at some
      exact selected k (List.count_pos_iff.mp some)
    · exact kept k before

/-- What is left of the calls when the current one was user code. -/
theorem Sane.taken_user (sane : Sane s (.user ::ₘ others)) (k : ℕ) :
    s.taken k = weight (callOf k) others := by
  rw [sane.taken, weight_cons, callOf, Nat.zero_add]

/-- An operation that pushes and pops nothing, and leaves the same callbacks alive. -/
theorem Sane.same (sane : Sane s (.user ::ₘ others)) (owned : Owned s') (tokens : s'.tokens = s.tokens)
    (token : s'.token = s.token) (next : s'.next = s.next) (taken : s'.taken = s.taken)
    (expired : ∀ t, s'.expired t = false → s.expired t = false) (stale : s'.stale = s.stale)
    (living : ∀ k, alive s' k = alive s k) : Sane s' (.user ::ₘ others) := by
  have livingOn : ∀ t, aliveOn s' t = aliveOn s t := by
    intro t
    funext k
    rw [aliveOn, aliveOn, token, living]
  refine ⟨owned, ⟨fun t valid => ?_, stale.trans sane.exact.called⟩, fun k => ?_, fun k some => ?_⟩
  · rw [tokens, livingOn, next]
    exact sane.exact.stack t (expired t valid)
  · rw [taken]
    exact sane.taken k
  · rw [living]
    rw [taken] at some
    exact sane.kept k some

/-! ## Steps -/

/-- Where a new object is put. -/
theorem Owned.vacant (owned : Owned s) : s.objects s.nextObject = none := by
  by_contra some
  obtain ⟨k, held⟩ := Option.ne_none_iff_exists'.mp some
  exact Nat.lt_irrefl _ (owned.named _ k held).2

theorem makeScopeCanceler_step (sane : Sane s (.user ::ₘ others)) :
    Sane (makeScopeCanceler t s).1 (↑((makeScopeCanceler t s).2 ++ [ScopeCall.user]) + others) := by
  unfold makeScopeCanceler
  generalize made : ({ s with
      token := Function.update s.token s.next t
      next := s.next + 1
      objects := Function.update s.objects s.nextObject (some s.next)
      nextObject := s.nextObject + 1 } : State) = s'
  obtain ⟨tokens, next, expired, stale, taken, nextObject⟩ : s'.tokens = s.tokens ∧
      s'.next = s.next + 1 ∧ s'.expired = s.expired ∧ s'.stale = s.stale ∧ s'.taken = s.taken ∧
      s'.nextObject = s.nextObject + 1 := by
    rw [← made]
    exact ⟨rfl, rfl, rfl, rfl, rfl, rfl⟩
  have own : s'.objects s.nextObject = some s.next := by
    rw [← made]
    exact Function.update_self ..
  have elsewhere : ∀ h, h ≠ s.nextObject → s'.objects h = s.objects h := by
    rw [← made]
    exact fun h other => Function.update_of_ne other ..
  have owned : Owned s' := by
    constructor
    · intro h k held
      rw [next, nextObject]
      rcases eq_or_ne h s.nextObject with rfl | other
      · rw [own] at held
        cases held
        exact ⟨Nat.lt_succ_self _, Nat.lt_succ_self _⟩
      · rw [elsewhere h other] at held
        obtain ⟨known, below⟩ := sane.owned.named h k held
        exact ⟨Nat.lt_succ_of_lt known, Nat.lt_succ_of_lt below⟩
    · intro h h' k held held'
      rcases eq_or_ne h s.nextObject with rfl | other <;>
        rcases eq_or_ne h' s.nextObject with rfl | other'
      · rfl
      · rw [own] at held
        rw [elsewhere h' other'] at held'
        cases held
        exact absurd (sane.owned.named h' _ held').1 (Nat.lt_irrefl _)
      · rw [elsewhere h other] at held
        rw [own] at held'
        cases held'
        exact absurd (sane.owned.named h _ held).1 (Nat.lt_irrefl _)
      · rw [elsewhere h other] at held
        rw [elsewhere h' other'] at held'
        exact sane.owned.unique h h' k held held'
  have born : alive s' s.next = true := owned.alive_iff.mpr ⟨_, own⟩
  have token : s'.token s.next = t ∧ ∀ k < s.next, s'.token k = s.token k := by
    rw [← made]
    exact ⟨Function.update_self .., fun k below => Function.update_of_ne (Nat.ne_of_lt below) ..⟩
  have living : ∀ k < s.next, alive s' k = alive s k := by
    intro k below
    refine alive_congr sane.owned owned ⟨fun ⟨h, held⟩ => ?_, fun ⟨h, held⟩ => ⟨h, ?_⟩⟩
    · rcases eq_or_ne h s.nextObject with rfl | other
      · rw [own] at held
        cases held
        exact absurd below (Nat.lt_irrefl _)
      · exact ⟨h, elsewhere h other ▸ held⟩
    · rw [elsewhere h (Nat.ne_of_lt (sane.owned.named h k held).2), held]
  have livingOn : ∀ u, ∀ k < s.next, aliveOn s' u k = aliveOn s u k := by
    intro u k below
    rw [aliveOn, aliveOn, token.2 k below, living k below]
  apply onToken_step owned (stale.trans sane.exact.called)
  · intro k
    rw [taken]
    exact sane.taken_user k
  · intro k some
    rw [taken] at some
    have before := sane.kept k some
    obtain ⟨h, held⟩ := sane.owned.alive_iff.mp before
    rw [living k (sane.owned.named h k held).1]
    exact before
  · intro u other valid
    rw [tokens, next, newest_skip (by simp [aliveOn, token.1, other.symm]) (livingOn u)]
    exact sane.exact.stack u (expired ▸ valid)
  · intro valid
    rw [tokens, next, newest_push (by simp [aliveOn, token.1, born]) (livingOn t),
      ← sane.exact.stack t (expired ▸ valid)]
    rfl
  · intro k selected
    have same : k = s.next := by
      simp only [CancelationToken.pushCancelationCallback] at selected
      split at selected
      · exact List.mem_singleton.mp selected
      · cases selected
    rw [same, born]

theorem requestCancel_step (sane : Sane s (.user ::ₘ others)) (valid : s.expired t = false) :
    Sane (onToken s t (·.requestCancel)).1
      (↑((onToken s t (·.requestCancel)).2 ++ [ScopeCall.user]) + others) := by
  refine onToken_step sane.owned sane.exact.called sane.taken_user sane.kept
    (fun u _ => sane.exact.stack u) (fun valid => sane.exact.stack t valid) fun k selected => ?_
  have listed : k ∈ (s.tokens t).doCancels :=
    List.mem_of_mem_head? (by simpa [CancelationToken.requestCancel] using selected)
  rw [sane.exact.stack t valid] at listed
  exact (Bool.and_eq_true_iff.mp (mem_newest.mp listed).2).2

/-- Where the callbacks are after one of them has moved to an empty object. -/
theorem moved_iff {objects : ℕ → Option ℕ} {target source : ℕ} :
    Function.update (Function.update objects source none) target (objects source) h = some k ↔
      (h = target ∧ objects source = some k) ∨ (h ≠ target ∧ h ≠ source ∧ objects h = some k) := by
  rcases eq_or_ne h target with rfl | other
  · simp
  · rw [Function.update_of_ne other]
    rcases eq_or_ne h source with rfl | different
    · simp [other]
    · simp [other, different]

theorem Sane.move {target source : ℕ} (sane : Sane s (.user ::ₘ others))
    (empty : s.objects target = none) (different : target ≠ source)
    (moved : s'.objects =
      Function.update (Function.update s.objects source none) target (s.objects source))
    (grown : s.nextObject ≤ s'.nextObject) (below : target < s'.nextObject)
    (tokens : s'.tokens = s.tokens) (token : s'.token = s.token) (next : s'.next = s.next)
    (taken : s'.taken = s.taken) (expired : s'.expired = s.expired) (stale : s'.stale = s.stale) :
    Sane s' (.user ::ₘ others) := by
  have owned : Owned s' := by
    constructor
    · intro h k held
      rw [moved, moved_iff] at held
      rw [next]
      rcases held with ⟨rfl, held⟩ | ⟨-, -, held⟩
      · exact ⟨(sane.owned.named _ k held).1, below⟩
      · obtain ⟨known, inside⟩ := sane.owned.named h k held
        exact ⟨known, Nat.lt_of_lt_of_le inside grown⟩
    · intro h h' k held held'
      rw [moved, moved_iff] at held held'
      rcases held with ⟨rfl, held⟩ | ⟨-, other, held⟩ <;>
        rcases held' with ⟨rfl, held'⟩ | ⟨-, other', held'⟩
      · rfl
      · exact absurd (sane.owned.unique _ _ k held' held) other'
      · exact absurd (sane.owned.unique _ _ k held held') other
      · exact sane.owned.unique h h' k held held'
  refine sane.same owned tokens token next taken (fun t valid => expired ▸ valid) stale fun k =>
    alive_congr sane.owned owned ⟨fun ⟨h, held⟩ => ?_, fun ⟨h, held⟩ => ?_⟩
  · rw [moved, moved_iff] at held
    rcases held with ⟨-, held⟩ | ⟨-, -, held⟩
    · exact ⟨source, held⟩
    · exact ⟨h, held⟩
  · rcases eq_or_ne h source with rfl | other
    · exact ⟨target, by rw [moved, moved_iff]; exact .inl ⟨rfl, held⟩⟩
    · have occupied : h ≠ target := by
        rintro rfl
        rw [empty] at held
        cases held
      exact ⟨h, by rw [moved, moved_iff]; exact .inr ⟨occupied, other, held⟩⟩

/-- What is destroyed pops its own callback if it is the newest that is left. -/
theorem destroy_step (sane : Sane s (.user ::ₘ others)) (ordered : Nested s .user (.destroy h)) :
    Sane (destroy h s).1 (↑((destroy h s).2 ++ [ScopeCall.user]) + others) := by
  unfold destroy
  dsimp only
  split
  · exact sane
  · rename_i k held
    obtain ⟨idle, last⟩ := ordered k held
    generalize made : ({ s with objects := Function.update s.objects h none } : State) = s'
    obtain ⟨tokens, token, next, expired, stale, taken, nextObject⟩ : s'.tokens = s.tokens ∧
        s'.token = s.token ∧ s'.next = s.next ∧ s'.expired = s.expired ∧ s'.stale = s.stale ∧
        s'.taken = s.taken ∧ s'.nextObject = s.nextObject := by
      rw [← made]
      exact ⟨rfl, rfl, rfl, rfl, rfl, rfl, rfl⟩
    have elsewhere : ∀ h', h' ≠ h → s'.objects h' = s.objects h' := by
      rw [← made]
      exact fun h' other => Function.update_of_ne other ..
    have own : s'.objects h = none := by
      rw [← made]
      exact Function.update_self ..
    have kept : ∀ h' j, s'.objects h' = some j → h' ≠ h ∧ s.objects h' = some j := by
      intro h' j left
      have other : h' ≠ h := by
        intro same
        rw [same, own] at left
        cases left
      exact ⟨other, elsewhere h' other ▸ left⟩
    have owned : Owned s' := by
      constructor
      · intro h' j held
        rw [next, nextObject]
        exact sane.owned.named h' j (kept h' j held).2
      · intro h' h'' j held held'
        exact sane.owned.unique h' h'' j (kept h' j held).2 (kept h'' j held').2
    have dead : alive s' k = false := by
      rw [← Bool.not_eq_true, owned.alive_iff]
      rintro ⟨h', held'⟩
      exact (kept h' k held').1 (sane.owned.unique h' h k (kept h' k held').2 held)
    have living : ∀ j, j ≠ k → alive s' j = alive s j := by
      intro j other
      refine alive_congr sane.owned owned ⟨fun ⟨h', held'⟩ => ⟨h', (kept h' j held').2⟩,
        fun ⟨h', held'⟩ => ⟨h', ?_⟩⟩
      rw [elsewhere h', held']
      rintro rfl
      rw [held] at held'
      exact other (Option.some.inj held').symm
    have livingOn : ∀ u j, j ≠ k → aliveOn s' u j = aliveOn s u j := by
      intro u j other
      rw [aliveOn, aliveOn, token, living j other]
    have others' : ∀ u, u ≠ s.token k → s.expired u = false →
        (s'.tokens u).doCancels = newest (aliveOn s' u) s'.next := by
      intro u other valid
      rw [tokens, next, sane.exact.stack u valid]
      refine (newest_congr fun j _ => ?_).symm
      rcases eq_or_ne j k with rfl | different
      · simp [aliveOn, token, other.symm]
      · exact livingOn u j different
    have called : ∀ j, 0 < s'.taken j → alive s' j = true := by
      intro j some
      rw [taken] at some
      rw [living j]
      · exact sane.kept j some
      · rintro rfl
        omega
    have below : k < s.next := (sane.owned.named h k held).1
    split
    · rename_i gone
      refine ⟨owned, ⟨fun u valid => ?_, stale.trans sane.exact.called⟩, fun j => ?_, called⟩
      · rw [expired] at valid
        refine others' u ?_ valid
        rintro rfl
        rw [gone] at valid
        cases valid
      · rw [taken]
        exact sane.taken j
    · rename_i valid
      have valid : s.expired (s.token k) = false := by simpa using valid
      have top : (s'.tokens (s.token k)).doCancels =
          k :: newest (aliveOn s' (s.token k)) s'.next := by
        rw [tokens, next, sane.exact.stack _ valid]
        refine newest_pop below ?_ (fun j after before => last valid j before after) ?_
          (livingOn (s.token k))
        · simp [aliveOn, sane.owned.alive_iff.mpr ⟨h, held⟩]
        · simp [aliveOn, dead]
      apply onToken_step owned (stale.trans sane.exact.called)
      · intro j
        rw [taken]
        exact sane.taken_user j
      · exact called
      · exact fun u other valid => others' u other (expired ▸ valid)
      · intro _
        simp [CancelationToken.popCancelationCallback, top]
      · intro j selected
        have listed : j ∈ newest (aliveOn s' (s.token k)) s'.next := by
          simp only [CancelationToken.popCancelationCallback, top, List.tail_cons] at selected
          split at selected
          · exact List.mem_of_mem_head? (by simpa using selected)
          · cases selected
        exact (Bool.and_eq_true_iff.mp (mem_newest.mp listed).2).2

theorem user_step (sane : Sane s (.user ::ₘ others)) (ordered : Nested s .user choice)
    (ran : user s choice = some (s', calls)) : Sane s' (↑calls + others) := by
  cases choice with
  | «return» =>
    cases ran
    refine ⟨sane.owned, sane.exact, fun k => ?_, sane.kept⟩
    rw [Multiset.coe_nil, zero_add]
    exact sane.taken_user k
  | makeToken =>
    cases ran
    exact sane.same ⟨sane.owned.named, sane.owned.unique⟩ rfl rfl rfl rfl (fun _ valid => valid)
      rfl fun _ => rfl
  | makeScopeCanceler t =>
    simp only [user] at ran
    split at ran
    · cases ran
      exact makeScopeCanceler_step sane
    · cases ran
  | empty =>
    cases ran
    have owned : Owned { s with nextObject := s.nextObject + 1 } :=
      ⟨fun h k held => ⟨(sane.owned.named h k held).1,
        Nat.lt_succ_of_lt (sane.owned.named h k held).2⟩, sane.owned.unique⟩
    exact sane.same owned rfl rfl rfl rfl (fun _ valid => valid) rfl fun k =>
      alive_congr sane.owned owned Iff.rfl
  | moveConstruct h =>
    simp only [user] at ran
    split at ran
    · rename_i below
      cases ran
      exact sane.move sane.owned.vacant (Nat.ne_of_gt below) rfl (Nat.le_succ _)
        (Nat.lt_succ_self _) rfl rfl rfl rfl rfl rfl
    · cases ran
  | moveAssign target source =>
    simp only [user] at ran
    split at ran
    · rename_i below
      cases ran
      unfold moveAssign
      split
      · exact sane
      · rename_i different
        have empty := Or.resolve_left ordered different
        exact sane.move empty different rfl (Nat.le_refl _) below.1 rfl rfl rfl rfl rfl rfl
    · cases ran
  | destroy h =>
    simp only [user] at ran
    split at ran
    · cases ran
      exact destroy_step sane ordered
    · cases ran
  | requestCancel t =>
    simp only [user] at ran
    split at ran
    · rename_i valid
      cases ran
      exact requestCancel_step sane valid.2
    · cases ran
  | dropToken t =>
    simp only [user] at ran
    split at ran
    · cases ran
      refine sane.same ⟨sane.owned.named, sane.owned.unique⟩ rfl rfl rfl rfl (fun u valid => ?_) rfl
        fun _ => rfl
      rcases eq_or_ne u t with rfl | other
      · simp at valid
      · simpa [Function.update_of_ne other] using valid
    · cases ran

/-- A callback is called while its object is left. -/
theorem callback_step (sane : Sane s (.callback k ::ₘ others)) :
    Sane (callback k s).1 (↑(callback k s).2 + others) := by
  have count := sane.taken k
  rw [weight_cons, callOf, if_pos rfl] at count
  have living : alive s k = true := sane.kept k (by omega)
  refine ⟨⟨sane.owned.named, sane.owned.unique⟩, ⟨sane.exact.stack, ?_⟩, fun j => ?_,
    fun j some => ?_⟩
  · simp [callback, living, sane.exact.called]
  · have before := sane.taken j
    rw [weight_cons, callOf] at before
    have none : weight (callOf j) ((callback k s).2 : Multiset ScopeCall) = 0 := by
      simp [callback, callOf]
    rw [weight_add, none, Nat.zero_add]
    rcases eq_or_ne j k with rfl | other
    · simp only [callback, Function.update_self]
      omega
    · simpa [callback, Function.update_of_ne other, other.symm] using before
  · rcases eq_or_ne j k with rfl | other
    · exact living
    · exact sane.kept j (by simpa [callback, Function.update_of_ne other] using some)

/-- Every step leaves the stacks right. -/
theorem exec_step {thread : ℕ} (sane : Sane s (call ::ₘ others)) (ordered : Nested s call choice)
    (ran : exec thread choice s call = some (s', calls)) : Sane s' (↑calls + others) := by
  cases call with
  | user => exact user_step sane ordered ran
  | callback k =>
    have made : callback k s = (s', calls) := Option.some.inj ran
    have stepped := callback_step sane
    rwa [made] at stepped

/-! ## Runs -/

variable {threads : ℕ} {config : Config State ScopeCall}

theorem sane_start : Sane (start threads).state (start threads).pending := by
  refine ⟨⟨fun h k held => ?_, fun h h' k held => ?_⟩, ⟨fun _ _ => rfl, rfl⟩, fun k => ?_,
    fun k some => ?_⟩
  · cases held
  · cases held
  · rw [start, Config.pending_replicate]
    simp [weight, callOf]
  · cases some

/-- In every run in which objects are nested, each of them unsets its own callback and no
other. -/
theorem exact_of_nested (reached : Reachable exec Nested (start threads) config) :
    Exact config.state :=
  (reached.invariant Sane sane_start
    fun _ _ _ _ _ _ _ sane ordered ran => exec_step sane ordered ran).exact

/-- Two nested objects, one of them moved, and a request that finds the inner one. -/
theorem exact_nestedScopes : ∃ config : Config State ScopeCall, Exact config.state ∧
    (config.state.tokens 0).doCancels = [0] ∧
    (config.state.tokens 0).isCancelRequested = true := by
  have ran : ((start 2).runWithin exec nested
      [(0, .makeToken), (0, .makeScopeCanceler 0), (0, .makeScopeCanceler 0), (0, .moveConstruct 1),
        (1, .requestCancel 0), (1, .return), (0, .destroy 1), (0, .destroy 2)]).map (fun config =>
      decide ((config.state.tokens 0).doCancels = [0] ∧
        (config.state.tokens 0).isCancelRequested = true)) = some true := by decide
  obtain ⟨config, reached, holds⟩ := reachable_of_replay_within
    (fun _ _ _ permitted => nested_sound permitted) _ _ ran
  exact ⟨config, exact_of_nested reached, of_decide_eq_true holds⟩

/-- `canceler = {}` over an object that is in use leaves its callback on the token, and a
request calls it. -/
theorem overwritten_canceler_stays : ∃ config,
    Reachable exec Anything (start 1) config ∧ ¬Exact config.state := by
  have ran : ((start 1).run exec
      [(0, .makeToken), (0, .makeScopeCanceler 0), (0, .empty), (0, .moveAssign 0 1),
        (0, .requestCancel 0), (0, .return)]).map (fun config => config.state.stale) = some true := by
    decide
  obtain ⟨config, reached, stale⟩ := reachable_of_replay _ _ ran
  refine ⟨config, reached, fun exact => ?_⟩
  rw [exact.called] at stale
  cases stale

end Tconcurrent.ScopeCanceler
