import Tconcurrent.Newest
import Tconcurrent.Primitives

/-! When the stack of a token lists the cancelers of what is pending.

Callbacks are popped by position: the stack is right as long as what ends is what was
pushed last on its token, its future is still on that token, and no pending task loses
its last copy. -/
namespace Tconcurrent.Primitives
open Interleaving Newest

variable {s s' : State} {call : PrimitiveCall} {choice : Choice} {calls : List PrimitiveCall}
variable {pending pending' others : Multiset PrimitiveCall} {i t : ℕ} {path : Path}

/-- The cancelers on a token that wait for their pop. -/
def waits (s : State) (t i : ℕ) : Bool :=
  decide ((s.primitives i).token = t) && !(s.primitives i).popped

/-- What ends pops from the token it was pushed on, and what was pushed there later has
been popped; a task that has not been called or cancelled keeps a copy. -/
def Orderly (s : State) : PrimitiveCall → Choice → Prop
  | .popCancelationCallback i path, _ =>
    (s.primitives i).popsFrom path = some (s.primitives i).token ∧
      ∀ j < s.next, i < j → waits s (s.primitives i).token j = false
  | .user, .destroy i =>
    (s.primitives i).copies + (s.primitives i).locks = 1 → (s.primitives i).isDone = true
  | _, _ => True

/-- `Orderly`, decided. -/
def orderly (s : State) : PrimitiveCall → Choice → Bool
  | .popCancelationCallback i path, _ =>
    decide ((s.primitives i).popsFrom path = some (s.primitives i).token) &&
      (List.range s.next).all fun j => !(decide (i < j) && waits s (s.primitives i).token j)
  | .user, .destroy i =>
    decide ((s.primitives i).copies + (s.primitives i).locks ≠ 1) || (s.primitives i).isDone
  | _, _ => true

theorem orderly_sound (permitted : orderly s call choice = true) : Orderly s call choice := by
  unfold orderly at permitted
  unfold Orderly
  split at permitted
  · obtain ⟨home, last⟩ := Bool.and_eq_true_iff.mp permitted
    refine ⟨of_decide_eq_true home, fun j below after => ?_⟩
    have none := List.all_eq_true.mp last j (List.mem_range.mpr below)
    simpa [after] using none
  · intro lastCopy
    simpa [lastCopy] using permitted
  · trivial

/-- The stack of every token lists, the newest first, the cancelers that were pushed there
and wait for their pop: those of what was neither called nor cancelled nor abandoned, and
of what is just being ended.  No pop was wrong, and no assertion has failed. -/
structure Exact (s : State) (pending : Multiset PrimitiveCall) : Prop where
  stack : ∀ t, (s.tokens t).doCancels = newest (waits s t) s.next
  waiting : ∀ i < s.next, (s.primitives i).popped = false ↔
    (s.primitives i).isDone = false ∨ ∃ path, .popCancelationCallback i path ∈ pending
  kept : ∀ i < s.next, (s.primitives i).isDone = false →
    0 < (s.primitives i).copies + (s.primitives i).locks
  pops : s.poppedEmpty = false ∧ s.poppedOther = false ∧ s.noToken = false
  asserts : s.assertFailed = false

/-! ## The invariant -/

/-- Whether a call is the pop of a primitive. -/
def popOf (i : ℕ) : PrimitiveCall → ℕ
  | .popCancelationCallback j _ => if j = i then 1 else 0
  | _ => 0

/-- What is about to be called exists. -/
def Named (s : State) : PrimitiveCall → Prop
  | .canceler i | .cancel i => i < s.next
  | .dropLock i => i < s.next ∧ (s.primitives i).isDone = true
  | _ => True

structure Sane (s : State) (pending : Multiset PrimitiveCall) : Prop where
  stack : ∀ t, (s.tokens t).doCancels = newest (waits s t) s.next
  ending : ∀ i, weight (popOf i) pending =
    if i < s.next ∧ (s.primitives i).isDone = true ∧ (s.primitives i).popped = false then 1 else 0
  done : ∀ i < s.next, (s.primitives i).popped = true → (s.primitives i).isDone = true
  kept : ∀ i < s.next, (s.primitives i).isDone = false →
    0 < (s.primitives i).copies + (s.primitives i).locks
  named : ∀ call ∈ pending, Named s call
  right : s.poppedEmpty = false ∧ s.poppedOther = false ∧ s.noToken = false
  asserts : s.assertFailed = false

theorem popOf_pos (popping : 0 < popOf i call) :
    ∃ path, call = .popCancelationCallback i path := by
  cases call with
  | popCancelationCallback j path =>
    simp only [popOf] at popping
    split at popping
    · rename_i same
      exact ⟨path, by rw [same]⟩
    · cases popping
  | _ => cases popping

theorem Sane.exact (sane : Sane s pending) : Exact s pending := by
  refine ⟨sane.stack, fun i below => ?_, sane.kept, sane.right, sane.asserts⟩
  have count := sane.ending i
  constructor
  · intro unpopped
    rcases Bool.eq_false_or_eq_true (s.primitives i).isDone with ended | waiting
    · rw [if_pos ⟨below, ended, unpopped⟩] at count
      obtain ⟨call, member, popping⟩ := exists_of_weight_pos (count ▸ Nat.one_pos)
      obtain ⟨path, rfl⟩ := popOf_pos popping
      exact .inr ⟨path, member⟩
    · exact .inl waiting
  · rintro (waiting | ⟨path, member⟩)
    · by_contra popped
      rw [sane.done i below (by simpa using popped)] at waiting
      cases waiting
    · have positive := measure_le_weight (popOf i) member
      simp only [popOf, if_true] at positive
      split at count
      · rename_i ending
        exact ending.2.2
      · omega

/-! ## What keeps the invariant -/

/-- Nothing is pushed, popped or ended, and what is pending keeps its copies. -/
structure Quiet (s s' : State) : Prop where
  stack : ∀ t, (s'.tokens t).doCancels = (s.tokens t).doCancels
  next : s'.next = s.next
  same : ∀ i, (s'.primitives i).token = (s.primitives i).token ∧
    (s'.primitives i).popped = (s.primitives i).popped ∧
    (s'.primitives i).isDone = (s.primitives i).isDone
  kept : ∀ i < s.next, (s.primitives i).isDone = false →
    0 < (s.primitives i).copies + (s.primitives i).locks →
    0 < (s'.primitives i).copies + (s'.primitives i).locks
  right : s'.poppedEmpty = s.poppedEmpty ∧ s'.poppedOther = s.poppedOther ∧
    s'.noToken = s.noToken ∧ s'.assertFailed = s.assertFailed

theorem Quiet.waits (quiet : Quiet s s') : waits s' t = waits s t := by
  funext i
  obtain ⟨token, popped, -⟩ := quiet.same i
  rw [Primitives.waits, token, popped, Primitives.waits]

/-- What exists goes on to exist, and what is done stays done. -/
theorem Named.mono (grows : s.next ≤ s'.next)
    (done : ∀ i < s.next, (s.primitives i).isDone = true → (s'.primitives i).isDone = true)
    (named : Named s call) : Named s' call := by
  cases call with
  | canceler i => exact Nat.lt_of_lt_of_le named grows
  | cancel i => exact Nat.lt_of_lt_of_le named grows
  | dropLock i => exact ⟨Nat.lt_of_lt_of_le named.1 grows, done i named.1 named.2⟩
  | _ => trivial

theorem Quiet.named (quiet : Quiet s s') (named : Named s call) : Named s' call :=
  named.mono quiet.next.ge fun i _ done => (quiet.same i).2.2.trans done

theorem weight_idle (idle : ∀ call ∈ calls, ∀ j, popOf j call = 0) :
    weight (popOf i) (calls : Multiset PrimitiveCall) = 0 := by
  by_contra some
  obtain ⟨call, member, popping⟩ := exists_of_weight_pos (Nat.pos_of_ne_zero some)
  rw [idle call (Multiset.mem_coe.mp member) i] at popping
  cases popping

/-- The calls that a quiet step makes pop nothing, and what they name exists. -/
theorem Sane.quiet (sane : Sane s (call ::ₘ others)) (quiet : Quiet s s')
    (idle : ∀ i, popOf i call = 0)
    (made : ∀ call ∈ calls, (∀ i, popOf i call = 0) ∧ Named s' call) : Sane s' (↑calls + others) := by
  have none (i : ℕ) := weight_idle (i := i) fun call member => (made call member).1
  constructor
  · intro t
    rw [quiet.stack, sane.stack, quiet.waits, quiet.next]
  · intro i
    have count := sane.ending i
    obtain ⟨-, popped, ended⟩ := quiet.same i
    rw [weight_cons, idle i, Nat.zero_add] at count
    rw [weight_add, none i, Nat.zero_add, count, quiet.next, popped, ended]
  · intro i below popped
    rw [quiet.next] at below
    rw [(quiet.same i).2.1] at popped
    rw [(quiet.same i).2.2]
    exact sane.done i below popped
  · intro i below waiting
    rw [quiet.next] at below
    rw [(quiet.same i).2.2] at waiting
    exact quiet.kept i below waiting (sane.kept i below waiting)
  · exact mem_after (fun call member => (made call member).2) fun call member =>
      quiet.named (sane.named call (Multiset.mem_cons_of_mem member))
  · obtain ⟨empty, other, token, -⟩ := quiet.right
    rw [empty, other, token]
    exact sane.right
  · rw [quiet.right.2.2.2]
    exact sane.asserts

/-- A primitive that changes in other ways. -/
theorem quiet_set {primitive : Primitive} (token : primitive.token = (s.primitives i).token)
    (popped : primitive.popped = (s.primitives i).popped)
    (ended : primitive.isDone = (s.primitives i).isDone)
    (kept : i < s.next → (s.primitives i).isDone = false →
      0 < (s.primitives i).copies + (s.primitives i).locks →
      0 < primitive.copies + primitive.locks) : Quiet s (s.set i primitive) := by
  refine ⟨fun _ => rfl, rfl, fun j => ?_, fun j below waiting copies => ?_, rfl, rfl, rfl, rfl⟩
  · rcases eq_or_ne j i with rfl | other
    · simp [State.set, token, popped, ended]
    · simp [State.set, Function.update_of_ne other]
  · rcases eq_or_ne j i with rfl | other
    · simpa [State.set] using kept below waiting copies
    · simpa [State.set, Function.update_of_ne other] using copies

theorem Quiet.refl : Quiet s s :=
  ⟨fun _ => rfl, rfl, fun _ => ⟨rfl, rfl, rfl⟩, fun _ _ _ copies => copies, rfl, rfl, rfl, rfl⟩

/-- A primitive that was not called or cancelled is, and its pop comes next. -/
theorem Sane.ends {primitive : Primitive} (sane : Sane s (call ::ₘ others))
    (idle : ∀ j, popOf j call = 0) (below : i < s.next)
    (waiting : (s.primitives i).isDone = false)
    (token : primitive.token = (s.primitives i).token)
    (popped : primitive.popped = (s.primitives i).popped) (ended : primitive.isDone = true)
    (popping : ∀ j, weight (popOf j) (calls : Multiset PrimitiveCall) = if j = i then 1 else 0)
    (made : ∀ call ∈ calls, Named (s.set i primitive) call) :
    Sane (s.set i primitive) (↑calls + others) := by
  have unpopped : (s.primitives i).popped = false := by
    by_contra popped
    rw [sane.done i below (by simpa using popped)] at waiting
    cases waiting
  have same : ∀ j, j ≠ i → (s.set i primitive).primitives j = s.primitives j :=
    fun j other => Function.update_of_ne other ..
  have own : (s.set i primitive).primitives i = primitive := Function.update_self ..
  constructor
  · intro t
    refine (sane.stack t).trans (newest_congr fun j _ => ?_).symm
    rcases eq_or_ne j i with rfl | other
    · rw [waits, waits, own, token, popped]
    · rw [waits, waits, same j other]
  · intro j
    have count := sane.ending j
    rw [weight_cons, idle j, Nat.zero_add] at count
    rw [weight_add, popping j, count]
    rcases eq_or_ne j i with rfl | other
    · rw [own]
      simp only [waiting, popped, unpopped, ended, and_true, Bool.false_eq_true, and_false, if_true,
        if_false]
      exact (if_pos below).symm
    · rw [same j other, if_neg other, Nat.zero_add]
      rfl
  · intro j below popped
    rcases eq_or_ne j i with rfl | other
    · rw [own, ended]
    · rw [same j other] at popped ⊢
      exact sane.done j below popped
  · intro j below waiting
    rcases eq_or_ne j i with rfl | other
    · rw [own, ended] at waiting
      cases waiting
    · rw [same j other] at waiting ⊢
      exact sane.kept j below waiting
  · refine mem_after made fun call member => ?_
    have named := sane.named call (Multiset.mem_cons_of_mem member)
    refine Named.mono (s := s) (Nat.le_refl s.next) (fun j _ done => ?_) named
    rcases eq_or_ne j i with rfl | other
    · rw [own, ended]
    · rw [same j other]
      exact done
  · exact sane.right
  · exact sane.asserts

/-- What a token calls is on its stack. -/
theorem Sane.selected (sane : Sane s pending) {callbacks : List ℕ}
    (listed : ∀ i ∈ callbacks, i ∈ (s.tokens t).doCancels) :
    ∀ call ∈ callbacks.map PrimitiveCall.canceler,
      (∀ i, popOf i call = 0) ∧ Named s call := by
  intro call member
  obtain ⟨i, selected, rfl⟩ := List.mem_map.mp member
  have known := listed i selected
  rw [sane.stack] at known
  exact ⟨fun _ => rfl, (mem_newest.mp known).1⟩

theorem requestCancel_step (sane : Sane s (.user ::ₘ others)) :
    Sane (requestCancel t s).1 (↑((requestCancel t s).2 ++ [PrimitiveCall.user]) + others) := by
  have quiet : Quiet s (requestCancel t s).1 := by
    refine ⟨fun u => ?_, rfl, fun _ => ⟨rfl, rfl, rfl⟩, fun _ _ _ kept => kept, rfl, rfl, rfl, rfl⟩
    rcases eq_or_ne u t with rfl | other
    · simp [requestCancel, State.setToken, CancelationToken.requestCancel]
    · simp [requestCancel, State.setToken, Function.update_of_ne other]
  refine sane.quiet quiet (fun _ => rfl) fun call member => ?_
  rcases List.mem_append.mp member with selected | last
  · obtain ⟨idle, named⟩ := sane.selected (t := t)
      (fun i member => List.mem_of_mem_head? (by simpa using member)) call selected
    exact ⟨idle, quiet.named named⟩
  · rw [List.mem_singleton.mp last]
    exact ⟨fun _ => rfl, trivial⟩

/-- What a pop from the right token does when its own callback is on top. -/
theorem popCancelationCallback_spec {rest : List ℕ}
    (home : (s.primitives i).popsFrom path = some (s.primitives i).token)
    (top : (s.tokens (s.primitives i).token).doCancels = i :: rest) :
    popCancelationCallback i path s =
      ((s.set i { s.primitives i with popped := true }).setToken (s.primitives i).token
          { s.tokens (s.primitives i).token with doCancels := rest },
        ((if (s.tokens (s.primitives i).token).isCancelRequested then rest.head?.toList
          else []).map .canceler) ++ afterPop i (s.primitives i).kind path) := by
  simp [popCancelationCallback, home, top, CancelationToken.popCancelationCallback, State.set,
    State.setToken]

theorem afterPop_idle {kind : Kind} (member : call ∈ afterPop i kind path) :
    (∀ j, popOf j call = 0) ∧ Named s call := by
  cases kind <;> cases path <;> simp only [afterPop, List.mem_cons, List.not_mem_nil, or_false]
    at member
  · rcases member with rfl | rfl <;> exact ⟨fun _ => rfl, trivial⟩
  · rw [member]
    exact ⟨fun _ => rfl, trivial⟩

/-- A pop that goes to the right token, where nothing was pushed later, removes its own
callback. -/
theorem popCancelationCallback_step
    (sane : Sane s (.popCancelationCallback i path ::ₘ others))
    (home : (s.primitives i).popsFrom path = some (s.primitives i).token)
    (last : ∀ j < s.next, i < j → waits s (s.primitives i).token j = false) :
    Sane (popCancelationCallback i path s).1 (↑(popCancelationCallback i path s).2 + others) := by
  have count := sane.ending i
  rw [weight_cons, popOf, if_pos rfl] at count
  obtain ⟨below, ended, unpopped⟩ : i < s.next ∧ (s.primitives i).isDone = true ∧
      (s.primitives i).popped = false := by
    by_contra not
    rw [if_neg not] at count
    omega
  have living : waits s (s.primitives i).token i = true := by simp [waits, unpopped]
  generalize after : s.set i { s.primitives i with popped := true } = s'
  have own : s'.primitives i = { s.primitives i with popped := true } := by
    rw [← after]
    exact Function.update_self ..
  have same : ∀ j, j ≠ i → s'.primitives j = s.primitives j := by
    rw [← after]
    exact fun j other => Function.update_of_ne other ..
  have unmoved : ∀ t j, j ≠ i → waits s' t j = waits s t j := by
    intro t j other
    rw [waits, waits, same j other]
  have dead : waits s' (s.primitives i).token i = false := by simp [waits, own]
  have top : (s.tokens (s.primitives i).token).doCancels =
      i :: newest (waits s' (s.primitives i).token) s.next := by
    rw [sane.stack]
    exact newest_pop below living (fun j later before => last j before later) dead (unmoved _)
  rw [popCancelationCallback_spec home top, after]
  generalize listed : newest (waits s' (s.primitives i).token) s.next = rest at top ⊢
  generalize made : ((if (s.tokens (s.primitives i).token).isCancelRequested then
    rest.head?.toList else []).map PrimitiveCall.canceler) ++ afterPop i (s.primitives i).kind path =
    calls
  have quiet : ∀ call ∈ calls, (∀ j, popOf j call = 0) ∧ Named s call := by
    rw [← made]
    intro call member
    rcases List.mem_append.mp member with selected | later
    · refine sane.selected (t := (s.primitives i).token) (fun j member => ?_) call selected
      rw [top]
      split at member
      · exact List.mem_cons_of_mem _ (List.mem_of_mem_head? (by simpa using member))
      · cases member
    · exact afterPop_idle later
  obtain ⟨next, tokens, right, asserts⟩ : s'.next = s.next ∧ s'.tokens = s.tokens ∧
      (s'.poppedEmpty = false ∧ s'.poppedOther = false ∧ s'.noToken = false) ∧
      s'.assertFailed = false := by
    rw [← after]
    exact ⟨rfl, rfl, sane.right, sane.asserts⟩
  refine ⟨fun t => ?_, fun j => ?_, fun j below popped => ?_, fun j below waiting => ?_, ?_,
    right, asserts⟩
  · simp only [State.setToken, next]
    rcases eq_or_ne t (s.primitives i).token with rfl | other
    · rw [Function.update_self]
      exact listed.symm
    · rw [Function.update_of_ne other, tokens, sane.stack]
      refine (newest_congr fun j _ => ?_).symm
      rcases eq_or_ne j i with rfl | different
      · simp [waits, own, other.symm]
      · exact unmoved t j different
  · have none := weight_idle (i := j) fun call member => (quiet call member).1
    have weight := sane.ending j
    rw [weight_cons, popOf] at weight
    rw [weight_add, none, Nat.zero_add]
    simp only [State.setToken, next]
    rcases eq_or_ne j i with rfl | other
    · rw [if_pos rfl, if_pos ⟨below, ended, unpopped⟩] at weight
      rw [own, if_neg (by simp)]
      omega
    · rw [if_neg other.symm, Nat.zero_add] at weight
      rw [weight, same j other]
  · rcases eq_or_ne j i with rfl | other
    · exact (congrArg Primitive.isDone own).trans ended
    · simp only [State.setToken, same j other, next] at popped below ⊢
      exact sane.done j below popped
  · rcases eq_or_ne j i with rfl | other
    · exact absurd (waiting.symm.trans ((congrArg Primitive.isDone own).trans ended))
        Bool.false_ne_true
    · simp only [State.setToken, same j other, next] at waiting below ⊢
      exact sane.kept j below waiting
  · have kept (call : PrimitiveCall) (named : Named s call) :
        Named (s'.setToken (s.primitives i).token
          { s.tokens (s.primitives i).token with doCancels := rest }) call := by
      refine named.mono next.ge fun j _ done => ?_
      rcases eq_or_ne j i with rfl | other
      · exact (congrArg Primitive.isDone own).trans ended
      · exact (congrArg Primitive.isDone (same j other)).trans done
    exact mem_after (fun call member => kept call (quiet call member).2) fun call member =>
      kept call (sane.named call (Multiset.mem_cons_of_mem member))

/-- What is created is pushed on its token. -/
theorem push_step (kind : Kind) (sane : Sane s (.user ::ₘ others)) :
    Sane (push kind t s).1 (↑((push kind t s).2 ++ [PrimitiveCall.user]) + others) := by
  generalize made : push kind t s = step
  obtain ⟨s', calls⟩ := step
  obtain ⟨state, callbacks⟩ : s' = (push kind t s).1 ∧ calls = (push kind t s).2 := by
    rw [made]
    exact ⟨rfl, rfl⟩
  have fresh : s'.primitives s.next =
      { kind, token := t, cancelationToken := if kind = .callback then none else some t } := by
    rw [state]
    exact Function.update_self ..
  have old : ∀ j < s.next, s'.primitives j = s.primitives j := by
    intro j below
    rw [state]
    exact Function.update_of_ne (Nat.ne_of_lt below) ..
  obtain ⟨next, right, asserts⟩ : s'.next = s.next + 1 ∧
      (s'.poppedEmpty = false ∧ s'.poppedOther = false ∧ s'.noToken = false) ∧
      s'.assertFailed = false := by
    rw [state]
    exact ⟨rfl, sane.right, sane.asserts⟩
  have same : ∀ u, ∀ j < s.next, waits s' u j = waits s u j := by
    intro u j below
    rw [waits, waits, old j below]
  have quiet : ∀ call ∈ calls ++ [PrimitiveCall.user],
      (∀ j, popOf j call = 0) ∧ Named s' call := by
    intro call member
    rcases List.mem_append.mp member with selected | last
    · rw [callbacks] at selected
      simp only [push, CancelationToken.pushCancelationCallback] at selected
      obtain ⟨j, pushed, rfl⟩ := List.mem_map.mp selected
      have own : j = s.next := by
        split at pushed
        · exact List.mem_singleton.mp pushed
        · cases pushed
      exact ⟨fun _ => rfl, by rw [Named, own, next]; exact Nat.lt_succ_self _⟩
    · rw [List.mem_singleton.mp last]
      exact ⟨fun _ => rfl, trivial⟩
  refine ⟨fun u => ?_, fun j => ?_, fun j below popped => ?_, fun j below waiting => ?_, ?_,
    right, asserts⟩
  · rw [next]
    rcases eq_or_ne u t with rfl | other
    · rw [newest_push (by simp [waits, fresh]) (same u), ← sane.stack,
        state]
      simp [push, State.setToken, CancelationToken.pushCancelationCallback]
    · rw [newest_skip (by simp [waits, fresh, other.symm]) (same u), ← sane.stack,
        state]
      simp [push, State.setToken, State.set, Function.update_of_ne other]
  · have none := weight_idle (i := j) fun call member => (quiet call member).1
    have count := sane.ending j
    rw [weight_cons, show popOf j PrimitiveCall.user = 0 from rfl, Nat.zero_add] at count
    rw [weight_add, none, Nat.zero_add, count, next]
    rcases lt_trichotomy j s.next with below | rfl | beyond
    · rw [old j below]
      simp only [below, Nat.lt_succ_of_lt below]
    · rw [fresh]
      simp
    · rw [if_neg (by omega), if_neg (by omega)]
  · rw [next] at below
    rcases Nat.lt_succ_iff_lt_or_eq.mp below with earlier | rfl
    · rw [old j earlier] at popped ⊢
      exact sane.done j earlier popped
    · rw [fresh] at popped
      cases popped
  · rw [next] at below
    rcases Nat.lt_succ_iff_lt_or_eq.mp below with earlier | rfl
    · rw [old j earlier] at waiting ⊢
      exact sane.kept j earlier waiting
    · rw [fresh]
      exact Nat.one_pos
  · refine mem_after (fun call member => (quiet call member).2) fun call member => ?_
    refine Named.mono (s := s) (by rw [next]; exact Nat.le_succ _) (fun j below done => ?_)
      (sane.named call (Multiset.mem_cons_of_mem member))
    rw [old j below]
    exact done

theorem create_step {kind : Kind} {given : Option ℕ} (sane : Sane s (.user ::ₘ others))
    (created : create kind given s = some (s', calls)) :
    Sane s' (↑(calls ++ [PrimitiveCall.user]) + others) := by
  cases given with
  | some t =>
    simp only [create] at created
    split at created
    · have stepped := push_step (t := t) kind sane
      rwa [Option.some.inj created] at stepped
    · cases created
  | none =>
    have grown : Sane { s with nextToken := s.nextToken + 1 } (.user ::ₘ others) :=
      ⟨sane.stack, sane.ending, sane.done, sane.kept,
        fun call member => (sane.named call member).mono (Nat.le_refl s.next) fun _ _ done => done,
        sane.right, sane.asserts⟩
    have stepped := push_step (t := s.nextToken) kind grown
    rwa [show push kind s.nextToken { s with nextToken := s.nextToken + 1 } = (s', calls) from
      Option.some.inj created] at stepped

/-- The copy that is called outlives the call. -/
theorem run_step (sane : Sane s (.user ::ₘ others)) (below : i < s.next) :
    Sane (run i s).1 (↑((run i s).2 ++ [PrimitiveCall.user]) + others) := by
  simp only [run]
  split
  · exact sane.quiet .refl (fun _ => rfl) (by simp [popOf, Named])
  · rename_i waiting
    refine sane.ends (fun _ => rfl) below (by simpa using waiting) rfl rfl rfl (fun j => ?_) ?_
    · simp [popOf, eq_comm]
    · simp [Named, State.set, below]

theorem decrementPromise_step {primitive : Primitive} (sane : Sane s (call ::ₘ others))
    (idle : ∀ j, popOf j call = 0) (token : primitive.token = (s.primitives i).token)
    (popped : primitive.popped = (s.primitives i).popped)
    (ended : primitive.isDone = (s.primitives i).isDone)
    (kept : i < s.next → (s.primitives i).isDone = false →
      0 < (s.primitives i).copies + (s.primitives i).locks →
      0 < primitive.copies + primitive.locks)
    (rest : List PrimitiveCall) (quiet : ∀ call ∈ rest, call = .user) :
    Sane (decrementPromise i primitive s).1 (↑((decrementPromise i primitive s).2 ++ rest) +
      others) := by
  have harmless : ∀ call ∈ rest, (∀ j, popOf j call = 0) ∧ Named (s.set i primitive) call := by
    intro call member
    rw [quiet call member]
    exact ⟨fun _ => rfl, trivial⟩
  unfold decrementPromise
  split
  · refine sane.quiet (quiet_set token popped ended kept) idle fun call member => ?_
    rcases List.mem_cons.mp member with rfl | later
    · exact ⟨fun _ => rfl, trivial⟩
    · exact harmless call later
  · exact sane.quiet (quiet_set token popped ended kept) idle harmless

theorem user_step (sane : Sane s (.user ::ₘ others)) (ordered : Orderly s .user choice)
    (ran : user s choice = some (s', calls)) : Sane s' (↑calls + others) := by
  have last : ∀ call ∈ [PrimitiveCall.user], (∀ j, popOf j call = 0) ∧ Named s' call := by
    intro call member
    rw [List.mem_singleton.mp member]
    exact ⟨fun _ => rfl, trivial⟩
  cases choice with
  | «return» =>
    cases ran
    exact sane.quiet .refl (fun _ => rfl) (by simp)
  | create kind given =>
    obtain ⟨⟨made, callbacks⟩, created, same⟩ := Option.map_eq_some_iff.mp ran
    cases same
    exact create_step sane created
  | run i =>
    simp only [user] at ran
    split at ran
    · rename_i runs
      cases ran
      exact run_step sane runs.1
    · cases ran
  | copy i =>
    simp only [user] at ran
    split at ran
    · cases ran
      exact sane.quiet (quiet_set rfl rfl rfl fun _ _ _ => by dsimp only; omega) (fun _ => rfl)
        last
    · cases ran
  | destroy i =>
    simp only [user] at ran
    split at ran
    · rename_i copied
      cases ran
      refine decrementPromise_step sane (fun _ => rfl) (by rfl) (by rfl) (by rfl)
        (fun _ waiting held => ?_) _ fun call member => List.mem_singleton.mp member
      have other : (s.primitives i).copies + (s.primitives i).locks ≠ 1 := fun only => by
        rw [ordered only] at waiting
        cases waiting
      dsimp only
      omega
    · cases ran
  | requestCancel t =>
    cases ran
    exact requestCancel_step sane
  | breakCancelationChain i =>
    simp only [user] at ran
    split at ran
    · cases ran
      have quiet : Quiet s (s.set i { s.primitives i with cancelationToken := some s.nextToken }) :=
        quiet_set rfl rfl rfl fun _ _ held => held
      exact sane.quiet ⟨quiet.stack, quiet.next, quiet.same, quiet.kept, quiet.right⟩
        (fun _ => rfl) last
    · cases ran
  | pop i =>
    simp only [user] at ran
    split at ran
    · rename_i popped
      cases ran
      refine sane.ends (fun _ => rfl) popped.1 popped.2.2 rfl rfl rfl (fun j => ?_) ?_
      · simp [popOf, eq_comm]
      · simp [Named]
    · cases ran
  | outcome r => cases ran

theorem canceler_step (sane : Sane s (.canceler i ::ₘ others)) :
    Sane (canceler i s).1 (↑(canceler i s).2 + others) := by
  have below : i < s.next := sane.named _ (Multiset.mem_cons_self _ _)
  simp only [canceler]
  split
  · exact sane.quiet .refl (fun _ => rfl) (by simp [popOf, Named])
  · exact sane.quiet .refl (fun _ => rfl) (by simp [popOf, Named, below])
  · split
    · rename_i dead
      have done : (s.primitives i).isDone = true := by
        by_contra waiting
        have held := sane.kept i below (by simpa using waiting)
        omega
      refine sane.quiet ⟨fun _ => rfl, rfl, fun _ => ⟨rfl, rfl, rfl⟩, fun _ _ _ held => held, rfl, rfl,
        rfl, by simp [done]⟩ (fun _ => rfl) (by simp)
    · refine sane.quiet (quiet_set rfl rfl rfl fun _ _ _ => by dsimp only; omega) (fun _ => rfl)
        (by simp [popOf, Named, below, State.set])

theorem cancel_step (sane : Sane s (.cancel i ::ₘ others)) :
    Sane (cancel i s).1 (↑(cancel i s).2 + others) := by
  have below : i < s.next := sane.named _ (Multiset.mem_cons_self _ _)
  have dropped (s' : State) (next : s'.next = s.next)
      (done : (s'.primitives i).isDone = true) : ∀ call ∈ if (s.primitives i).kind = .task then
        [PrimitiveCall.dropLock i] else [], (∀ j, popOf j call = 0) ∧ Named s' call := by
    intro call member
    split at member
    · rw [List.mem_singleton.mp member]
      exact ⟨fun _ => rfl, next ▸ below, done⟩
    · cases member
  simp only [cancel]
  split
  · rename_i done
    exact sane.quiet .refl (fun _ => rfl) (dropped s rfl done)
  · rename_i waiting
    have own : ((s.set i { s.primitives i with isDone := true }).primitives i).isDone = true := by
      simp [State.set]
    have made := dropped (s.set i { s.primitives i with isDone := true }) rfl own
    refine sane.ends (fun _ => rfl) below (by simpa using waiting) rfl rfl rfl (fun j => ?_)
      fun call member => ?_
    · rw [← Multiset.coe_add, weight_add, weight_idle fun call member => (made call member).1]
      simp [popOf, eq_comm]
    · rcases List.mem_append.mp member with listed | later
      · simp only [List.mem_cons, List.not_mem_nil, or_false] at listed
        rcases listed with rfl | rfl | rfl <;> trivial
      · exact (made call later).2

/-- Every step keeps the stacks right. -/
theorem exec_step {thread : ℕ} (sane : Sane s (call ::ₘ others)) (ordered : Orderly s call choice)
    (ran : exec thread choice s call = some (s', calls)) : Sane s' (↑calls + others) := by
  cases call with
  | user => exact user_step sane ordered ran
  | canceler i =>
    have made : canceler i s = (s', calls) := Option.some.inj ran
    have stepped := canceler_step sane
    rwa [made] at stepped
  | cancel i =>
    have made : cancel i s = (s', calls) := Option.some.inj ran
    have stepped := cancel_step sane
    rwa [made] at stepped
  | popCancelationCallback i path =>
    have made : popCancelationCallback i path s = (s', calls) := Option.some.inj ran
    have stepped := popCancelationCallback_step sane ordered.1 ordered.2
    rwa [made] at stepped
  | functionReturn i =>
    cases choice with
    | outcome r =>
      cases ran
      exact sane.quiet .refl (fun _ => rfl) (by simp [popOf, Named])
    | _ => cases ran
  | finish i r =>
    cases ran
    exact sane.quiet (quiet_set rfl rfl rfl fun _ _ held => held) (fun _ => rfl)
      (by simp [popOf, Named])
  | dropLock i =>
    have done : (s.primitives i).isDone = true := (sane.named _ (Multiset.mem_cons_self _ _)).2
    have made : decrementPromise i { s.primitives i with locks := (s.primitives i).locks - 1 } s =
      (s', calls) := Option.some.inj ran
    have stepped : Sane (decrementPromise i
        { s.primitives i with locks := (s.primitives i).locks - 1 } s).1 _ :=
      decrementPromise_step sane (fun _ => rfl) (by rfl) (by rfl) (by rfl)
        (fun _ waiting => by rw [done] at waiting; cases waiting) [] (by simp)
    rw [made, List.append_nil] at stepped
    exact stepped

/-! ## Runs -/

variable {threads : ℕ} {config : Config State PrimitiveCall}

theorem sane_start : Sane (start threads).state (start threads).pending := by
  have idle : ∀ call ∈ (start threads).pending, call = .user := by
    intro call member
    rw [start, Config.pending_replicate] at member
    exact Multiset.eq_of_mem_replicate member
  refine ⟨fun _ => rfl, fun i => ?_, fun i below => ?_, fun i below => ?_, fun call member => ?_,
    ⟨rfl, rfl, rfl⟩, rfl⟩
  · rw [if_neg (by simp [start])]
    by_contra some
    obtain ⟨call, member, popping⟩ := exists_of_weight_pos (Nat.pos_of_ne_zero some)
    rw [idle call member] at popping
    cases popping
  · cases below
  · cases below
  · rw [idle call member]
    trivial

/-- In every orderly run, the stack of every token lists the cancelers of what is pending. -/
theorem exact_of_orderly (reached : Reachable exec Orderly (start threads) config) :
    Exact config.state config.pending :=
  (reached.invariant Sane sane_start
    fun _ _ _ _ _ _ _ sane ordered ran => exec_step sane ordered ran).exact

/-- Two tasks share a token: the second is cancelled, then the first is called while a
request waits for it. -/
theorem exact_sharedToken : ∃ config : Config State PrimitiveCall,
    Exact config.state config.pending ∧ (config.state.tokens 0).doCancels = [] ∧
    (config.state.primitives 1).r = some (.exception .operationCanceled) ∧
    (config.state.primitives 0).r = some .value := by
  have ran : ((start 2).runWithin exec orderly
      [(0, .create .task none), (0, .create .task (some 0)), (1, .requestCancel 0), (1, .return),
        (1, .return), (1, .return), (0, .run 0), (0, .return), (1, .return), (1, .return), (1, .return),
        (1, .return), (1, .return), (0, .return), (0, .outcome .value), (0, .return)]).map
      (fun config =>
      decide ((config.state.tokens 0).doCancels = [] ∧
        (config.state.primitives 1).r = some (.exception .operationCanceled) ∧
        (config.state.primitives 0).r = some .value)) = some true := by decide
  obtain ⟨config, reached, holds⟩ := reachable_of_replay_within
    (fun _ _ _ permitted => orderly_sound permitted) _ _ ran
  exact ⟨config, exact_of_orderly reached, of_decide_eq_true holds⟩

/-- A task that is broken off its chain and then called pops from an empty stack. -/
theorem broken_task_pops_empty : ∃ config,
    Reachable exec Anything (start 1) config ∧ ¬Exact config.state config.pending := by
  have ran : ((start 1).run exec
      [(0, .create .task none), (0, .breakCancelationChain 0), (0, .run 0), (0, .return)]).map
      (fun config => config.state.poppedEmpty) = some true := by decide
  obtain ⟨config, reached, empty⟩ := reachable_of_replay _ _ ran
  refine ⟨config, reached, fun exact => ?_⟩
  rw [exact.pops.1] at empty
  cases empty

/-- A task whose copies were all destroyed leaves its canceler, whose assertion fails. -/
theorem abandoned_task_fails_assertion : ∃ config,
    Reachable exec Anything (start 1) config ∧ config.state.assertFailed = true := by
  have ran : ((start 1).run exec
      [(0, .create .task none), (0, .destroy 0), (0, .return), (0, .return), (0, .requestCancel 0),
        (0, .return)]).map (fun config => config.state.assertFailed) = some true := by decide
  exact reachable_of_replay _ _ ran

end Tconcurrent.Primitives
