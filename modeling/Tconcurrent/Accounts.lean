import Mathlib.Algebra.Order.BigOperators.Group.Finset
import Tconcurrent.FutureProofs

/-! Counting what a program is owed.

An obligation of the program is a closure that waits in a continuation list, a
call that some thread still has to make, or a state that is resolved at last.
The library's own calls only move it from one of these places to the next, so
its balance changes in the program's own steps only. -/
namespace Tconcurrent
open Interleaving

set_option linter.unusedSectionVars false

@[simp] theorem ite_one_pos {c : Prop} [Decidable c] : 0 < (if c then 1 else 0) ↔ c := by
  split <;> simp_all

@[simp] theorem toNat_pos {b : Bool} : 0 < b.toNat ↔ b = true := by cases b <;> simp

/-- What is counted: calls of the program, and the resolution of a state. -/
structure Account (N K : Type) where
  target : Option N
  own : K → ℕ
  /-- The states on which counted closures wait. -/
  homes : Finset N

namespace Account

variable {N T K : Type} [DecidableEq N] [DecidableEq T] {wiring : Wiring N T K}
variable {account : Account N K} {heap heap' : Heap N T K} {p : N} {f call : Call N T K}
  {others : Multiset (Call N T K)}

/-- How much of the account a call has yet to deliver. -/
def owes (account : Account N K) : Call N T K → ℕ
  | .finish p _ => if account.target = some p then 1 else 0
  | .thenRun _ f => account.owes f
  | .unwrapOuter _ sb => if account.target = some sb then 1 else 0
  | .unwrapInner _ sb _ => if account.target = some sb then 1 else 0
  | .client k => account.own k
  | .requestCancel _ => 0
  | .popCancelationCallback _ => 0

/-- What waits in a continuation list. -/
def waiting (account : Account N K) (heap : Heap N T K) (p : N) : ℕ :=
  weight account.owes ((heap.states p).thens : Multiset (Call N T K))

/-- What has been delivered already. -/
def settled (account : Account N K) (heap : Heap N T K) : ℕ :=
  match account.target with
  | some p => (heap.states p).r.isSome.toNat
  | none => 0

/-- All of it. -/
def balance (account : Account N K) (heap : Heap N T K) (pending : Multiset (Call N T K)) : ℕ :=
  weight account.owes pending + ∑ p ∈ account.homes, account.waiting heap p + account.settled heap

/-- Counted closures wait on the account's own states only. -/
structure Closed (wiring : Wiring N T K) (account : Account N K) : Prop where
  registered : ∀ p k, wiring.continuation p k → account.own k ≠ 0 → p ∈ account.homes
  linked : ∀ sb outer inner, account.target = some sb → wiring.link sb = some (outer, inner) →
    outer ∈ account.homes ∧ inner ∈ account.homes
  cancelers : ∀ k, wiring.canceler k → account.own k = 0

theorem Closed.owes_canceling (closed : account.Closed wiring) (canceling : Canceling wiring f) :
    account.owes f = 0 := by
  cases f with
  | client k => exact closed.cancelers k canceling
  | requestCancel p => rfl
  | popCancelationCallback t => rfl
  | finish => exact canceling.elim
  | thenRun => exact canceling.elim
  | unwrapOuter => exact canceling.elim
  | unwrapInner => exact canceling.elim

theorem Closed.owes_registered (closed : account.Closed wiring)
    (registered : Registered wiring heap p f) (away : p ∉ account.homes) : account.owes f = 0 := by
  cases f with
  | unwrapOuter fut1 sb =>
    obtain ⟨rfl, inner, linked⟩ := registered
    exact if_neg fun target => away (closed.linked _ _ _ target linked).1
  | unwrapInner fut2 sb token =>
    obtain ⟨rfl, outer, linked, -⟩ := registered
    exact if_neg fun target => away (closed.linked _ _ _ target linked).2
  | client k =>
    by_contra counted
    exact away (closed.registered p k registered counted)
  | finish => exact registered.elim
  | thenRun => exact registered.elim
  | requestCancel => rfl
  | popCancelationCallback => rfl

theorem weight_eq_zero {calls : List (Call N T K)} (none : ∀ f ∈ calls, account.owes f = 0) :
    weight account.owes (calls : Multiset (Call N T K)) = 0 := by
  induction calls with
  | nil => rfl
  | cons f calls ih =>
    rw [weight_cons_coe, none f List.mem_cons_self, ih fun g member => none g (List.mem_cons_of_mem _ member)]

/-- Only the list of one state changes when it is set. -/
theorem sum_waiting_setState (account : Account N K) (heap : Heap N T K) (p : N)
    (state : SharedBase N T K) :
    ∑ q ∈ account.homes, account.waiting (heap.setState p state) q +
        (if p ∈ account.homes then account.waiting heap p else 0) =
      ∑ q ∈ account.homes, account.waiting heap q +
        if p ∈ account.homes then weight account.owes (state.thens : Multiset (Call N T K)) else 0 := by
  have elsewhere : ∑ q ∈ account.homes.erase p, account.waiting (heap.setState p state) q =
      ∑ q ∈ account.homes.erase p, account.waiting heap q :=
    Finset.sum_congr rfl fun q member => by
      rw [waiting, Heap.setState_states_ne state (Finset.ne_of_mem_erase member), waiting]
  have here : account.waiting (heap.setState p state) p =
      weight account.owes (state.thens : Multiset (Call N T K)) := by
    rw [waiting, Heap.setState_states_self]
  split
  · rename_i home
    have before := Finset.add_sum_erase account.homes (fun q => account.waiting heap q) home
    have after := Finset.add_sum_erase account.homes
      (fun q => account.waiting (heap.setState p state) q) home
    omega
  · rename_i away
    rw [Finset.erase_eq_of_notMem away] at elsewhere
    omega

/-- A state that is set up again with the same result and continuations does
not show in any account. -/
theorem balance_congr (results : ∀ p, (heap'.states p).r = (heap.states p).r)
    (thens : ∀ p, (heap'.states p).thens = (heap.states p).thens) :
    account.balance heap' others = account.balance heap others := by
  simp only [balance, waiting, settled, results, thens]

private theorem settled_setState (account : Account N K) (state : SharedBase N T K)
    (fresh : (heap.states p).r = none) :
    account.settled (heap.setState p state) =
      account.settled heap + if account.target = some p then state.r.isSome.toNat else 0 := by
  unfold settled
  cases account.target with
  | none => rfl
  | some q =>
    by_cases same : q = p
    · subst same
      simp [fresh]
    · simp [Heap.setState_states_ne state same, same]

/-- A state that is set up ready has been delivered. -/
theorem balance_setState {state : SharedBase N T K} (fresh : (heap.states p).r = none)
    (before : (heap.states p).thens = []) (after : state.thens = []) :
    account.balance (heap.setState p state) others =
      account.balance heap others + if account.target = some p then state.r.isSome.toNat else 0 := by
  have lists := sum_waiting_setState account heap p state
  have none : account.waiting heap p = 0 := by simp [waiting, before]
  simp only [none, after, weight_nil_coe, ite_self, add_zero] at lists
  simp only [balance, lists, settled_setState account state fresh]
  omega

/-- **Library calls keep every balance.** -/
theorem exec_balance (closed : account.Closed wiring) (sound : SoundHeap wiring heap)
    (respects : Sound wiring heap call) (once : ∀ p r, call = .finish p r → ¬ heap.Ready p)
    (library : ∀ k, call ≠ .client k) :
    account.balance (heap.exec call).1 (↑(heap.exec call).2 + others) =
      account.balance heap (call ::ₘ others) := by
  have quiet : ∀ {heap' : Heap N T K} {calls : List (Call N T K)}, heap'.states = heap.states →
      weight account.owes (calls : Multiset (Call N T K)) = account.owes call →
      account.balance heap' (↑calls + others) = account.balance heap (call ::ₘ others) := by
    intro heap' calls same moved
    simp only [balance, waiting, settled, same, weight_add, weight_cons, moved]
  cases call with
  | finish p r =>
    have moved : (if p ∈ account.homes then account.waiting heap p else 0) =
        account.waiting heap p := by
      split
      · rfl
      · rename_i away
        exact (weight_eq_zero fun f member =>
          closed.owes_registered (sound.registered p f member) away).symm
    have lists := sum_waiting_setState account heap p
      { r := some r, thens := [], cancelationToken := none }
    have result := settled_setState account { r := some r, thens := [], cancelationToken := none }
      (Heap.not_ready.mp (once p r rfl))
    rw [moved] at lists
    simp only [balance, Heap.exec, Heap.finish, weight_add, weight_cons, owes, result]
    simp only [weight_nil_coe, ite_self, Option.isSome_some, Bool.toNat_true] at lists ⊢
    simp only [waiting] at lists ⊢
    omega
  | thenRun p f =>
    simp only [Heap.exec, Heap.thenRun]
    split
    · rename_i unresolved
      have moved : (if p ∈ account.homes then account.owes f else 0) = account.owes f := by
        split
        · rfl
        · rename_i away
          exact (closed.owes_registered respects away).symm
      have lists := sum_waiting_setState account heap p
        { heap.states p with thens := (heap.states p).thens ++ [f] }
      have result : account.settled (heap.setState p
          { heap.states p with thens := (heap.states p).thens ++ [f] }) = account.settled heap := by
        rw [settled_setState account _ unresolved]
        simp [unresolved]
      simp only [balance, weight_add, weight_cons, weight_nil_coe, owes, result]
      simp only [← Multiset.coe_add, weight_add, weight_cons_coe, weight_nil_coe] at lists
      rw [← moved]
      split_ifs at lists ⊢ <;> simp only [waiting] at lists ⊢ <;> omega
    · exact quiet rfl (by simp [owes])
  | requestCancel p =>
    refine quiet Heap.requestCancel_states (weight_eq_zero fun f member => ?_)
    exact closed.owes_canceling ((requestCancel_spec sound p).2 f member)
  | popCancelationCallback t =>
    refine quiet rfl (weight_eq_zero fun f member => ?_)
    exact closed.owes_canceling ((popCancelationCallback_spec sound t).2 f member)
  | unwrapOuter fut1 sb =>
    obtain ⟨ready, inner, linked⟩ := respects
    obtain ⟨-, cancelers, last, calls, canceling, ends⟩ := unwrapOuter_spec sound linked ready
    refine quiet Heap.unwrapOuter_states ?_
    have nothing := weight_eq_zero fun f member => closed.owes_canceling (canceling f member)
    rw [Heap.exec, calls, ← Multiset.coe_add, weight_add, nothing, zero_add, weight_cons_coe,
      weight_nil_coe, add_zero]
    rcases ends with ⟨e, -, rfl⟩ | ⟨token, rfl⟩ <;> rfl
  | unwrapInner fut2 sb token =>
    obtain ⟨r, -, calls⟩ := unwrapInner_spec sb token respects.1
    refine quiet (by rw [Heap.exec, calls]) ?_
    rw [Heap.exec, calls]
    cases token <;> simp [owes]
  | client k => exact absurd rfl (library k)

/-! What a balance says about the places it adds up. -/

theorem owes_le_balance (member : call ∈ others) :
    account.owes call ≤ account.balance heap others := by
  have small := measure_le_weight account.owes member
  unfold balance
  omega

theorem waiting_le_balance (account : Account N K) (heap : Heap N T K)
    (others : Multiset (Call N T K)) (home : p ∈ account.homes) :
    account.waiting heap p ≤ account.balance heap others := by
  have small := Finset.single_le_sum (f := account.waiting heap) (fun _ _ => Nat.zero_le _) home
  unfold balance
  omega

theorem owes_le_waiting (account : Account N K) (member : f ∈ (heap.states p).thens) :
    account.owes f ≤ account.waiting heap p :=
  measure_le_weight account.owes (Multiset.mem_coe.mpr member)

theorem settled_of_ready (target : account.target = some p) (ready : heap.Ready p) :
    account.settled heap = 1 := by
  obtain ⟨r, result⟩ := Option.ne_none_iff_exists'.mp ready
  simp [settled, target, result]

theorem ready_le_balance (target : account.target = some p) (ready : heap.Ready p) :
    1 ≤ account.balance heap others := by
  have settled := settled_of_ready target ready
  unfold balance
  omega

/-- What is still owed is not settled. -/
theorem unready_of_pending (single : account.balance heap others ≤ 1)
    (target : account.target = some p) (member : call ∈ others) (owed : account.owes call = 1) :
    ¬ heap.Ready p := by
  intro ready
  have small := measure_le_weight account.owes member
  have settled := settled_of_ready target ready
  unfold balance at single
  omega

theorem unready_of_waiting (single : account.balance heap others ≤ 1)
    (target : account.target = some p) {q : N} (home : q ∈ account.homes)
    (member : f ∈ (heap.states q).thens) (owed : account.owes f = 1) : ¬ heap.Ready p := by
  intro ready
  have small := Finset.single_le_sum (f := account.waiting heap) (fun _ _ => Nat.zero_le _) home
  have counted := owes_le_waiting account member
  have settled := settled_of_ready target ready
  unfold balance at single
  omega

/-- Once a state is resolved nothing more is owed. -/
theorem owes_eq_zero (single : account.balance heap others ≤ 1)
    (target : account.target = some p) (ready : heap.Ready p) (member : call ∈ others) :
    account.owes call = 0 := by
  have small := measure_le_weight account.owes member
  have settled := settled_of_ready target ready
  unfold balance at single
  omega

/-- A state is resolved once. -/
theorem unready_of_finish (single : account.balance heap others ≤ 1)
    (target : account.target = some p) {r : Result N T} (member : .finish p r ∈ others) :
    ¬ heap.Ready p := by
  apply unready_of_pending single target member
  simp [owes, target]

/-- What is owed still has not been decided. -/
theorem no_outcome (single : account.balance heap (call ::ₘ others) ≤ 1)
    (target : account.target = some p) (owed : account.owes call = 1) {r : Result N T}
    (undecided : call ≠ .finish p r) : ¬ Outcome heap (call ::ₘ others) p r := by
  rintro (member | result)
  · have other := (Multiset.mem_cons.mp member).resolve_left undecided.symm
    have small := measure_le_weight account.owes other
    have finishes : account.owes (.finish p r : Call N T K) = 1 := by simp [owes, target]
    rw [balance, weight_cons] at single
    omega
  · exact unready_of_pending single target (Multiset.mem_cons_self _ _) owed
      (Heap.ready_of_result result)

/-- What is decided was due. -/
theorem balance_pos_of_outcome (target : account.target = some p) {r : Result N T}
    (outcome : Outcome heap others p r) : 0 < account.balance heap others := by
  rcases outcome with member | result
  · have owed : account.owes (.finish p r : Call N T K) = 1 := by simp [owes, target]
    have small : account.owes (.finish p r : Call N T K) ≤ account.balance heap others :=
      owes_le_balance member
    omega
  · exact ready_le_balance target (Heap.ready_of_result result)

/-- What is due is somewhere. -/
theorem exists_of_balance_pos (due : 0 < account.balance heap others) :
    (∃ call ∈ others, 0 < account.owes call) ∨
      (∃ p ∈ account.homes, ∃ f ∈ (heap.states p).thens, 0 < account.owes f) ∨
      ∃ p, account.target = some p ∧ heap.Ready p := by
  by_cases calls : 0 < weight account.owes others
  · exact Or.inl (exists_of_weight_pos calls)
  by_cases lists : 0 < ∑ p ∈ account.homes, account.waiting heap p
  · obtain ⟨p, home, positive⟩ := Finset.exists_ne_zero_of_sum_ne_zero (Nat.pos_iff_ne_zero.mp lists)
    obtain ⟨f, member, owed⟩ := exists_of_weight_pos (Nat.pos_iff_ne_zero.mpr positive)
    exact Or.inr (Or.inl ⟨p, home, f, Multiset.mem_coe.mp member, owed⟩)
  · have settled : 0 < account.settled heap := by
      unfold balance at due
      omega
    unfold Account.settled at settled
    split at settled
    · rename_i p target
      refine Or.inr (Or.inr ⟨p, target, fun empty => ?_⟩)
      simp [empty] at settled
    · cases settled

/-- A step of the program pays with one call and owes its calls from then on. -/
theorem balance_client (account : Account N K) (k : K) (calls : List (Call N T K))
    (others : Multiset (Call N T K))
    (results : ∀ p, (heap'.states p).r = (heap.states p).r)
    (thens : ∀ p, (heap'.states p).thens = (heap.states p).thens) :
    account.balance heap' (↑calls + others) + account.own k =
      account.balance heap (.client k ::ₘ others) +
        weight account.owes (calls : Multiset (Call N T K)) := by
  rw [balance_congr results thens]
  simp only [balance, weight_add, weight_cons, owes]
  omega

/-- A step of the program that sets a state up. -/
theorem balance_setUp (account : Account N K) (k : K) (calls : List (Call N T K))
    (others : Multiset (Call N T K)) {state : SharedBase N T K} (blank : Blank heap p)
    (empty : state.thens = []) :
    account.balance (heap.setState p state) (↑calls + others) + account.own k =
      account.balance heap (.client k ::ₘ others) +
        weight account.owes (calls : Multiset (Call N T K)) +
        if account.target = some p then state.r.isSome.toNat else 0 := by
  have moved : account.balance heap (↑calls + others) + account.own k = _ :=
    balance_client account k calls others (fun _ => rfl) (fun _ => rfl)
  rw [balance_setState blank.unset blank.alone empty]
  omega

end Account

end Tconcurrent
