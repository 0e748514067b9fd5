import Mathlib.Data.List.Induction
import Tconcurrent.ConcurrentQueue

/-! Pops and pushes are matched in order.

The history of a queue is the values pushed and the number of pops.  What is
left over of either is what the queue holds. -/
namespace Tconcurrent.ConcurrentQueue
open Builtins

variable {α : Type}

/-- The values pushed, the first one first. -/
def pushed : List (Op α) → List α
  | [] => []
  | .push v :: ops => v :: pushed ops
  | _ :: ops => pushed ops

/-- The number of pops. -/
def popped : List (Op α) → ℕ
  | [] => 0
  | .pop :: ops => popped ops + 1
  | _ :: ops => popped ops

/-- The queue holds what the history has left over: values that were not popped,
or waiters that were not served. -/
structure Matched (values : List α) (count : ℕ) (s : State α) : Prop where
  pops : s.pops = count
  queue : s.queue = values.drop count
  waiters : s.waiters = List.range' values.length (count - values.length)
  results : ∀ k, s.results k = if k < count then values[k]?.map .ok else none
  promises : ∀ k ∈ s.waiters, s.promises k = 1
  asserts : s.assertFailed = false

namespace Matched

variable {values : List α} {count k : ℕ} {s : State α} {v : α}

theorem start : Matched ([] : List α) 0 {} := by
  constructor <;> simp

theorem unresolved (matched : Matched values count s) (waits : k ∈ s.waiters) :
    s.results k = none := by
  rw [matched.waiters, List.mem_range'_1] at waits
  rw [matched.results, List.getElem?_eq_none waits.1]
  simp

/-- The front of the waiters is the first pop that no push has served. -/
theorem front {waiters : List ℕ} (matched : Matched values count s)
    (first : s.waiters = k :: waiters) : k = values.length ∧ values.length < count ∧
      waiters = List.range' (values.length + 1) (count - (values.length + 1)) := by
  have listed := matched.waiters
  rw [first] at listed
  have more : values.length < count := by
    by_contra fewer
    rw [Nat.sub_eq_zero_of_le (by omega)] at listed
    cases listed
  have longer : count - values.length = count - (values.length + 1) + 1 := by omega
  rw [longer, List.range'_succ, List.cons.injEq] at listed
  exact ⟨listed.1, more, listed.2⟩

/-- A push serves the first waiter. -/
theorem push_served {waiters : List ℕ} (matched : Matched values count s)
    (first : s.waiters = k :: waiters) : Matched (values ++ [v]) count
      { ((check s (s.queue.isEmpty = true)).finish k (.ok v)).dropPromise k with waiters } := by
  obtain ⟨rfl, more, rest⟩ := matched.front first
  have empty : s.queue = [] := by rw [matched.queue, List.drop_eq_nil_of_le (by omega)]
  have pending := matched.unresolved (k := values.length) (by rw [first]; exact List.mem_cons_self)
  have checked : check s (s.queue.isEmpty = true) = s := check_of (by rw [empty]; rfl)
  have set : s.finish values.length (.ok v) =
      { s with results := Function.update s.results values.length (some (.ok v)) } := by
    rw [State.finish, check_of (by rw [pending]; rfl)]
  rw [checked, set]
  simp only [State.dropPromise, Function.update_self, Option.isNone_some, Bool.false_eq_true,
    and_false, if_false]
  constructor
  · exact matched.pops
  · change s.queue = _
    rw [empty, List.drop_eq_nil_of_le (by simp; omega)]
  · simpa using rest
  · intro j
    change Function.update s.results values.length (some (.ok v)) j = _
    by_cases same : j = values.length
    · subst same
      simp [more]
    · rw [Function.update_of_ne same, matched.results]
      by_cases before : j < values.length
      · rw [List.getElem?_append_left before]
      · rw [List.getElem?_eq_none (by omega), List.getElem?_eq_none (by simp; omega)]
  · intro j waits
    have other : j ≠ values.length := by
      rw [rest, List.mem_range'_1] at waits
      omega
    simp only [Function.update_of_ne other]
    exact matched.promises j (by rw [first]; exact List.mem_cons_of_mem _ waits)
  · exact matched.asserts

/-- A push that finds no waiter leaves its value. -/
theorem push_kept (matched : Matched values count s) (none : s.waiters = []) :
    Matched (values ++ [v]) count { s with queue := s.queue ++ [v] } := by
  have fewer : count ≤ values.length := by
    have length := congrArg List.length matched.waiters
    rw [none, List.length_nil, List.length_range'] at length
    omega
  constructor
  · exact matched.pops
  · change s.queue ++ [v] = _
    rw [matched.queue, List.drop_append_of_le_length fewer]
  · change s.waiters = _
    rw [none, Nat.sub_eq_zero_of_le (by simp; omega)]
    rfl
  · intro j
    change s.results j = _
    rw [matched.results]
    by_cases early : j < count
    · rw [if_pos early, if_pos early, List.getElem?_append_left (by omega)]
    · rw [if_neg early, if_neg early]
  · exact matched.promises
  · exact matched.asserts

theorem push (matched : Matched values count s) (v : α) :
    Matched (values ++ [v]) count (push v s) := by
  unfold ConcurrentQueue.push
  split
  · rename_i k waiters first
    exact matched.push_served first
  · rename_i none
    exact matched.push_kept none

/-- A pop that finds a value takes the first one. -/
theorem pop_served {queue : List α} (matched : Matched values count s)
    (first : s.queue = v :: queue) : Matched values (count + 1)
      { check s (s.waiters.isEmpty = true) with
        queue
        pops := s.pops + 1
        results := Function.update s.results s.pops (some (.ok v)) } := by
  have listed := matched.queue
  rw [first] at listed
  have more : count < values.length := by
    by_contra fewer
    rw [List.drop_eq_nil_of_le (by omega)] at listed
    cases listed
  rw [List.drop_eq_getElem_cons more, List.cons.injEq] at listed
  have none : s.waiters = [] := by
    rw [matched.waiters, Nat.sub_eq_zero_of_le (by omega)]
    rfl
  have checked : check s (s.waiters.isEmpty = true) = s := check_of (by rw [none]; rfl)
  rw [checked]
  constructor
  · change s.pops + 1 = _
    rw [matched.pops]
  · exact listed.2
  · change s.waiters = _
    rw [none, Nat.sub_eq_zero_of_le (by omega)]
    rfl
  · intro j
    change Function.update s.results s.pops (some (.ok v)) j = _
    rw [matched.pops]
    by_cases same : j = count
    · subst same
      rw [Function.update_self, if_pos (Nat.lt_succ_self _), List.getElem?_eq_getElem more,
        listed.1]
      rfl
    · rw [Function.update_of_ne same, matched.results]
      by_cases early : j < count
      · rw [if_pos early, if_pos (by omega)]
      · rw [if_neg early, if_neg (by omega)]
  · exact matched.promises
  · exact matched.asserts

/-- A pop that finds no value waits: the queue has the only promise. -/
theorem pop_waits (matched : Matched values count s) (empty : s.queue = []) :
    Matched values (count + 1)
      { ((s.makePromise s.pops).copyPromise s.pops).dropPromise s.pops with
        waiters := s.waiters ++ [s.pops]
        pops := s.pops + 1 } := by
  have fewer : values.length ≤ count := by
    have listed := matched.queue
    rw [empty] at listed
    exact List.drop_eq_nil_iff.mp listed.symm
  have handed : ((s.makePromise s.pops).copyPromise s.pops).dropPromise s.pops =
      s.makePromise s.pops := by
    simp [State.makePromise, State.copyPromise, State.dropPromise]
  rw [handed]
  constructor
  · change s.pops + 1 = _
    rw [matched.pops]
  · change s.queue = _
    rw [empty, List.drop_eq_nil_of_le (by omega)]
  · change s.waiters ++ [s.pops] = _
    rw [matched.waiters, matched.pops, show count + 1 - values.length = count - values.length + 1
      by omega, List.range'_concat]
    simp
    omega
  · intro j
    change s.results j = _
    rw [matched.results]
    by_cases early : j < count
    · rw [if_pos early, if_pos (by omega)]
    · rw [if_neg early, List.getElem?_eq_none (by omega)]
      simp
  · intro j waits
    change Function.update s.promises s.pops 1 j = 1
    by_cases same : j = s.pops
    · subst same
      exact Function.update_self _ _ _
    · rw [Function.update_of_ne same]
      apply matched.promises j
      rcases List.mem_append.mp waits with old | new
      · exact old
      · exact absurd (List.mem_singleton.mp new) same
  · exact matched.asserts

theorem pop (matched : Matched values count s) : Matched values (count + 1) (pop s) := by
  unfold ConcurrentQueue.pop
  split
  · rename_i v queue first
    exact matched.pop_served first
  · rename_i empty
    exact matched.pop_waits empty

theorem requestCancel (matched : Matched values count s) :
    Matched values count (requestCancel k s) := by
  unfold ConcurrentQueue.requestCancel
  split
  · exact ⟨matched.pops, matched.queue, matched.waiters, matched.results, matched.promises,
      matched.asserts⟩
  · exact matched

end Matched

theorem pushed_append (ops : List (Op α)) (op : Op α) :
    pushed (ops ++ [op]) = pushed ops ++ pushed [op] := by
  induction ops with
  | nil => rfl
  | cons first ops ih => cases first <;> simp [pushed, ih]

theorem popped_append (ops : List (Op α)) (op : Op α) :
    popped (ops ++ [op]) = popped ops + popped [op] := by
  induction ops with
  | nil => simp [popped]
  | cons first ops ih =>
    cases first with
    | pop =>
      simp only [List.cons_append, popped, ih]
      omega
    | _ => exact ih

theorem run_append (ops : List (Op α)) (op : Op α) : run (ops ++ [op]) = step (run ops) op := by
  rw [run, List.foldl_append]
  rfl

/-- **Every history is matched.** -/
theorem matched_run (ops : List (Op α)) : Matched (pushed ops) (popped ops) (run ops) := by
  induction ops using List.reverseRecOn with
  | nil => exact .start
  | append_singleton ops op ih =>
    rw [run_append, pushed_append, popped_append]
    cases op with
    | push v => exact ih.push v
    | pop =>
      rw [show pushed [(Op.pop : Op α)] = [] from rfl, List.append_nil]
      exact ih.pop
    | requestCancel k =>
      rw [show pushed [(Op.requestCancel k : Op α)] = [] from rfl, List.append_nil]
      exact ih.requestCancel
    | drop k =>
      rw [show pushed [(Op.drop k : Op α)] = [] from rfl, List.append_nil]
      exact ⟨ih.pops, ih.queue, ih.waiters, ih.results, ih.promises, ih.asserts⟩

/-! ## Destroying the queue -/

/-- The last promise of a pending pop is destroyed. -/
theorem dropPromise_last {s : State α} {k : ℕ} (one : s.promises k = 1)
    (pending : s.results k = none) : (s.dropPromise k).results =
        Function.update s.results k (some (.error .brokenPromise)) ∧
      (s.dropPromise k).promises = Function.update s.promises k 0 := by
  simp [State.dropPromise, State.finish, check_of, one, pending]

/-- Promises are destroyed one after the other. -/
theorem destroyed_results (waiters : List ℕ) (distinct : waiters.Nodup) (s : State α)
    (each : ∀ k ∈ waiters, s.promises k = 1 ∧ s.results k = none) (j : ℕ) :
    (waiters.foldl State.dropPromise s).results j =
      if j ∈ waiters then some (.error .brokenPromise) else s.results j := by
  induction waiters generalizing s with
  | nil => simp
  | cons k waiters ih =>
    obtain ⟨fresh, distinct⟩ := List.nodup_cons.mp distinct
    obtain ⟨one, pending⟩ := each k List.mem_cons_self
    obtain ⟨results, promises⟩ := dropPromise_last one pending
    have rest : ∀ i ∈ waiters,
        (s.dropPromise k).promises i = 1 ∧ (s.dropPromise k).results i = none := by
      intro i waits
      have other : i ≠ k := fun same => fresh (same ▸ waits)
      rw [results, promises, Function.update_of_ne other, Function.update_of_ne other]
      exact each i (List.mem_cons_of_mem _ waits)
    rw [List.foldl_cons, ih distinct _ rest, results]
    by_cases same : j = k
    · subst same
      simp [fresh]
    · simp [same]

/-- The `k`-th pop gets the value of the `k`-th push once both have happened, and
nothing before or else.  The queue keeps the values that were not popped. -/
structure FifoMatching (ops : List (Op α)) : Prop where
  value : ∀ k v, (run ops).results k = some (.ok v) ↔ k < popped ops ∧ (pushed ops)[k]? = some v
  pending : ∀ k e, (run ops).results k ≠ some (.error e)
  kept : (run ops).queue = (pushed ops).drop (popped ops)
  exclusive : (run ops).waiters = [] ∨ (run ops).queue = []
  size : size (run ops) = (pushed ops).length - popped ops
  destroyed : ∀ k, (destroy (run ops)).results k =
    if k < popped ops then
      match (pushed ops)[k]? with
      | some v => some (.ok v)
      | none => some (.error .brokenPromise)
    else none
  asserts : (run ops).assertFailed = false

/-- **`concurrent_queue` is a FIFO matching of pops with pushes.** -/
theorem fifoMatching (ops : List (Op α)) : FifoMatching ops := by
  have matched := matched_run ops
  constructor
  · intro k v
    rw [matched.results]
    by_cases early : k < popped ops
    · simp [early]
    · simp [early]
  · intro k e
    rw [matched.results]
    split
    · simp
    · simp
  · exact matched.queue
  · by_cases more : popped ops ≤ (pushed ops).length
    · left
      rw [matched.waiters, Nat.sub_eq_zero_of_le more]
      rfl
    · right
      rw [matched.queue, List.drop_eq_nil_of_le (by omega)]
  · rw [size, matched.queue, List.length_drop]
  · intro k
    have distinct : (run ops).waiters.Nodup := by
      rw [matched.waiters]
      exact List.nodup_range'
    have broken := destroyed_results (run ops).waiters distinct (run ops)
      (fun j waits => ⟨matched.promises j waits, matched.unresolved waits⟩) k
    have listed : k ∈ (run ops).waiters ↔ (pushed ops).length ≤ k ∧ k < popped ops := by
      rw [matched.waiters, List.mem_range'_1]
      omega
    change ((run ops).waiters.foldl State.dropPromise (run ops)).results k = _
    rw [broken, matched.results]
    by_cases early : k < popped ops
    · by_cases waits : (pushed ops).length ≤ k
      · simp [listed, early, waits]
      · have served : (pushed ops)[k]? = some (pushed ops)[k] :=
          List.getElem?_eq_getElem (by omega)
        simp [listed, early, waits, served]
    · simp [listed, early]
  · exact matched.asserts

end Tconcurrent.ConcurrentQueue
