import Mathlib.Logic.Hydra

/-! Work that is done item by item.

Doing an item takes it out of a multiset and may put back any number of smaller ones.  Whatever
is done first, this comes to an end if no item has infinite descents below it. -/
namespace Tconcurrent.Workload
open Relation

variable {α : Type} {r : α → α → Prop} {a : α} {s s' t u : Multiset α}

/-- One item is done. -/
def Takes (r : α → α → Prop) (after before : Multiset α) : Prop :=
  ∃ a others puts, before = a ::ₘ others ∧ after = puts + others ∧ ∀ a' ∈ puts, r a' a

/-- Some items are done, perhaps none. -/
abbrev Within (r : α → α → Prop) : Multiset α → Multiset α → Prop := ReflTransGen (Takes r)

/-- At least one item is done. -/
abbrev Less (r : α → α → Prop) : Multiset α → Multiset α → Prop := TransGen (Takes r)

theorem takes_add (u : Multiset α) (takes : Takes r s' s) : Takes r (s' + u) (s + u) := by
  obtain ⟨a, others, puts, rfl, rfl, below⟩ := takes
  exact ⟨a, others + u, puts, Multiset.cons_add a others u, add_assoc puts others u, below⟩

theorem within_add (u : Multiset α) (within : Within r s' s) : Within r (s' + u) (s + u) :=
  within.lift (· + u) fun _ _ => takes_add u

theorem less_add (u : Multiset α) (less : Less r s' s) : Less r (s' + u) (s + u) :=
  less.lift (· + u) fun _ _ => takes_add u

theorem within_add_add (first : Within r s' s) (second : Within r t u) :
    Within r (s' + t) (s + u) := by
  have moved := within_add s second
  rw [add_comm t, add_comm u] at moved
  exact (within_add t first).trans moved

/-- Items may be left undone. -/
theorem within_of_le (le : s' ≤ s) : Within r s' s := by
  obtain ⟨rest, rfl⟩ := Multiset.le_iff_exists_add.mp le
  induction rest using Multiset.induction with
  | empty =>
    rw [add_zero]
  | cons a rest ih =>
    refine (ih (Multiset.le_add_right s' rest)).tail ⟨a, s' + rest, 0, ?_, ?_, ?_⟩
    · exact Multiset.add_cons a s' rest
    · exact (zero_add _).symm
    · exact fun _ member => absurd member (Multiset.notMem_zero _)

theorem within_of_eq (eq : s' = s) : Within r s' s := eq ▸ .refl

theorem less_of_puts (below : ∀ a' ∈ t, r a' a) : Less r t {a} :=
  .single ⟨a, 0, t, rfl, (add_zero t).symm, below⟩

/-- **Work ends**, in whatever order it is done. -/
theorem acc_takes (acc : ∀ a ∈ s, Acc r a) : Acc (Takes r) s := by
  -- only what is accessible has anything below it
  let r' (a' a : α) : Prop := r a' a ∧ Acc r a
  have founded : WellFounded r' := ⟨fun a => by
    by_cases acc : Acc r a
    · induction acc with
      | intro a _ ih => exact .intro a fun a' below => ih a' below.1
    · exact .intro a fun a' below => absurd below.2 acc⟩
  have ends : Acc (CutExpand r') s := founded.cutExpand.apply s
  induction ends with
  | intro s _ ih =>
    refine .intro s fun s' takes => ?_
    obtain ⟨a, others, puts, rfl, rfl, below⟩ := takes
    have acc_a := acc a (Multiset.mem_cons_self a others)
    refine ih (puts + others) ⟨puts, a, fun a' member => ⟨below a' member, acc_a⟩, ?_⟩ ?_
    · rw [Multiset.cons_add, ← Multiset.singleton_add, add_comm others, add_comm]
    · intro a' member
      rcases Multiset.mem_add.mp member with put | other
      · exact acc_a.inv (below a' put)
      · exact acc a' (Multiset.mem_cons_of_mem other)

/-- Along a run in which work is never added, items are done finitely often. -/
theorem finitely_often {work : ℕ → Multiset α} (acc : ∀ a ∈ s, Acc r a)
    (starts : Within r (work 0) s) (steps : ∀ n, Within r (work (n + 1)) (work n)) :
    ∃ n, ∀ m ≥ n, ¬ Less r (work (m + 1)) (work m) := by
  have down {n m : ℕ} (le : n ≤ m) : Within r (work m) (work n) := by
    induction le with
    | refl => exact .refl
    | step _ ih => exact (steps _).trans ih
  have ends : ∀ s, Acc (Less r) s → ∀ n, Within r (work n) s →
      ∃ n, ∀ m ≥ n, ¬ Less r (work (m + 1)) (work m) := by
    intro s acc
    induction acc with
    | intro s _ ih =>
      intro n within
      by_cases more : ∃ m ≥ n, Less r (work (m + 1)) (work m)
      · obtain ⟨m, later, less⟩ := more
        exact ih _ (less.trans_left ((down later).trans within)) (m + 1) .refl
      · exact ⟨n, fun m later less => more ⟨m, later, less⟩⟩
  exact ends s (acc_takes acc).transGen 0 starts

end Tconcurrent.Workload
