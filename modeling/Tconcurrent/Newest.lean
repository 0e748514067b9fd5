import Mathlib.Data.List.Basic

/-! Numbers that are handed out in order, and which of them are alive.

A stack that is pushed with each new number, and popped when its newest living number
dies, lists the living ones. -/
namespace Tconcurrent.Newest

/-- The living numbers below `next`, the newest first. -/
def newest (alive : ℕ → Bool) : ℕ → List ℕ
  | 0 => []
  | next + 1 => if alive next then next :: newest alive next else newest alive next

variable {alive alive' : ℕ → Bool} {next i : ℕ}

theorem mem_newest : i ∈ newest alive next ↔ i < next ∧ alive i = true := by
  induction next with
  | zero => simp [newest]
  | succ next ih =>
    rw [newest, Nat.lt_succ_iff_lt_or_eq]
    split
    · rename_i living
      rw [List.mem_cons, ih]
      constructor
      · rintro (rfl | ⟨below, held⟩)
        · exact ⟨.inr rfl, living⟩
        · exact ⟨.inl below, held⟩
      · rintro ⟨below | rfl, held⟩
        · exact .inr ⟨below, held⟩
        · exact .inl rfl
    · rename_i dead
      rw [ih]
      constructor
      · exact fun ⟨below, held⟩ => ⟨.inl below, held⟩
      · rintro ⟨below | rfl, held⟩
        · exact ⟨below, held⟩
        · exact absurd held dead

theorem newest_congr (same : ∀ j < next, alive' j = alive j) :
    newest alive' next = newest alive next := by
  induction next with
  | zero => rfl
  | succ next ih =>
    rw [newest, newest, same next next.lt_succ_self,
      ih fun j below => same j (Nat.lt_succ_of_lt below)]

/-- A number is handed out. -/
theorem newest_push (living : alive' next = true) (same : ∀ j < next, alive' j = alive j) :
    newest alive' (next + 1) = next :: newest alive next := by
  rw [newest, if_pos living, newest_congr same]

/-- A number that is not there from the start changes nothing. -/
theorem newest_skip (dead : alive' next = false) (same : ∀ j < next, alive' j = alive j) :
    newest alive' (next + 1) = newest alive next := by
  rw [newest, if_neg (by simp [dead]), newest_congr same]

/-- The newest living number dies. -/
theorem newest_pop (below : i < next) (living : alive i = true)
    (last : ∀ j, i < j → j < next → alive j = false) (dead : alive' i = false)
    (same : ∀ j, j ≠ i → alive' j = alive j) :
    newest alive next = i :: newest alive' next := by
  induction next with
  | zero => cases below
  | succ next ih =>
    rcases Nat.lt_succ_iff_lt_or_eq.mp below with earlier | rfl
    · have gone := last next earlier next.lt_succ_self
      rw [newest, if_neg (by simp [gone]), newest, same next (Nat.ne_of_gt earlier),
        if_neg (by simp [gone])]
      exact ih earlier fun j after before => last j after (Nat.lt_succ_of_lt before)
    · rw [newest, if_pos living, newest, if_neg (by simp [dead]),
        newest_congr fun j before => same j (Nat.ne_of_lt before)]

end Tconcurrent.Newest
