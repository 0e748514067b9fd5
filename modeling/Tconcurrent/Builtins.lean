import Mathlib.Algebra.Group.Nat.Defs

/-! What all of the sources use: `assert`, which a state records when it fails, and
counters of 32 bits. -/
namespace Tconcurrent.Builtins

/-- A state that records a failed `assert`. -/
class Asserting (σ : Type) where
  fail : σ → σ

section
variable {σ α : Type} [Asserting σ] {s : σ} {holds : Prop} [Decidable holds]

/-- `assert(holds)`. -/
def check (s : σ) (holds : Prop) [Decidable holds] : σ :=
  if holds then s else Asserting.fail s

theorem check_of (held : holds) : check s holds = s := if_pos held

/-- An assertion keeps what its failure keeps. -/
theorem check_keeps {field : σ → α} (kept : field (Asserting.fail s) = field s) :
    field (check s holds) = field s := by
  unfold check
  split
  · rfl
  · exact kept

end

/-- `++` and `--` on an `unsigned int`. -/
def increment (count : ℕ) : ℕ := if count + 1 = 2 ^ 32 then 0 else count + 1

def decrement (count : ℕ) : ℕ := if count = 0 then 2 ^ 32 - 1 else count - 1

variable {count : ℕ}

theorem increment_of (small : count + 1 < 2 ^ 32) : increment count = count + 1 :=
  if_neg (Nat.ne_of_lt small)

theorem decrement_of (positive : 0 < count) : decrement count = count - 1 :=
  if_neg (Nat.ne_of_gt positive)

end Tconcurrent.Builtins
