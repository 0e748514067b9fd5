import Mathlib.Data.Set.Lattice

/-! How an asynchronous computation completes: with a value, with an error, or neither,
since it was stopped.  One that leaves something open completes in one of a set of ways,
and a second one may go on with its value. -/
namespace Tconcurrent

variable {V W X E : Type*}

inductive Completion (V E : Type*) where
  | value (v : V)
  | error (e : E)
  | done
  deriving DecidableEq

namespace Completion

def ofExcept : Except E V → Completion V E
  | .ok v => .value v
  | .error e => .error e

/-- A value goes on, anything else is passed on. -/
def andThen (completion : Completion V E) (next : V → Set (Completion W E)) :
    Set (Completion W E) :=
  match completion with
  | .value v => next v
  | .error e => {.error e}
  | .done => {.done}

/-- One computation after the other. -/
def sequence (completions : Set (Completion V E)) (next : V → Set (Completion W E)) :
    Set (Completion W E) :=
  {last | ∃ first ∈ completions, last ∈ first.andThen next}

variable {completions : Set (Completion V E)} {next : V → Set (Completion W E)}
  {last : Completion W E}

theorem mem_sequence :
    last ∈ sequence completions next ↔ ∃ first ∈ completions, last ∈ first.andThen next :=
  Iff.rfl

@[simp]
theorem singleton_sequence (first : Completion V E) :
    sequence {first} next = first.andThen next := by
  ext last
  simp [mem_sequence]

@[simp]
theorem value_andThen (v : V) : (Completion.value v : Completion V E).andThen next = next v := rfl

@[simp]
theorem sequence_value : sequence completions (fun v => {.value v}) = completions := by
  ext last
  have passed (first : Completion V E) :
      first.andThen (fun v => {.value v}) = {first} := by
    cases first <;> rfl
  simp [mem_sequence, passed]

/-- The second computation may be put together with the third one. -/
theorem andThen_andThen (first : Completion V E) (next : V → Set (Completion W E))
    (after : W → Set (Completion X E)) :
    sequence (first.andThen next) after = first.andThen fun v => sequence (next v) after := by
  cases first with
  | value v => rfl
  | error e | done =>
    ext last
    simp [andThen]

theorem sequence_sequence (completions : Set (Completion V E)) (next : V → Set (Completion W E))
    (after : W → Set (Completion X E)) :
    sequence (sequence completions next) after =
      sequence completions fun v => sequence (next v) after := by
  ext last
  constructor
  · rintro ⟨middle, ⟨first, member, reaches⟩, ends⟩
    refine ⟨first, member, ?_⟩
    rw [← andThen_andThen]
    exact ⟨middle, reaches, ends⟩
  · rintro ⟨first, member, ends⟩
    rw [← andThen_andThen] at ends
    obtain ⟨middle, reaches, ends⟩ := ends
    exact ⟨middle, ⟨first, member, reaches⟩, ends⟩

end Completion

end Tconcurrent
