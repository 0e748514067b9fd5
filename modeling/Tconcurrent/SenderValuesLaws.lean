import Tconcurrent.SenderValuesSends

/-! The laws of `then`, `async_then` and `connect`.

Two compositions that may send the same are interchangeable, so the laws are those of
`Completion.sequence`. -/
namespace Tconcurrent.SenderValues
open Completion

variable {V E : Type} [Inhabited V]

/-- Nobody can tell the two compositions from what they send. -/
def Interchangeable (sender1 sender2 : Sender V E) : Prop :=
  ∀ allowed completion, Observed allowed sender1 completion ↔ Observed allowed sender2 completion

theorem interchangeable_iff {sender1 sender2 : Sender V E} :
    Interchangeable sender1 sender2 ↔ sender1.sends = sender2.sends := by
  constructor
  · intro same
    have included {sender1 sender2 : Sender V E} (same : Interchangeable sender1 sender2) :
        sender1.sends ⊆ sender2.sends := by
      intro completion sends
      have observed := (same false completion).mp (observed_of_expected (.inl sends))
      rcases expected_of_observed observed with sends' | ⟨⟨⟩, -⟩
      exact sends'
    have back := included fun allowed completion => (same allowed completion).symm
    exact (included same).antisymm back
  · intro same allowed completion
    have equal : expected allowed sender1 = expected allowed sender2 := by
      rw [expected, expected, same]
    constructor
    · exact fun observed => observed_of_expected (equal ▸ expected_of_observed observed)
    · exact fun observed => observed_of_expected (equal ▸ expected_of_observed observed)

/-- A sender of the user that sends a value at once. -/
def just [DecidableEq V] (v : V) : Sender V E :=
  .user fun
    | .value w => v == w
    | _ => false

theorem sends_just [DecidableEq V] (v : V) : (just v : Sender V E).sends = {.value v} := by
  ext completion
  cases completion with
  | value w =>
    rw [just, Sender.sends, Set.mem_ofPred_eq, beq_iff_eq]
    exact ⟨fun same => same ▸ rfl, fun same => (Completion.value.inj same).symm⟩
  | error | done =>
    rw [just, Sender.sends]
    constructor <;> rintro ⟨⟩

/-- The functions of two `async_then`, one after the other. -/
def Answer.andThen (function : V → Answer V E) : Answer V E → Answer V E
  | .throw e => .throw e
  | .submit sender => .submit (.asyncThen sender function)

theorem sends_andThen (function : V → Answer V E) (answer : Answer V E) :
    (answer.andThen function).sends = sequence answer.sends fun v => (function v).sends := by
  cases answer with
  | throw e =>
    simp only [Answer.andThen, Answer.sends, singleton_sequence]
    rfl
  | submit sender => simp only [Answer.andThen, Answer.sends, Sender.sends]

section

variable (sender sender1 sender2 sender3 : Sender V E) (f g : V → Except E V)
  (h k : V → Answer V E) (next next' : V → Sender V E)

theorem then_ok : Interchangeable (.then sender .ok) sender := by
  rw [interchangeable_iff, Sender.sends]
  exact sequence_value

theorem then_then : Interchangeable (.then (.then sender f) g)
    (.then sender fun v => (f v).bind g) := by
  have both (v : V) : ({.ofExcept ((f v).bind g)} : Set (Completion V E)) =
      (Completion.ofExcept (f v)).andThen fun v => {.ofExcept (g v)} := by
    cases f v <;> rfl
  simp only [interchangeable_iff, Sender.sends, sequence_sequence, singleton_sequence, both]

theorem asyncThen_just [DecidableEq V] :
    Interchangeable (.asyncThen sender fun v => .submit (just v)) sender := by
  simp only [interchangeable_iff, Sender.sends, Answer.sends, sends_just]
  exact sequence_value

theorem just_asyncThen [DecidableEq V] (v : V) :
    Interchangeable (.asyncThen (just v) fun v => .submit (next v)) (next v) := by
  simp only [interchangeable_iff, Sender.sends, Answer.sends, sends_just, singleton_sequence,
    value_andThen]

theorem asyncThen_asyncThen : Interchangeable (.asyncThen (.asyncThen sender h) k)
    (.asyncThen sender fun v => (h v).andThen k) := by
  simp only [interchangeable_iff, Sender.sends, sequence_sequence, sends_andThen]

theorem then_asyncThen [DecidableEq V] : Interchangeable (.then sender f)
    (.asyncThen sender fun v => match f v with
      | .ok w => .submit (just w)
      | .error e => .throw e) := by
  have same (v : V) : ({.ofExcept (f v)} : Set (Completion V E)) =
      Answer.sends (match f v with
        | .ok w => .submit (just w)
        | .error e => .throw e) := by
    cases f v with
    | ok w => exact (sends_just w).symm
    | error e => rfl
  simp only [interchangeable_iff, Sender.sends, same]

theorem connect_asyncThen : Interchangeable (.connect sender1 sender2)
    (.asyncThen sender1 fun _ => .submit sender2) := by
  simp only [interchangeable_iff, Sender.sends, Answer.sends]

theorem connect_connect : Interchangeable (.connect (.connect sender1 sender2) sender3)
    (.connect sender1 (.connect sender2 sender3)) := by
  simp only [interchangeable_iff, Sender.sends, sequence_sequence]

theorem wrap_sender : Interchangeable (.wrap sender) sender := by
  simp only [interchangeable_iff, Sender.sends]

/-- What is interchangeable is so in any composition. -/
theorem interchangeable_inside (same : Interchangeable sender1 sender2)
    (sameNext : ∀ v, Interchangeable (next v) (next' v)) :
    Interchangeable (.then sender1 f) (.then sender2 f) ∧
      Interchangeable (.asyncThen sender1 fun v => .submit (next v))
        (.asyncThen sender2 fun v => .submit (next' v)) ∧
      Interchangeable (.connect sender1 sender) (.connect sender2 sender) ∧
      Interchangeable (.connect sender sender1) (.connect sender sender2) ∧
      Interchangeable (.wrap sender1) (.wrap sender2) := by
  simp only [interchangeable_iff] at same sameNext
  simp only [interchangeable_iff, Sender.sends, Answer.sends, same, sameNext, and_self]

end

/-- **The laws of senders.**  `then` is a functor and `async_then` a monad over what is sent,
`then` is an `async_then` and `connect` one that ignores the value, so it is associative; and
compositions may be exchanged inside others.  In each case nobody can tell the two by what they
send, whether or not cancelation is requested. -/
theorem sender_laws [DecidableEq V] :
    (∀ sender : Sender V E, Interchangeable (.then sender .ok) sender ∧
      Interchangeable (.asyncThen sender fun v => .submit (just v)) sender ∧
      Interchangeable (.wrap sender) sender) ∧
    (∀ (sender : Sender V E) f g, Interchangeable (.then (.then sender f) g)
      (.then sender fun v => (f v).bind g)) ∧
    (∀ (sender : Sender V E) f, Interchangeable (.then sender f)
      (.asyncThen sender fun v => match f v with
        | .ok w => .submit (just w)
        | .error e => .throw e)) ∧
    (∀ (v : V) (next : V → Sender V E),
      Interchangeable (.asyncThen (just v) fun v => .submit (next v)) (next v)) ∧
    (∀ (sender : Sender V E) h k, Interchangeable (.asyncThen (.asyncThen sender h) k)
      (.asyncThen sender fun v => (h v).andThen k)) ∧
    (∀ sender1 sender2 : Sender V E, Interchangeable (.connect sender1 sender2)
      (.asyncThen sender1 fun _ => .submit sender2)) ∧
    (∀ sender1 sender2 sender3 : Sender V E,
      Interchangeable (.connect (.connect sender1 sender2) sender3)
        (.connect sender1 (.connect sender2 sender3))) ∧
    (∀ (sender1 sender2 sender : Sender V E) f (next next' : V → Sender V E),
      Interchangeable sender1 sender2 →
      (∀ v, Interchangeable (next v) (next' v)) →
      Interchangeable (.then sender1 f) (.then sender2 f) ∧
        Interchangeable (.asyncThen sender1 fun v => .submit (next v))
          (.asyncThen sender2 fun v => .submit (next' v)) ∧
        Interchangeable (.connect sender1 sender) (.connect sender2 sender) ∧
        Interchangeable (.connect sender sender1) (.connect sender sender2) ∧
        Interchangeable (.wrap sender1) (.wrap sender2)) :=
  ⟨fun sender => ⟨then_ok sender, asyncThen_just sender, wrap_sender sender⟩,
    fun sender f g => then_then sender f g, fun sender f => then_asyncThen sender f,
    fun v next => just_asyncThen next v, fun sender h k => asyncThen_asyncThen sender h k,
    fun sender1 sender2 => connect_asyncThen sender1 sender2,
    fun sender1 sender2 sender3 => connect_connect sender1 sender2 sender3,
    fun sender1 sender2 sender f next next' same sameNext =>
      interchangeable_inside sender sender1 sender2 f next next' same sameNext⟩

end Tconcurrent.SenderValues
