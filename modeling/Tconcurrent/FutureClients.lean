import Tconcurrent.FutureProofs

/-! The closures of a program that a heap holds.

Whatever is true of all the closures that a program registers is true of those that the
library keeps in continuation lists and on tokens, and of those that it calls. -/
namespace Tconcurrent

variable {N T K : Type} {P Q : K → Prop}

/-- Every closure of the program in a call has a property. -/
def Call.Clients (P : K → Prop) : Call N T K → Prop
  | .client k => P k
  | .thenRun _ f => f.Clients P
  | _ => True

theorem Call.Clients.mono {call : Call N T K} (weaker : ∀ k, P k → Q k) (held : call.Clients P) :
    call.Clients Q := by
  induction call with
  | client k => exact weaker k held
  | thenRun p f ih => exact ih held
  | _ => trivial

namespace Heap

variable {heap heap' : Heap N T K} {call : Call N T K} {p : N} {t : T}

/-- Every closure of the program that a heap holds has a property. -/
structure Clients (P : K → Prop) (heap : Heap N T K) : Prop where
  thens : ∀ p, ∀ f ∈ (heap.states p).thens, f.Clients P
  cancels : ∀ t, ∀ f ∈ (heap.tokens t).doCancels, f.Clients P

theorem Clients.mono (weaker : ∀ k, P k → Q k) (clients : heap.Clients P) : heap.Clients Q :=
  ⟨fun p f member => (clients.thens p f member).mono weaker,
    fun t f member => (clients.cancels t f member).mono weaker⟩

variable [DecidableEq N] [DecidableEq T]

theorem Clients.setState {state : SharedBase N T K} (clients : heap.Clients P)
    (thens : ∀ f ∈ state.thens, f.Clients P) : (heap.setState p state).Clients P := by
  refine ⟨fun q f member => ?_, clients.cancels⟩
  rcases eq_or_ne q p with rfl | other
  · rw [setState_states_self] at member
    exact thens f member
  · rw [setState_states_ne state other] at member
    exact clients.thens q f member

theorem Clients.setToken {token : CancelationToken (Call N T K)} (clients : heap.Clients P)
    (cancels : ∀ f ∈ token.doCancels, f.Clients P) : (heap.setToken t token).Clients P := by
  refine ⟨clients.thens, fun u f member => ?_⟩
  rcases eq_or_ne u t with rfl | other
  · rw [setToken_tokens_self] at member
    exact cancels f member
  · rw [setToken_tokens_ne token other] at member
    exact clients.cancels u f member

/-- What a push keeps and calls: the callback and what was there. -/
theorem Clients.push (clients : heap.Clients P) (pushed : call.Clients P) :
    (heap.onToken t (·.pushCancelationCallback call)).1.Clients P ∧
      ∀ made ∈ (heap.onToken t (·.pushCancelationCallback call)).2, made.Clients P := by
  refine ⟨clients.setToken fun f member => ?_, fun made member => ?_⟩
  · rcases List.mem_cons.mp member with rfl | before
    · exact pushed
    · exact clients.cancels t f before
  · simp only [onToken, CancelationToken.pushCancelationCallback] at member
    split at member
    · rw [List.mem_singleton.mp member]
      exact pushed
    · cases member

theorem Clients.requestCancel (clients : heap.Clients P) :
    (heap.requestCancel p).1.Clients P ∧ ∀ made ∈ (heap.requestCancel p).2, made.Clients P := by
  unfold Heap.requestCancel
  split
  · rename_i t _
    refine ⟨clients.setToken (clients.cancels t), fun made member => ?_⟩
    have top : made ∈ (heap.tokens t).doCancels.head? := by
      simpa [onToken, CancelationToken.requestCancel] using member
    exact clients.cancels t made (List.mem_of_mem_head? top)
  · exact ⟨clients, fun made member => absurd member List.not_mem_nil⟩

theorem Clients.popCancelationCallback (clients : heap.Clients P) :
    (heap.onToken t CancelationToken.popCancelationCallback).1.Clients P ∧
      ∀ made ∈ (heap.onToken t CancelationToken.popCancelationCallback).2, made.Clients P := by
  refine ⟨clients.setToken fun f member => clients.cancels t f (List.mem_of_mem_tail member),
    fun made member => ?_⟩
  simp only [onToken, CancelationToken.popCancelationCallback] at member
  split at member
  · have top : made ∈ (heap.tokens t).doCancels.tail.head? := by simpa using member
    exact clients.cancels t made (List.mem_of_mem_tail (List.mem_of_mem_head? top))
  · cases member

/-- The library keeps and calls only what it was given. -/
theorem Clients.exec (clients : heap.Clients P) (called : call.Clients P) :
    (heap.exec call).1.Clients P ∧ ∀ made ∈ (heap.exec call).2, made.Clients P := by
  cases call with
  | finish p r =>
    exact ⟨clients.setState fun f member => absurd member List.not_mem_nil, clients.thens p⟩
  | thenRun p f =>
    simp only [Heap.exec, thenRun]
    split
    · refine ⟨clients.setState fun other member => ?_, fun made member =>
        absurd member List.not_mem_nil⟩
      rcases List.mem_append.mp member with before | last
      · exact clients.thens p other before
      · rw [List.mem_singleton.mp last]
        exact called
    · refine ⟨clients, fun made member => ?_⟩
      rw [List.mem_singleton.mp member]
      exact called
  | requestCancel p => exact clients.requestCancel
  | popCancelationCallback t => exact clients.popCancelationCallback
  | unwrapOuter fut1 sb =>
    simp only [Heap.exec, unwrapOuter]
    split
    · exact ⟨clients, by simp [Call.Clients]⟩
    · rename_i fut2 _
      split
      · rename_i token _
        split
        · have canceler : (Call.requestCancel fut2.p : Call N T K).Clients P := trivial
          obtain ⟨kept, made⟩ := clients.push (t := token) canceler
          refine ⟨kept, fun call member => ?_⟩
          rcases List.mem_append.mp member with selected | last
          · exact made call selected
          · rw [List.mem_singleton.mp last]
            trivial
        · exact ⟨clients, by simp [Call.Clients]⟩
      · exact ⟨clients, by simp [Call.Clients]⟩
    · exact ⟨clients, by simp⟩
  | unwrapInner fut2 sb token =>
    simp only [Heap.exec, unwrapInner]
    split
    · refine ⟨clients, fun made member => ?_⟩
      rcases List.mem_append.mp member with popped | last
      · obtain ⟨u, -, rfl⟩ : ∃ u, token = some u ∧ made = .popCancelationCallback u := by
          cases token with
          | none => simp at popped
          | some u => exact ⟨u, rfl, by simpa using popped⟩
        trivial
      · rw [List.mem_singleton.mp last]
        trivial
    · exact ⟨clients, by simp⟩
  | client k => exact ⟨clients, fun made member => absurd member List.not_mem_nil⟩

end Heap

end Tconcurrent
