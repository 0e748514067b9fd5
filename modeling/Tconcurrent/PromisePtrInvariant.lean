import Mathlib.Algebra.BigOperators.Group.Finset.Piecewise
import Tconcurrent.FutureProofs
import Tconcurrent.PromisePtr

/-! What holds of shared states and of the pointers that count as their promises.

A pointer inside `finish` has given up its promise and still points to its old
state.  It is not counted, and one assignment or destructor on the agenda stands
for it.  What was posted and what is about to be posted make up one line for
each state, which only grows where continuations are registered. -/
namespace Tconcurrent.PromisePtr
open Interleaving

variable {s s' : State} {agenda rest calls : List PromiseAction} {a p q r : ℕ}
  {result : Result ℕ ℕ} {target : Option ℕ}

/-- The pointers that are a promise of a state. -/
def holders (s : State) (a : ℕ) : Finset ℕ :=
  (Finset.range s.next).filter fun p => s.pointers p = .holds (some a)

/-- Whether a call is the end of an operation inside whose `finish` a pointer is. -/
def ends (p : ℕ) : PromiseAction → Bool
  | .client (.copyAssigned q _) => q = p
  | .client (.moveAssigned q _) => q = p
  | .client (.destroyed q) => q = p
  | _ => false

/-- The continuation of a state that a call posts. -/
def postOf (a : ℕ) : PromiseAction → Option ℕ
  | .client (.post b i) => if b = a then some i else none
  | _ => none

/-- The continuations of a state that were posted, and those about to be. -/
def line (s : State) (agenda : List PromiseAction) (a : ℕ) : List ℕ :=
  s.posted a ++ agenda.filterMap (postOf a)

/-- What a state has been resolved with: by a holder, or because it has none. -/
def outcome (s : State) (a : ℕ) : Option (Result ℕ ℕ) :=
  match s.sets a with
  | some r => some r
  | none => if s.promiseCount a = 0 then some (.exception .brokenPromise) else none

/-- The continuations of a state: kept until it is resolved, and then posted. -/
structure Posts (s : State) (agenda : List PromiseAction) (a : ℕ) : Prop where
  unresolved : (s.heap.states a).r = none →
    (s.heap.states a).thens = (List.range (s.registered a)).map (fun i => .client (.post a i)) ∧
      s.early a = s.registered a ∧ line s agenda a = []
  resolved : (s.heap.states a).r ≠ none →
    (s.heap.states a).thens = [] ∧ s.early a ≤ s.registered a ∧
      (line s agenda a).Perm (List.range (s.registered a)) ∧
      (line s agenda a).filter (· < s.early a) = List.range (s.early a)

/-- Every count is the number of holders. -/
structure Counted (s : State) (agenda : List PromiseAction) : Prop where
  counted : ∀ a, s.promiseCount a = (holders s a).card
  fresh : ∀ p, s.next ≤ p → s.pointers p = .gone
  frames : ∀ p, agenda.countP (ends p) = if (s.pointers p).isFinishing then 1 else 0

/-- Every state is resolved with what it should be, and posts its continuations. -/
structure Settled (s : State) (agenda : List PromiseAction) : Prop where
  unmade : ∀ a, s.made ≤ a → (s.heap.states a).r = none ∧ s.registered a = 0 ∧
    s.promiseCount a = 0 ∧ s.sets a = none
  result : ∀ a, a < s.made → (s.heap.states a).r = outcome s a
  posts : ∀ a, Posts s agenda a
  asserts : s.assertFailed = false

structure Sane (s : State) (agenda : List PromiseAction) : Prop where
  pointers : Counted s agenda
  states : Settled s agenda

/-! ## Counting pointers -/

theorem mem_holders : p ∈ holders s a ↔ p < s.next ∧ s.pointers p = .holds (some a) := by
  simp [holders]

theorem Counted.lt_next (counted : Counted s agenda) (exists_ : s.pointers p ≠ .gone) :
    p < s.next := by
  by_contra beyond
  exact exists_ (counted.fresh p (by omega))

theorem Counted.count_pos (counted : Counted s agenda) (holds : s.pointers p = .holds (some a)) :
    0 < s.promiseCount a := by
  rw [counted.counted]
  exact Finset.card_pos.mpr
    ⟨p, mem_holders.mpr ⟨counted.lt_next (by simp [holds]), holds⟩⟩

theorem Settled.made_of_count (settled : Settled s agenda) (positive : 0 < s.promiseCount a) :
    a < s.made := by
  by_contra beyond
  have none := (settled.unmade a (by omega)).2.2.1
  omega

private theorem card_holders (s : State) (a : ℕ) : (holders s a).card =
    ∑ p ∈ Finset.range s.next, if s.pointers p = .holds (some a) then 1 else 0 :=
  Finset.card_filter _ _

/-- A pointer is changed: a state gains a holder, or loses one. -/
theorem card_setPointer (pointer : Pointer) (inside : p < s.next) :
    (holders (s.setPointer p pointer) a).card +
        (if s.pointers p = .holds (some a) then 1 else 0) =
      (holders s a).card + (if pointer = .holds (some a) then 1 else 0) := by
  have member : p ∈ Finset.range s.next := Finset.mem_range.mpr inside
  have next : (s.setPointer p pointer).next = s.next := rfl
  have self : (s.setPointer p pointer).pointers p = pointer := by simp [State.setPointer]
  have others : ∀ q ∈ (Finset.range s.next).erase p,
      (if (s.setPointer p pointer).pointers q = .holds (some a) then 1 else 0) =
        if s.pointers q = .holds (some a) then 1 else 0 := by
    intro q other
    simp [State.setPointer, (Finset.mem_erase.mp other).1]
  rw [card_holders, card_holders, next, ← Finset.add_sum_erase _ _ member,
    ← Finset.add_sum_erase (Finset.range s.next) _ member, Finset.sum_congr rfl others, self]
  omega

/-- A new pointer. -/
theorem card_newPointer :
    (holders (s.newPointer target) a).card =
      (holders s a).card + (if target = some a then 1 else 0) := by
  have same : ∀ q ∈ Finset.range s.next,
      (if (s.newPointer target).pointers q = .holds (some a) then 1 else 0) =
        if s.pointers q = .holds (some a) then 1 else 0 := by
    intro q earlier
    have other : q ≠ s.next := (Finset.mem_range.mp earlier).ne
    simp [State.newPointer, State.setPointer, other]
  have next : (s.newPointer target).next = s.next + 1 := rfl
  rw [card_holders, card_holders, next, Finset.sum_range_succ, Finset.sum_congr rfl same]
  simp [State.newPointer, State.setPointer]

/-! ## Agendas -/

/-- All that the invariant reads of an agenda. -/
structure SameFrames (agenda agenda' : List PromiseAction) : Prop where
  ends : ∀ p, agenda'.countP (ends p) = agenda.countP (ends p)
  posts : ∀ a, agenda'.filterMap (postOf a) = agenda.filterMap (postOf a)

theorem sameFrames_user (calls : List PromiseAction) :
    SameFrames (calls ++ rest) (calls ++ .client .user :: rest) where
  ends p := by simp [List.countP_append, PromisePtr.ends]
  posts a := by rw [List.filterMap_append, List.filterMap_append, List.filterMap_cons_none rfl]

theorem line_of_posts {agenda' : List PromiseAction} (posted : s'.posted = s.posted)
    (posts : ∀ a, agenda'.filterMap (postOf a) = agenda.filterMap (postOf a)) :
    line s' agenda' a = line s agenda a := by
  rw [line, line, posts, posted]

/-- The pointers do not change. -/
theorem Counted.same {agenda' : List PromiseAction} (counted : Counted s agenda) (s' : State)
    (pointers : s'.pointers = s.pointers) (next : s'.next = s.next)
    (count : s'.promiseCount = s.promiseCount)
    (ends_same : ∀ p, agenda'.countP (ends p) = agenda.countP (ends p)) :
    Counted s' agenda' := by
  have holders_same : ∀ a, holders s' a = holders s a := by
    intro a
    simp only [holders, pointers, next]
  constructor
  · intro a
    rw [count, holders_same]
    exact counted.counted a
  · rw [next, pointers]
    exact counted.fresh
  · intro p
    rw [ends_same, pointers]
    exact counted.frames p

/-- Nothing changes but pointers, their counts, and what holders have set. -/
structure Keeps (s s' : State) : Prop where
  heap : s'.heap = s.heap
  made : s'.made = s.made
  registered : s'.registered = s.registered
  early : s'.early = s.early
  posted : s'.posted = s.posted
  assertFailed : s'.assertFailed = s.assertFailed

theorem Keeps.trans {s'' : State} (first : Keeps s s') (second : Keeps s' s'') : Keeps s s'' where
  heap := second.heap.trans first.heap
  made := second.made.trans first.made
  registered := second.registered.trans first.registered
  early := second.early.trans first.early
  posted := second.posted.trans first.posted
  assertFailed := second.assertFailed.trans first.assertFailed

/-- The outcomes of the states that exist stay what they are, but for one of them. -/
structure Outcomes (s s' : State) (except : ℕ → Prop) : Prop where
  same : ∀ a, a < s.made → ¬ except a → outcome s' a = outcome s a
  unmade : ∀ a, s.made ≤ a → s.promiseCount a = 0 ∧ s.sets a = none →
    s'.promiseCount a = 0 ∧ s'.sets a = none

/-- No state is resolved. -/
theorem Settled.keep {agenda' : List PromiseAction} (settled : Settled s agenda)
    (keeps : Keeps s s') (outcomes : Outcomes s s' fun _ => False)
    (posts : ∀ a, agenda'.filterMap (postOf a) = agenda.filterMap (postOf a)) :
    Settled s' agenda' := by
  constructor
  · intro a beyond
    rw [keeps.made] at beyond
    obtain ⟨result, registered, rest⟩ := settled.unmade a beyond
    rw [keeps.heap, keeps.registered]
    exact ⟨result, registered, outcomes.unmade a beyond rest⟩
  · intro a made
    rw [keeps.made] at made
    rw [keeps.heap, settled.result a made, outcomes.same a made id]
  · intro a
    constructor
    · rw [keeps.heap, keeps.registered, keeps.early, line_of_posts keeps.posted posts]
      exact (settled.posts a).unresolved
    · rw [keeps.heap, keeps.registered, keeps.early, line_of_posts keeps.posted posts]
      exact (settled.posts a).resolved
  · rw [keeps.assertFailed]
    exact settled.asserts

theorem keeps_refl : Keeps s s := ⟨rfl, rfl, rfl, rfl, rfl, rfl⟩

theorem Sane.of_frames {agenda' : List PromiseAction} (sane : Sane s agenda)
    (frames : SameFrames agenda agenda') : Sane s agenda' where
  pointers := sane.pointers.same s rfl rfl rfl frames.ends
  states := sane.states.keep keeps_refl ⟨fun _ _ _ => rfl, fun _ _ => id⟩ frames.posts

/-! ## Resolving a state -/

private theorem posts_of_range (n : ℕ) (b : ℕ) :
    ((List.range n).map fun i => (.client (.post a i) : PromiseAction)).filterMap (postOf b) =
      if a = b then List.range n else [] := by
  rw [List.filterMap_map]
  by_cases same : a = b
  · have here : postOf b ∘ (fun i => (.client (.post a i) : PromiseAction)) = some := by
      funext i
      simp [postOf, same]
    rw [here, if_pos same, List.filterMap_some]
  · have nowhere : postOf b ∘ (fun i => (.client (.post a i) : PromiseAction)) =
        fun _ => none := by
      funext i
      simp [postOf, same]
    rw [nowhere, if_neg same, List.filterMap_none]

/-- `shared_base::finish` puts the continuations in line. -/
theorem Settled.finish {agenda' : List PromiseAction} (settled : Settled s agenda)
    (keeps : Keeps s s') (made : a < s.made) (unresolved : (s.heap.states a).r = none)
    (outcomes : Outcomes s s' (· = a)) (now : outcome s' a = some result)
    (posts : ∀ a, agenda'.filterMap (postOf a) = agenda.filterMap (postOf a)) :
    Settled { s' with heap := (s'.heap.finish a result).1 }
      ((s.heap.states a).thens ++ agenda') := by
  obtain ⟨thens, early, empty⟩ := (settled.posts a).unresolved unresolved
  have others : ∀ b, b ≠ a →
      ((s'.heap.finish a result).1.states b) = s.heap.states b := by
    intro b other
    rw [keeps.heap, Heap.finish]
    exact Heap.setState_states_ne _ other
  have self : ((s'.heap.finish a result).1.states a).r = some result ∧
      ((s'.heap.finish a result).1.states a).thens = [] := by
    rw [Heap.finish]
    simp
  constructor
  · intro b beyond
    have beyond : s.made ≤ b := by rw [← keeps.made]; exact beyond
    obtain ⟨result, registered, rest⟩ := settled.unmade b beyond
    rw [others b (by omega), keeps.registered]
    exact ⟨result, registered, outcomes.unmade b beyond rest⟩
  · intro b inside
    have inside : b < s.made := by rw [← keeps.made]; exact inside
    by_cases same : b = a
    · subst same
      exact self.1.trans now.symm
    · rw [others b same, settled.result b inside]
      exact (outcomes.same b inside same).symm
  · intro b
    have line_same : line { s' with heap := (s'.heap.finish a result).1 }
        ((s.heap.states a).thens ++ agenda') b =
        s.posted b ++ ((if a = b then List.range (s.registered a) else []) ++
          agenda.filterMap (postOf b)) := by
      rw [line, keeps.posted, List.filterMap_append, thens, posts_of_range, posts]
    by_cases same : b = a
    · subst same
      have alone : line { s' with heap := (s'.heap.finish b result).1 }
          ((s.heap.states b).thens ++ agenda') b = List.range (s.registered b) := by
        rw [line, List.append_eq_nil_iff] at empty
        rw [line_same, empty.1, empty.2, if_pos rfl, List.nil_append, List.append_nil]
      constructor
      · intro nothing
        rw [self.1] at nothing
        cases nothing
      · intro _
        rw [alone, keeps.registered, keeps.early, early]
        refine ⟨self.2, le_rfl, List.Perm.refl _, ?_⟩
        rw [List.filter_eq_self]
        simp
    · have same_line : line { s' with heap := (s'.heap.finish a result).1 }
          ((s.heap.states a).thens ++ agenda') b = line s agenda b := by
        rw [line_same, if_neg (Ne.symm same), List.nil_append, line]
      constructor
      · rw [others b same, same_line, keeps.registered, keeps.early]
        exact (settled.posts b).unresolved
      · rw [others b same, same_line, keeps.registered, keeps.early]
        exact (settled.posts b).resolved
  · change s'.assertFailed = false
    rw [keeps.assertFailed]
    exact settled.asserts

end Tconcurrent.PromisePtr
