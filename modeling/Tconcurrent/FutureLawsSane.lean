import Mathlib.Data.Finset.Image
import Tconcurrent.FutureLaws
import Tconcurrent.FutureProofs

/-! What holds of the shared states while an expression of futures is evaluated.

A state that the library has made is resolved by one call, which waits on a shared state
or is still to be made.  When no call is left, its result is therefore what the results of
the states it was made from say. -/
namespace Tconcurrent.FutureLaws

set_option linter.unusedSectionVars false

variable {ι : Type} [DecidableEq ι]

namespace State

/-- How a shared state was made, if it was not given. -/
def node (s : State ι) : Name ι → Option (Node ι)
  | .given _ => none
  | .made n => s.made[n]?

def Known (s : State ι) : Name ι → Prop
  | .given _ => True
  | .made n => n < s.made.length

/-- A continuation is kept for later. -/
def register (s : State ι) (q : Name ι) (f : LawCall ι) : State ι :=
  { s with heap :=
      s.heap.setState q { s.heap.states q with thens := (s.heap.states q).thens ++ [f] } }

variable {s : State ι} {p : Name ι}

theorem known_of_node {node : Node ι} (made : s.node p = some node) : s.Known p := by
  cases p with
  | given i => trivial
  | made n => exact (List.getElem?_eq_some_iff.mp made).1

theorem fresh_unknown : ¬ s.Known s.fresh := Nat.lt_irrefl _

theorem node_fresh : s.node s.fresh = none := by
  simp [node, fresh]

theorem ne_fresh (known : s.Known p) : p ≠ s.fresh := by
  rintro rfl
  exact fresh_unknown known

theorem node_create {node : Node ι} {state : LawBase ι} :
    (s.create node state).node s.fresh = some node := by
  simp [create, State.node, fresh]

theorem known_create {node : Node ι} {state : LawBase ι} :
    (s.create node state).Known p ↔ s.Known p ∨ p = s.fresh := by
  cases p with
  | given i => simp [Known]
  | made n =>
    simp only [Known, create, List.length_append, List.length_singleton, fresh, Name.made.injEq]
    omega

theorem node_create_of_known {node : Node ι} {state : LawBase ι} (known : s.Known p) :
    (s.create node state).node p = s.node p := by
  cases p with
  | given i => rfl
  | made n => exact List.getElem?_append_left known

theorem states_create {node : Node ι} {state : LawBase ι} (known : s.Known p) :
    (s.create node state).heap.states p = s.heap.states p :=
  Heap.setState_states_ne _ (ne_fresh known)

theorem states_fresh {node : Node ι} {state : LawBase ι} :
    (s.create node state).heap.states s.fresh = state :=
  Heap.setState_states_self _

/-! ## Adding up -/

variable [Fintype ι] (measure : LawCall ι → ℕ) {call : LawCall ι} {calls rest : List (LawCall ι)}

theorem mem_homes : p ∈ s.homes ↔ s.Known p := by
  cases p with
  | given i => simp [homes, Known]
  | made n => simp [homes, Known]

theorem total_cons : s.total measure (call :: calls) = measure call + s.total measure calls := by
  simp only [total, List.map_cons, List.sum_cons, Nat.add_assoc]

theorem total_append :
    s.total measure (calls ++ rest) = (calls.map measure).sum + s.total measure rest := by
  simp only [total, List.map_append, List.sum_append, Nat.add_assoc]

theorem total_congr {heap : Heap (Name ι) (Name ι) (Closure ι)}
    (same : heap.states = s.heap.states) :
    { s with heap }.total measure calls = s.total measure calls := by
  simp only [total, homes, same]

/-- Only the continuations of one shared state change. -/
theorem total_setState (known : s.Known p) (state : LawBase ι) :
    { s with heap := s.heap.setState p state }.total measure calls +
        ((s.heap.states p).thens.map measure).sum =
      s.total measure calls + (state.thens.map measure).sum := by
  have member := mem_homes.mpr known
  have before := Finset.add_sum_erase s.homes
    (fun q => ((s.heap.states q).thens.map measure).sum) member
  have after := Finset.add_sum_erase s.homes
    (fun q => (((s.heap.setState p state).states q).thens.map measure).sum) member
  have elsewhere : ∑ q ∈ s.homes.erase p,
      (((s.heap.setState p state).states q).thens.map measure).sum =
      ∑ q ∈ s.homes.erase p, ((s.heap.states q).thens.map measure).sum :=
    Finset.sum_congr rfl fun q other => by
      rw [Heap.setState_states_ne state (Finset.ne_of_mem_erase other)]
  simp only [Heap.setState_states_self] at after
  change (calls.map measure).sum + ∑ q ∈ s.homes,
      (((s.heap.setState p state).states q).thens.map measure).sum +
      ((s.heap.states p).thens.map measure).sum = (calls.map measure).sum + ∑ q ∈ s.homes,
      ((s.heap.states q).thens.map measure).sum + (state.thens.map measure).sum
  omega

/-- A new shared state has no continuations. -/
theorem total_create (node : Node ι) {state : LawBase ι} (empty : state.thens = []) :
    (s.create node state).total measure calls = s.total measure calls := by
  have grown : (s.create node state).homes = insert s.fresh s.homes := by
    ext p
    rw [mem_homes, known_create, Finset.mem_insert, mem_homes, or_comm]
  have apart : s.fresh ∉ s.homes := fun member => fresh_unknown (mem_homes.mp member)
  have elsewhere : ∑ q ∈ s.homes, (((s.create node state).heap.states q).thens.map measure).sum =
      ∑ q ∈ s.homes, ((s.heap.states q).thens.map measure).sum :=
    Finset.sum_congr rfl fun q member => by rw [states_create (mem_homes.mp member)]
  simp only [total, grown, Finset.sum_insert apart, elsewhere, states_fresh, empty, List.map_nil,
    List.sum_nil, Nat.zero_add]

end State

/-! ## What is pending, and what is set -/

/-- Whether a call is to resolve a state, by itself or through what it calls. -/
def owes (d : Name ι) : LawCall ι → ℕ
  | .finish p _ => if p = d then 1 else 0
  | .thenRun _ f => owes d f
  | .requestCancel _ => 0
  | .popCancelationCallback _ => 0
  | .unwrapOuter _ sb => if sb = d then 1 else 0
  | .unwrapInner _ sb _ => if sb = d then 1 else 0
  | .client (.andThen _ _ _ task) => if task = d then 1 else 0
  | .client (.returnFuture _ task) => if task = d then 1 else 0

/-- What a function returns or throws. -/
def Returns (s : State ι) (v : Value (Name ι) (Name ι)) :
    Func ι → Result (Name ι) (Name ι) → Prop
  | .user f, r => ∃ d, datum v = some d ∧ r = s.resultOf (f d)
  | .makeReadyFuture, r => ∃ fut, r = .value (.future fut) ∧ s.result fut.p = some (.value v)
  | .unwrap, r => ∃ outer fut, v = .future outer ∧ r = .value (.future fut) ∧
      s.node fut.p = some (.unwrapped outer.p)

/-- A value that the types keep away from a function. -/
def Refused (v : Value (Name ι) (Name ι)) : Func ι → Prop
  | .user _ => datum v = none
  | .makeReadyFuture => False
  | .unwrap => ∃ n, v = .plain n

/-- The result of a state that was made. -/
def Right (s : State ι) : Node ι → Result (Name ι) (Name ι) → Prop
  | .ready, _ => True
  | .task p func, r => (∃ e, s.result p = some (.exception e) ∧ r = .exception e) ∨
      ∃ v, s.result p = some (.value v) ∧ Returns s v func r
  | .unwrapped p, r => (∃ e, s.result p = some (.exception e) ∧ r = .exception e) ∨
      ∃ fut, s.result p = some (.value (.future fut)) ∧ s.result fut.p = some r

/-- Nothing will resolve it, since what it needs has another type. -/
def Stuck (s : State ι) : Node ι → Prop
  | .ready => False
  | .task p func => ∃ v, s.result p = some (.value v) ∧ Refused v func
  | .unwrapped p => ∃ n, s.result p = some (.value (.plain n))

/-- A continuation belongs on the state it is registered on. -/
def Placed (s : State ι) (q : Name ι) : LawCall ι → Prop
  | .client (.andThen p _ func task) => p = q ∧ s.node task = some (.task p func)
  | .unwrapOuter fut1 sb => fut1 = q ∧ s.node sb = some (.unwrapped fut1)
  | .unwrapInner fut2 sb _ => fut2 = q ∧ ∃ p fut, s.node sb = some (.unwrapped p) ∧
      s.result p = some (.value (.future fut)) ∧ fut.p = fut2
  | _ => False

/-- A future that is set exists. -/
def KnownResult (s : State ι) (r : Result (Name ι) (Name ι)) : Prop :=
  ∀ fut, r = .value (.future fut) → s.Known fut.p

/-- A call does what the states were made for. -/
def SoundCall (s : State ι) : LawCall ι → Prop
  | .finish p r => (∃ node, s.node p = some node ∧ Right s node r) ∧ KnownResult s r
  | .thenRun q f => s.Known q ∧ Placed s q f
  | .popCancelationCallback _ => True
  | .client (.returnFuture sb task) => ∃ p outer, s.node task = some (.task p .unwrap) ∧
      s.result p = some (.value (.future outer)) ∧ s.node sb = some (.unwrapped outer.p)
  | f => ∃ q, s.result q ≠ none ∧ Placed s q f

structure Sane [Fintype ι] (s : State ι) (calls : List (LawCall ι)) : Prop where
  sound : ∀ call ∈ calls, SoundCall s call
  placed : ∀ q, ∀ f ∈ (s.heap.states q).thens, Placed s q f
  drained : s.heap.Drained
  right : ∀ p node r, s.node p = some node → s.result p = some r → Right s node r
  known : ∀ p r, s.result p = some r → KnownResult s r
  blank : ∀ p, ¬ s.Known p → s.heap.states p = {}
  quiet : ∀ t, (s.heap.tokens t).isCancelRequested = false
  single : ∀ d node, s.node d = some node →
    s.total (owes d) calls + (s.result d).isSome.toNat ≤ 1
  due : ∀ d node, s.node d = some node → s.result d = none →
    0 < s.total (owes d) calls ∨ Stuck s node

/-- Nothing is taken back. -/
structure Later (s s' : State ι) : Prop where
  results : ∀ p r, s.result p = some r → s'.result p = some r
  nodes : ∀ p node, s.node p = some node → s'.node p = some node
  known : ∀ p, s.Known p → s'.Known p
  token : s'.token = s.token

section

variable {s s' s'' : State ι} {p q d : Name ι} {call f : LawCall ι} {calls rest : List (LawCall ι)}
  {r : Result (Name ι) (Name ι)} {node : Node ι} {v : Value (Name ι) (Name ι)} {func : Func ι}

theorem Later.refl : Later s s := ⟨fun _ _ h => h, fun _ _ h => h, fun _ h => h, rfl⟩

theorem Later.trans (first : Later s s') (second : Later s' s'') : Later s s'' where
  results p r held := second.results p r (first.results p r held)
  nodes p node made := second.nodes p node (first.nodes p node made)
  known p known := second.known p (first.known p known)
  token := second.token.trans first.token

theorem later_heap {heap : Heap (Name ι) (Name ι) (Closure ι)} (keeps : s.heap.Keeps heap) :
    Later s { s with heap } := ⟨keeps, fun _ _ h => h, fun _ h => h, rfl⟩

theorem Later.value (later : Later s s') (d : Datum ι) : s'.value d = s.value d := by
  cases d with
  | plain v => rfl
  | future i => simp only [State.value, State.given, later.token]

theorem Later.resultOf (later : Later s s') (outcome : Except Exc (Datum ι)) :
    s'.resultOf outcome = s.resultOf outcome := by
  cases outcome with
  | ok d => simp only [State.resultOf, later.value]
  | error e => rfl

theorem Returns.later (returns : Returns s v func r) (later : Later s s') : Returns s' v func r := by
  cases func with
  | user f =>
    obtain ⟨d, known, same⟩ := returns
    exact ⟨d, known, by rw [same, later.resultOf]⟩
  | makeReadyFuture =>
    obtain ⟨fut, same, ready⟩ := returns
    exact ⟨fut, same, later.results _ _ ready⟩
  | unwrap =>
    obtain ⟨outer, fut, nested, same, made⟩ := returns
    exact ⟨outer, fut, nested, same, later.nodes _ _ made⟩

theorem Right.later (right : Right s node r) (later : Later s s') : Right s' node r := by
  cases node with
  | ready => trivial
  | task p func =>
    rcases right with ⟨e, failed, same⟩ | ⟨v, result, returns⟩
    · exact Or.inl ⟨e, later.results _ _ failed, same⟩
    · exact Or.inr ⟨v, later.results _ _ result, returns.later later⟩
  | unwrapped p =>
    rcases right with ⟨e, failed, same⟩ | ⟨fut, outer, inner⟩
    · exact Or.inl ⟨e, later.results _ _ failed, same⟩
    · exact Or.inr ⟨fut, later.results _ _ outer, later.results _ _ inner⟩

theorem Stuck.later (stuck : Stuck s node) (later : Later s s') : Stuck s' node := by
  cases node with
  | ready => exact stuck
  | task p func =>
    obtain ⟨v, result, refused⟩ := stuck
    exact ⟨v, later.results _ _ result, refused⟩
  | unwrapped p =>
    obtain ⟨n, result⟩ := stuck
    exact ⟨n, later.results _ _ result⟩

theorem Placed.later (placed : Placed s q f) (later : Later s s') : Placed s' q f := by
  cases f with
  | client k =>
    cases k with
    | andThen p token func task => exact ⟨placed.1, later.nodes _ _ placed.2⟩
    | returnFuture => exact placed
  | unwrapOuter fut1 sb => exact ⟨placed.1, later.nodes _ _ placed.2⟩
  | unwrapInner fut2 sb token =>
    obtain ⟨same, p, fut, made, result, inner⟩ := placed
    exact ⟨same, p, fut, later.nodes _ _ made, later.results _ _ result, inner⟩
  | finish | thenRun | requestCancel | popCancelationCallback => exact placed

theorem KnownResult.later (known : KnownResult s r) (later : Later s s') : KnownResult s' r :=
  fun fut same => later.known _ (known fut same)

theorem Later.ready (later : Later s s') (ready : s.result p ≠ none) : s'.result p ≠ none := by
  obtain ⟨r, held⟩ := Option.ne_none_iff_exists'.mp ready
  rw [later.results p r held]
  simp

theorem SoundCall.later (sound : SoundCall s call) (later : Later s s') : SoundCall s' call := by
  cases call with
  | finish p r =>
    obtain ⟨⟨node, made, right⟩, known⟩ := sound
    exact ⟨⟨node, later.nodes _ _ made, right.later later⟩, known.later later⟩
  | thenRun q f => exact ⟨later.known _ sound.1, sound.2.later later⟩
  | popCancelationCallback => trivial
  | client k =>
    cases k with
    | returnFuture sb task =>
      obtain ⟨p, outer, made, result, unwrapped⟩ := sound
      exact ⟨p, outer, later.nodes _ _ made, later.results _ _ result, later.nodes _ _ unwrapped⟩
    | andThen =>
      obtain ⟨q, ready, placed⟩ := sound
      exact ⟨q, later.ready ready, placed.later later⟩
  | requestCancel | unwrapOuter | unwrapInner =>
    obtain ⟨q, ready, placed⟩ := sound
    exact ⟨q, later.ready ready, placed.later later⟩

/-- A continuation may be called once its state is resolved. -/
theorem Placed.sound (placed : Placed s q f) (ready : s.result q ≠ none) : SoundCall s f := by
  cases f with
  | client k =>
    cases k with
    | andThen => exact ⟨q, ready, placed⟩
    | returnFuture => exact placed.elim
  | unwrapOuter | unwrapInner => exact ⟨q, ready, placed⟩
  | finish | thenRun | requestCancel | popCancelationCallback => exact placed.elim

/-- Only what was made is owed. -/
theorem Placed.owes_eq_zero (placed : Placed s q f) (given : s.node d = none) : owes d f = 0 := by
  have apart : ∀ {p : Name ι} {node : Node ι}, s.node p = some node → p ≠ d := by
    rintro p node made rfl
    rw [given] at made
    cases made
  cases f with
  | client k =>
    cases k with
    | andThen p token func task => exact if_neg (apart placed.2)
    | returnFuture => exact placed.elim
  | unwrapOuter fut1 sb => exact if_neg (apart placed.2)
  | unwrapInner fut2 sb token =>
    obtain ⟨-, p, fut, made, -⟩ := placed
    exact if_neg (apart made)
  | finish | thenRun | requestCancel | popCancelationCallback => exact placed.elim

theorem SoundCall.owes_eq_zero (sound : SoundCall s call) (given : s.node d = none) :
    owes d call = 0 := by
  have apart : ∀ {p : Name ι} {node : Node ι}, s.node p = some node → p ≠ d := by
    rintro p node made rfl
    rw [given] at made
    cases made
  cases call with
  | finish p r =>
    obtain ⟨⟨node, made, -⟩, -⟩ := sound
    exact if_neg (apart made)
  | thenRun q f => exact sound.2.owes_eq_zero given
  | popCancelationCallback => rfl
  | client k =>
    cases k with
    | returnFuture sb task =>
      obtain ⟨p, outer, made, -⟩ := sound
      exact if_neg (apart made)
    | andThen =>
      obtain ⟨q, -, placed⟩ := sound
      exact placed.owes_eq_zero given
  | requestCancel | unwrapOuter | unwrapInner =>
    obtain ⟨q, -, placed⟩ := sound
    exact placed.owes_eq_zero given

variable [Fintype ι] {calls' : List (LawCall ι)} {heap : Heap (Name ι) (Name ι) (Closure ι)}
  {state : LawBase ι}

theorem Sane.nothing_owed (sane : Sane s calls) (given : s.node d = none) :
    s.total (owes d) calls = 0 := by
  have pending : (calls.map (owes d)).sum = 0 := by
    apply List.sum_eq_zero
    intro n member
    obtain ⟨call, listed, rfl⟩ := List.mem_map.mp member
    exact (sane.sound call listed).owes_eq_zero given
  have waiting : ∑ p ∈ s.homes, ((s.heap.states p).thens.map (owes d)).sum = 0 := by
    apply Finset.sum_eq_zero
    intro p _
    apply List.sum_eq_zero
    intro n member
    obtain ⟨f, listed, rfl⟩ := List.mem_map.mp member
    exact (sane.placed p f listed).owes_eq_zero given
  rw [State.total, pending, waiting]

theorem Sane.reorder (sane : Sane s calls) (perm : calls.Perm calls') : Sane s calls' := by
  have same : ∀ d, s.total (owes d) calls' = s.total (owes d) calls := by
    intro d
    rw [State.total, State.total, (perm.map (owes d)).sum_eq]
  exact { sane with
    sound := fun call member => sane.sound call (perm.mem_iff.mpr member)
    single := fun d node made => by rw [same]; exact sane.single d node made
    due := fun d node made unready => by rw [same]; exact sane.due d node made unready }

/-- A call makes others, and no shared state changes. -/
theorem Sane.replace (sane : Sane s (call :: rest)) (states : heap.states = s.heap.states)
    (quiet : ∀ t, (heap.tokens t).isCancelRequested = false)
    (sound : ∀ f ∈ calls, SoundCall s f)
    (less : ∀ d, (calls.map (owes d)).sum ≤ owes d call)
    (dropped : ∀ d node, s.node d = some node → (calls.map (owes d)).sum < owes d call →
      Stuck s node) : Sane { s with heap } (calls ++ rest) := by
  have later : Later s { s with heap } := later_heap (Heap.keeps_of_states states)
  have same : ∀ p, { s with heap }.result p = s.result p := fun p => by
    simp only [State.result, states]
  have moved : ∀ d, { s with heap }.total (owes d) (calls ++ rest) + owes d call =
      s.total (owes d) (call :: rest) + (calls.map (owes d)).sum := by
    intro d
    rw [State.total_congr _ states, State.total_append, State.total_cons]
    omega
  constructor
  case sound =>
    intro f member
    rcases List.mem_append.mp member with member | member
    · exact (sound f member).later later
    · exact (sane.sound f (List.mem_cons_of_mem _ member)).later later
  case placed =>
    intro q f member
    rw [states] at member
    exact (sane.placed q f member).later later
  case drained => exact sane.drained.of_states states
  case right =>
    intro p node r made held
    rw [same] at held
    exact (sane.right p node r made held).later later
  case known =>
    intro p r held
    rw [same] at held
    exact (sane.known p r held).later later
  case blank =>
    intro p unknown
    rw [states]
    exact sane.blank p unknown
  case quiet => exact quiet
  case single =>
    intro d node made
    have before := sane.single d node made
    have fewer := less d
    have total := moved d
    rw [same]
    omega
  case due =>
    intro d node made unready
    rw [same] at unready
    have fewer := less d
    have total := moved d
    rcases sane.due d node made unready with owed | stuck
    · by_cases kept : (calls.map (owes d)).sum < owes d call
      · exact Or.inr ((dropped d node made kept).later later)
      · exact Or.inl (by omega)
    · exact Or.inr (stuck.later later)

/-- The call may also leave the heap as it is. -/
theorem Sane.instead (sane : Sane s (call :: rest)) (sound : ∀ f ∈ calls, SoundCall s f)
    (same : ∀ d, (calls.map (owes d)).sum = owes d call) : Sane s (calls ++ rest) :=
  sane.replace rfl sane.quiet sound (fun d => (same d).le) fun d _ _ less =>
    absurd (same d) (Nat.ne_of_lt less)

/-- A state is set, and its continuations are called. -/
theorem Sane.set (sane : Sane s calls) (fewer : ∀ f ∈ rest, f ∈ calls)
    (unready : s.result p = none) (exists_ : s.Known p) (known : KnownResult s r)
    (right : ∀ node, s.node p = some node → Right s node r)
    (totals : ∀ d node, s.node d = some node →
      s.total (owes d) calls = s.total (owes d) rest + if p = d then 1 else 0) :
    Sane { s with heap := (s.heap.finish p r).1 } ((s.heap.finish p r).2 ++ rest) := by
  have keeps : s.heap.Keeps (s.heap.finish p r).1 := Heap.keeps_setState (Heap.not_ready.mpr unready)
  have later : Later s { s with heap := (s.heap.finish p r).1 } := later_heap keeps
  have here : { s with heap := (s.heap.finish p r).1 }.result p = some r := by
    simp [State.result, Heap.finish]
  have elsewhere : ∀ q, q ≠ p → (s.heap.finish p r).1.states q = s.heap.states q := fun q other =>
    Heap.setState_states_ne _ other
  have moved : ∀ d, { s with heap := (s.heap.finish p r).1 }.total (owes d)
      ((s.heap.finish p r).2 ++ rest) = s.total (owes d) rest := by
    intro d
    have total : { s with heap := (s.heap.finish p r).1 }.total (owes d) rest +
        ((s.heap.states p).thens.map (owes d)).sum = s.total (owes d) rest + 0 :=
      State.total_setState (owes d) exists_ _
    rw [State.total_append]
    change ((s.heap.states p).thens.map (owes d)).sum + _ = _
    rw [Nat.add_comm]
    exact total
  constructor
  case sound =>
    intro f member
    rcases List.mem_append.mp member with member | member
    · exact ((sane.placed p f member).later later).sound (by rw [here]; simp)
    · exact (sane.sound f (fewer f member)).later later
  case placed =>
    intro q f member
    by_cases same : q = p
    · simp [same, Heap.finish] at member
    · rw [elsewhere q same] at member
      exact (sane.placed q f member).later later
  case drained => exact sane.drained.setState fun _ => rfl
  case right =>
    intro q node r' made held
    by_cases same : q = p
    · subst same
      rw [here] at held
      obtain rfl := Option.some.inj held
      exact (right node made).later later
    · rw [State.result, elsewhere q same] at held
      exact (sane.right q node r' made held).later later
  case known =>
    intro q r' held
    by_cases same : q = p
    · subst same
      rw [here] at held
      obtain rfl := Option.some.inj held
      exact known.later later
    · rw [State.result, elsewhere q same] at held
      exact (sane.known q r' held).later later
  case blank =>
    intro q unknown
    have other : q ≠ p := by
      rintro rfl
      exact unknown exists_
    rw [elsewhere q other]
    exact sane.blank q unknown
  case quiet => exact sane.quiet
  case single =>
    intro d node made
    have before := sane.single d node made
    rw [totals d node made] at before
    rw [moved]
    by_cases same : p = d
    · subst same
      simp only [if_true, unready, Option.isSome_none, Bool.toNat_false] at before
      simp only [here, Option.isSome_some, Bool.toNat_true]
      omega
    · rw [State.result, elsewhere d (Ne.symm same), ← State.result]
      simp only [same, if_false, Nat.add_zero] at before
      exact before
  case due =>
    intro d node made unready'
    rw [moved]
    have other : d ≠ p := by
      rintro rfl
      rw [here] at unready'
      cases unready'
    rw [State.result, elsewhere d other] at unready'
    have before := sane.due d node made unready'
    rw [totals d node made, if_neg (Ne.symm other), Nat.add_zero] at before
    exact before.imp id fun stuck => stuck.later later

/-- A continuation is registered on a state that is not resolved. -/
theorem Sane.register (sane : Sane s (.thenRun q f :: rest)) (unready : s.result q = none) :
    Sane (s.register q f) rest := by
  have later : Later s (s.register q f) :=
    later_heap (Heap.keeps_setState (Heap.not_ready.mpr unready))
  obtain ⟨exists_, placed⟩ := sane.sound _ List.mem_cons_self
  have elsewhere : ∀ p, p ≠ q → (s.register q f).heap.states p = s.heap.states p :=
    fun p other => Heap.setState_states_ne _ other
  have same : ∀ p, (s.register q f).result p = s.result p := by
    intro p
    by_cases here : p = q
    · simp [State.result, State.register, here]
    · rw [State.result, elsewhere p here, State.result]
  have moved : ∀ d, (s.register q f).total (owes d) rest =
      s.total (owes d) (.thenRun q f :: rest) := by
    intro d
    have total : (s.register q f).total (owes d) rest +
        ((s.heap.states q).thens.map (owes d)).sum = s.total (owes d) rest +
        (((s.heap.states q).thens ++ [f]).map (owes d)).sum :=
      State.total_setState (owes d) exists_ _
    simp only [List.map_append, List.sum_append, List.map_singleton, List.sum_singleton] at total
    rw [State.total_cons, owes]
    omega
  constructor
  case sound =>
    intro call member
    exact (sane.sound call (List.mem_cons_of_mem _ member)).later later
  case placed =>
    intro p g member
    by_cases here : p = q
    · subst here
      simp only [State.register, Heap.setState_states_self, List.mem_append,
        List.mem_singleton] at member
      rcases member with member | rfl
      · exact (sane.placed p g member).later later
      · exact placed.later later
    · rw [elsewhere p here] at member
      exact (sane.placed p g member).later later
  case drained => exact sane.drained.setState fun resolved => absurd unready resolved
  case right =>
    intro p node r made held
    rw [same] at held
    exact (sane.right p node r made held).later later
  case known =>
    intro p r held
    rw [same] at held
    exact (sane.known p r held).later later
  case blank =>
    intro p unknown
    have other : p ≠ q := by
      rintro rfl
      exact unknown exists_
    rw [elsewhere p other]
    exact sane.blank p unknown
  case quiet => exact sane.quiet
  case single =>
    intro d node made
    rw [same, moved]
    exact sane.single d node made
  case due =>
    intro d node made unready
    rw [same] at unready
    rw [moved]
    exact (sane.due d node made unready).imp id fun stuck => stuck.later later

theorem Sane.unset (sane : Sane s calls) (unknown : ¬ s.Known p) : s.result p = none := by
  rw [State.result, sane.blank p unknown]

theorem Sane.later_create (sane : Sane s calls) : Later s (s.create node state) where
  results p r held := by
    have known : s.Known p := by
      by_contra unknown
      rw [sane.unset unknown] at held
      cases held
    rw [State.result, State.states_create known]
    exact held
  nodes p node made := by
    rw [State.node_create_of_known (State.known_of_node made)]
    exact made
  known p known := State.known_create.mpr (Or.inl known)
  token := rfl

/-- A state is made, ready or with the call that is to resolve it. -/
theorem Sane.create (sane : Sane s rest) (empty : state.thens = [])
    (sound : ∀ f ∈ calls, SoundCall (s.create node state) f)
    (known : ∀ r, state.r = some r → KnownResult s r)
    (right : ∀ r, state.r = some r → Right s node r)
    (owed : ∀ d, (calls.map (owes d)).sum = if s.fresh = d ∧ state.r = none then 1 else 0) :
    Sane (s.create node state) (calls ++ rest) := by
  have later : Later s (s.create node state) := sane.later_create
  have same : ∀ p, s.Known p → (s.create node state).result p = s.result p := fun p known => by
    rw [State.result, State.states_create known, State.result]
  have here : (s.create node state).result s.fresh = state.r := by
    rw [State.result, State.states_fresh]
  have either : ∀ p node', (s.create node state).node p = some node' →
      s.Known p ∧ s.node p = some node' ∨ p = s.fresh ∧ node = node' := by
    intro p node' made
    rcases State.known_create.mp (State.known_of_node made) with known | rfl
    · rw [State.node_create_of_known known] at made
      exact Or.inl ⟨known, made⟩
    · rw [State.node_create] at made
      exact Or.inr ⟨rfl, Option.some.inj made⟩
  have moved : ∀ d, (s.create node state).total (owes d) (calls ++ rest) =
      s.total (owes d) rest + if s.fresh = d ∧ state.r = none then 1 else 0 := by
    intro d
    rw [State.total_create _ _ empty, State.total_append, owed, Nat.add_comm]
  constructor
  case sound =>
    intro f member
    rcases List.mem_append.mp member with member | member
    · exact sound f member
    · exact (sane.sound f member).later later
  case placed =>
    intro p f member
    by_cases fresh : p = s.fresh
    · rw [fresh, State.states_fresh, empty] at member
      cases member
    · by_cases known : s.Known p
      · rw [State.states_create known] at member
        exact (sane.placed p f member).later later
      · rw [State.create, Heap.setState_states_ne _ fresh, sane.blank p known] at member
        cases member
  case drained => exact sane.drained.setState fun _ => empty
  case right =>
    intro p node' r made held
    rcases either p node' made with ⟨known, made⟩ | ⟨rfl, rfl⟩
    · rw [same p known] at held
      exact (sane.right p node' r made held).later later
    · rw [here] at held
      exact (right r held).later later
  case known =>
    intro p r held
    by_cases fresh : p = s.fresh
    · rw [fresh, here] at held
      exact (known r held).later later
    · by_cases known : s.Known p
      · rw [same p known] at held
        exact (sane.known p r held).later later
      · rw [State.result, State.create, Heap.setState_states_ne _ fresh,
          sane.blank p known] at held
        cases held
  case blank =>
    intro p unknown
    have apart := not_or.mp fun known => unknown (State.known_create.mpr known)
    rw [State.create, Heap.setState_states_ne _ apart.2]
    exact sane.blank p apart.1
  case quiet => exact sane.quiet
  case single =>
    intro d node' made
    rw [moved]
    rcases either d node' made with ⟨known, made⟩ | ⟨rfl, rfl⟩
    · have before := sane.single d node' made
      rw [same d known, if_neg fun both => State.ne_fresh known both.1.symm]
      exact before
    · rw [sane.nothing_owed State.node_fresh, here]
      cases state.r with
      | none => simp
      | some r => simp
  case due =>
    intro d node' made unready
    rw [moved]
    rcases either d node' made with ⟨known, made⟩ | ⟨rfl, rfl⟩
    · rw [same d known] at unready
      have before := sane.due d node' made unready
      rw [if_neg fun both => State.ne_fresh known both.1.symm]
      exact before.imp id fun stuck => stuck.later later
    · rw [here] at unready
      rw [if_pos ⟨rfl, unready⟩]
      exact Or.inl (Nat.succ_pos _)

end

end Tconcurrent.FutureLaws
