import Tconcurrent.FutureInputs

/-! `when_any`.

The constructor's loop compares its index with the size of the vector in one step and
indexes the vector in the next.  The callback that comes first moves the vector out: on
another thread, or inside the loop on a future that is ready.  Indexing the vector after
that is undefined, and the program is not followed there. -/
namespace Tconcurrent.WhenAny
open Interleaving FutureInputs

inductive Closure where
  | user
  /-- `when_any` is called. -/
  | whenAny
  /-- The loop of the constructor: `index < _p->futures.size()`. -/
  | register (index : ℕ)
  /-- Its body: `_p->futures[index].then(..)`. -/
  | index (index : ℕ)
  | getFuture
  /-- `when_any_callback::operator()`. -/
  | callback (index : ℕ)
  /-- The loop of `auto_cancel`. -/
  | cancelOthers (index i : ℕ)
  | setValue (index : ℕ)
  /-- `shared::request_cancel`. -/
  | canceler
  deriving DecidableEq

abbrev WhenAnyCall := InputCall Closure

/-- `when_any_callback::shared`, and what has been seen of it. -/
structure State where
  heap : InputHeap Closure
  called : Bool := false
  futures : List Input := []
  triggered : Bool := false
  /-- The value that the promise was set to. -/
  value : Option (ℕ × List Input) := none
  /-- How often it was set. -/
  sets : ℕ := 0
  returned : Bool := false
  /-- Cancelation was requested on the returned future when it was not ready. -/
  canceled : Bool := false
  /-- Other code has requested cancelation of any of the futures. -/
  asked : Bool := false
  /-- The callback that ran first. -/
  first : Option ℕ := none
  /-- The lowest index that was ready at the call. -/
  lowest : Option ℕ := none
  /-- An input was resolved after the call and before the first callback. -/
  disturbed : Bool := false
  /-- The loop has compared its index and has not indexed the vector yet. -/
  comparing : Bool := false
  /-- The vector was moved out in between, by a callback on another thread. -/
  raced : Bool := false

abbrev WhenAnyStep := State × List WhenAnyCall

section
variable (inputs : List Input) (autoCancel : Bool)

def program : Program Closure where
  user := .user
  continuation p k := ∃ index fut, k = .callback index ∧ inputs[index]? = some fut ∧ fut.p = p
  canceler := .canceler
  internal k := ∀ index, k ≠ .callback index
  user_internal := by simp
  internal_plain := by
    rintro p k ⟨index, fut, rfl, -⟩ own
    exact own index rfl
  canceler_plain := by simp
  canceler_ne := by simp

/-- The constructor of `when_any_callback`, up to its loop. -/
def whenAny (s : State) : WhenAnyStep :=
  if inputs = [] then
    ({ s with
       called := true
       heap := s.heap.setState none { r := some (.value (.plain 0)) } }, [.client .getFuture])
  else
    ({ s with
       called := true
       heap := (program inputs).makePromise s.heap
       futures := inputs
       lowest := inputs.findIdx? fun fut => decide (s.heap.Ready (some fut.p)) },
      [.client (.register 0)])

def register (index : ℕ) (s : State) : WhenAnyStep :=
  if index < s.futures.length then ({ s with comparing := true }, [.client (.index index)])
  else (s, [.client .getFuture])

def index (index : ℕ) (s : State) : Option WhenAnyStep :=
  s.futures[index]?.map fun fut =>
    ({ s with comparing := false },
      [.thenRun (some fut.p) (.client (.callback index)),
      .client (.register ((index + 1) % 2 ^ 32))])

/-- `triggered.exchange(true)`. -/
def callback (index : ℕ) (s : State) : WhenAnyStep :=
  if s.triggered then (s, [])
  else
    ({ s with triggered := true, first := some index },
      if autoCancel then [.client (.cancelOthers index 0)] else [.client (.setValue index)])

/-- One round of the loop of `auto_cancel`. -/
def cancelOthers (index i : ℕ) (s : State) : WhenAnyStep :=
  match s.futures[i]? with
  | none => (s, [.client (.setValue index)])
  | some fut =>
    if i = index then (s, [.client (.cancelOthers index ((i + 1) % 2 ^ 32))])
    else
      ({ s with heap := (s.heap.exec (.requestCancel (some fut.p))).1 },
        (s.heap.exec (.requestCancel (some fut.p))).2 ++
          [.client (.cancelOthers index ((i + 1) % 2 ^ 32))])

/-- The promise is set, and the futures are moved into its value. -/
def setValue (index : ℕ) (s : State) : WhenAnyStep :=
  ({ s with
     value := some (index, s.futures)
     futures := []
     sets := s.sets + 1
     raced := s.raced || s.comparing }, [.finish none (.value (.plain 0))])

/-- `shared::request_cancel`: every canceler that `make_canceler` has made. -/
def requestCancel (s : State) : WhenAnyStep :=
  (s, inputs.map fun fut => .requestCancel (some fut.p))

/-- Whether other code asks for the cancelation of a future. -/
def Choice.Requests : Choice → Bool
  | .requestCancel _ => true
  | _ => false

/-- Whether other code resolves one of the inputs. -/
def Choice.Resolves : Choice → Bool
  | .resolve p _ => inputs.any fun fut => fut.p = p
  | _ => false

/-- Other code. -/
def user (s : State) (choice : Choice) : Option WhenAnyStep :=
  ((program inputs).others s.returned s.heap choice).map fun step =>
    ({ s with
       heap := step.1
       canceled := s.canceled ||
         decide (choice = .requestCancel none ∧ s.called = true ∧ ¬ s.heap.Ready none)
       asked := s.asked || Choice.Requests choice
       disturbed := s.disturbed || (s.called && !s.triggered && Choice.Resolves inputs choice) },
      step.2)

def clientExec (choice : Choice) (s : State) : Closure → Option WhenAnyStep
  | .user => user inputs s choice
  | .whenAny => some (whenAny inputs s)
  | .register i => some (register i s)
  | .index i => index i s
  | .getFuture => some ({ s with returned := true }, [])
  | .callback i => some (callback autoCancel i s)
  | .cancelOthers index i => some (cancelOthers index i s)
  | .setValue index => some (setValue index s)
  | .canceler => some (requestCancel inputs s)

/-- One step of a thread.  A state that is resolved twice ends the program. -/
def exec : Machine State WhenAnyCall Choice
  | _, choice, s, .client k => clientExec inputs autoCancel choice s k
  | _, _, s, .finish p r =>
    if s.heap.Ready p then none
    else some ({ s with heap := (s.heap.exec (.finish p r)).1 }, (s.heap.exec (.finish p r)).2)
  | _, _, s, call => some ({ s with heap := (s.heap.exec call).1 }, (s.heap.exec call).2)

end

/-- One thread calls `when_any` at some time, among any number of others. -/
def start (token : ℕ → ℕ) (threads : ℕ) : Config State WhenAnyCall where
  state := { heap := given token }
  threads := [.client .user, .client .whenAny, .client .user] ::
    List.replicate threads [.client .user]

end Tconcurrent.WhenAny
