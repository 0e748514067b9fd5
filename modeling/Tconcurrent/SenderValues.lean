import Tconcurrent.Completion
import Tconcurrent.SenderCompositionSignals

/-! Compositions of senders, and the values that they pass on.

This is the machine of `SenderComposition` with the functions of the user and what they make
of a value.  The default value is that of a signal without values.  What a composition
sends is first said without any machine, for a run in which nobody requests cancelation. -/
namespace Tconcurrent.SenderValues
open Interleaving Completion

variable {V E : Type}

mutual

inductive Sender (V E : Type) where
  | async
  | asyncWait
  /-- A sender of the user, which signals once, in one of these ways. -/
  | user (signals : Completion V E → Bool)
  | then (sender : Sender V E) (function : V → Except E V)
  | asyncThen (sender : Sender V E) (function : V → Answer V E)
  | connect (sender1 sender2 : Sender V E)
  | wrap (sender : Sender V E)

/-- What the function of an `async_then` does: it throws, or sees to it that its receiver
is signalled. -/
inductive Answer (V E : Type) where
  | throw (e : E)
  | submit (sender : Sender V E)

end

/-- The receivers of `SenderComposition`, with their functions. -/
inductive Stage (V E : Type) where
  | then (function : V → Except E V)
  | asyncThen (function : V → Answer V E)
  | connect (sender2 : Sender V E)
  | wrap

abbrev Receiver (V E : Type) := List (Stage V E)

inductive Kind (V E : Type) where
  | async
  | asyncWait
  | user (signals : Completion V E → Bool)

structure Leaf (V E : Type) where
  kind : Kind V E := .async
  receiver : Receiver V E := []
  fired : Bool := false
  armed : Bool := false
  installed : Bool := false

inductive SenderCall (V E : Type) where
  | user
  | submit (sender : Sender V E) (receiver : Receiver V E)
  | setCanceler (i : ℕ)
  | arm (i : ℕ)
  | cancelLeaf (i : ℕ)
  | signal (completion : Completion V E) (receiver : Receiver V E)
  | check (requested : Bool) (v : V) (stage : Stage V E) (receiver : Receiver V E)
  | enter (requested : Bool) (v : V) (stage : Stage V E) (receiver : Receiver V E)
  /-- The functions of a `then` and of an `async_then`, and what they come to. -/
  | function (result : Except E V) (receiver : Receiver V E)
  | asyncFunction (answer : Answer V E) (receiver : Receiver V E)

inductive Choice (V E : Type) where
  | return
  | submit
  | requestCancel
  | fire (i : ℕ) (completion : Completion V E)
  | install
  | bare
  | ignore

structure State (V E : Type) where
  sender : Sender V E
  submitted : Bool := false
  canceled : Bool := false
  canceler : Option ℕ := none
  leaves : ℕ → Leaf V E := fun _ => {}
  next : ℕ := 0
  signals : List (Completion V E) := []
  entered : List Bool := []
  assertFailed : Bool := false

abbrev SenderStep (V E : Type) := State V E × List (SenderCall V E)

namespace State

variable (s : State V E)

def setLeaf (i : ℕ) (leaf : Leaf V E) : State V E :=
  { s with leaves := Function.update s.leaves i leaf }

def newLeaf (leaf : Leaf V E) : State V E :=
  { s with leaves := Function.update s.leaves s.next leaf, next := s.next + 1 }

def reset : State V E := { s with canceler := none }

end State

def Kind.isUser : Kind V E → Bool
  | .user _ => true
  | _ => false

/-- How a leaf signals when its task or timer runs. -/
def Kind.signal [Inhabited V] : Kind V E → Completion V E → Option (Completion V E)
  | .user signals, completion => if signals completion then some completion else none
  | _, _ => some (.value default)

def submit (sender : Sender V E) (r : Receiver V E) (choice : Choice V E) (s : State V E) :
    Option (SenderStep V E) :=
  match sender with
  | .async => some (s.newLeaf { receiver := r }, [.setCanceler s.next])
  | .asyncWait =>
    some (s.newLeaf { kind := .asyncWait, receiver := r, armed := true }, [.setCanceler s.next])
  | .user signals =>
    match choice with
    | .install =>
      some (s.newLeaf { kind := .user signals, receiver := r }, [.setCanceler s.next])
    | .bare =>
      some (s.newLeaf { kind := .user signals, receiver := r, installed := true }, [.arm s.next])
    | _ => none
  | .then sender f => some (s, [.submit sender (.then f :: r)])
  | .asyncThen sender f => some (s, [.submit sender (.asyncThen f :: r)])
  | .connect sender1 sender2 => some (s, [.submit sender1 (.connect sender2 :: r)])
  | .wrap sender => some (s, [.submit sender (.wrap :: r)])

def setCanceler (i : ℕ) (s : State V E) : SenderStep V E :=
  let leaf := s.leaves i
  ({ s.setLeaf i { leaf with installed := true } with
      canceler := some i
      assertFailed := s.assertFailed || s.canceler.isSome },
    (if s.canceled then [.cancelLeaf i] else []) ++ if leaf.armed then [] else [.arm i])

def fireLeaf (i : ℕ) (completion : Completion V E) (s : State V E) : SenderStep V E :=
  let leaf := s.leaves i
  if leaf.fired then (s, [])
  else (s.setLeaf i { leaf with fired := true }, [.signal completion leaf.receiver])

def cancelLeaf (i : ℕ) (s : State V E) : Choice V E → SenderStep V E
  | .ignore => if (s.leaves i).kind.isUser then (s, []) else fireLeaf i .done s
  | _ => fireLeaf i .done s

def requestCancel (s : State V E) : SenderStep V E :=
  if s.canceled then (s, [])
  else
    ({ s with canceled := true },
      match s.canceler with
      | none => []
      | some i => [.cancelLeaf i])

def signal (completion : Completion V E) (r : Receiver V E) (s : State V E) : SenderStep V E :=
  match r with
  | [] => ({ s.reset with signals := s.signals ++ [completion] }, [.user])
  | .wrap :: r => (s, [.signal completion r])
  | stage :: r =>
    match completion with
    | .value v => (s, [.check s.canceled v stage r])
    | _ => (s.reset, [.signal completion r])

def check (requested : Bool) (v : V) (stage : Stage V E) (r : Receiver V E) (s : State V E) :
    SenderStep V E :=
  if s.canceled then (s, [.signal .done (stage :: r)]) else (s, [.enter requested v stage r])

def enter (requested : Bool) (v : V) (stage : Stage V E) (r : Receiver V E) (s : State V E) :
    SenderStep V E :=
  ({ s.reset with entered := s.entered ++ [requested] },
    match stage with
    | .then f => [.function (f v) r]
    | .asyncThen f => [.asyncFunction (f v) r]
    | .connect sender2 => [.submit sender2 r]
    | .wrap => [.signal (.value v) r])

/-- The function of a `then` requests cancelation, or is over. -/
def function (result : Except E V) (r : Receiver V E) (s : State V E) :
    Choice V E → Option (SenderStep V E)
  | .return => some (s, [.signal (.ofExcept result) r])
  | .requestCancel =>
    let (s, calls) := requestCancel s
    some (s, calls ++ [.function result r])
  | _ => none

def asyncFunction (answer : Answer V E) (r : Receiver V E) (s : State V E) :
    Choice V E → Option (SenderStep V E)
  | .return =>
    match answer with
    | .throw e => some (s, [.signal (.error e) r])
    | .submit sender => some (s, [.submit sender r])
  | .requestCancel =>
    let (s, calls) := requestCancel s
    some (s, calls ++ [.asyncFunction answer r])
  | _ => none

def user [Inhabited V] (s : State V E) : Choice V E → Option (SenderStep V E)
  | .return => some (s, [])
  | .submit =>
    if s.submitted then none
    else some ({ s with submitted := true }, [.submit s.sender [], .user])
  | .requestCancel =>
    let (s, calls) := requestCancel s
    some (s, calls ++ [.user])
  | .fire i completion =>
    if i < s.next ∧ (s.leaves i).armed then
      ((s.leaves i).kind.signal completion).map fun completion =>
        let (s, calls) := fireLeaf i completion s
        (s, calls ++ [.user])
    else none
  | _ => none

/-- One step of a thread. -/
def exec [Inhabited V] : Machine (State V E) (SenderCall V E) (Choice V E)
  | _, choice, s, .user => user s choice
  | _, choice, s, .submit sender r => submit sender r choice s
  | _, _, s, .setCanceler i => some (setCanceler i s)
  | _, _, s, .arm i => some (s.setLeaf i { s.leaves i with armed := true }, [])
  | _, choice, s, .cancelLeaf i => some (cancelLeaf i s choice)
  | _, _, s, .signal completion r => some (signal completion r s)
  | _, _, s, .check requested v stage r => some (check requested v stage r s)
  | _, _, s, .enter requested v stage r => some (enter requested v stage r s)
  | _, choice, s, .function result r => function result r s choice
  | _, choice, s, .asyncFunction answer r => asyncFunction answer r s choice

def start (sender : Sender V E) (threads : ℕ) : Config (State V E) (SenderCall V E) :=
  ⟨{ sender }, List.replicate threads [.user]⟩

/-! ## What a composition sends -/

section Sends

variable [Inhabited V]

mutual

def Sender.sends : Sender V E → Set (Completion V E)
  | .async => {.value default}
  | .asyncWait => {.value default}
  | .user signals => {completion | signals completion = true}
  | .then sender f => sequence sender.sends fun v => {.ofExcept (f v)}
  | .asyncThen sender f => sequence sender.sends fun v => (f v).sends
  | .connect sender1 sender2 => sequence sender1.sends fun _ => sender2.sends
  | .wrap sender => sender.sends

def Answer.sends : Answer V E → Set (Completion V E)
  | .throw e => {.error e}
  | .submit sender => sender.sends

end

/-- What a stage makes of a value. -/
def Stage.sends : Stage V E → V → Set (Completion V E)
  | .then f, v => {.ofExcept (f v)}
  | .asyncThen f, v => (f v).sends
  | .connect sender2, _ => sender2.sends
  | .wrap, v => {.value v}

/-- What arrives behind the stages of a receiver. -/
def arrives : Receiver V E → V → Set (Completion V E)
  | [], v => {.value v}
  | stage :: r, v => sequence (stage.sends v) (arrives r)

def Kind.sends : Kind V E → Set (Completion V E)
  | .user signals => {completion | signals completion = true}
  | _ => {.value default}

def Leaf.sends (leaf : Leaf V E) : Set (Completion V E) :=
  sequence leaf.kind.sends (arrives leaf.receiver)

/-- What a call may still lead to. -/
def SenderCall.sends : SenderCall V E → Set (Completion V E)
  | .submit sender r => sequence sender.sends (arrives r)
  | .signal completion r => completion.andThen (arrives r)
  | .check _ v stage r | .enter _ v stage r => sequence (stage.sends v) (arrives r)
  | .function result r => (Completion.ofExcept result).andThen (arrives r)
  | .asyncFunction answer r => sequence answer.sends (arrives r)
  | .cancelLeaf _ => {.done}
  | _ => ∅

end Sends

/-! ## Without the values -/

def signalOf : Completion V E → SenderComposition.Signal
  | .value _ => .value
  | .error _ => .error
  | .done => .done

def Sender.erase : Sender V E → SenderComposition.Sender
  | .async => .async
  | .asyncWait => .asyncWait
  | .user _ => .user
  | .then sender _ => .then sender.erase
  | .asyncThen sender _ => .asyncThen sender.erase
  | .connect sender1 sender2 => .connect sender1.erase sender2.erase
  | .wrap sender => .wrap sender.erase

def Stage.erase : Stage V E → SenderComposition.Stage
  | .then _ => .then
  | .asyncThen _ => .asyncThen
  | .connect sender2 => .connect sender2.erase
  | .wrap => .wrap

def Kind.erase : Kind V E → SenderComposition.Kind
  | .async => .async
  | .asyncWait => .asyncWait
  | .user _ => .user

def Leaf.erase (leaf : Leaf V E) : SenderComposition.Leaf where
  kind := leaf.kind.erase
  receiver := leaf.receiver.map (·.erase)
  fired := leaf.fired
  armed := leaf.armed
  installed := leaf.installed

def SenderCall.erase : SenderCall V E → SenderComposition.SenderCall
  | .user => .user
  | .submit sender r => .submit sender.erase (r.map (·.erase))
  | .setCanceler i => .setCanceler i
  | .arm i => .arm i
  | .cancelLeaf i => .cancelLeaf i
  | .signal completion r => .signal (signalOf completion) (r.map (·.erase))
  | .check requested _ stage r => .check requested stage.erase (r.map (·.erase))
  | .enter requested _ stage r => .enter requested stage.erase (r.map (·.erase))
  | .function _ r => .function (r.map (·.erase))
  | .asyncFunction _ r => .asyncFunction (r.map (·.erase))

def State.erase (s : State V E) : SenderComposition.State where
  sender := s.sender.erase
  submitted := s.submitted
  canceled := s.canceled
  canceler := s.canceler
  leaves i := (s.leaves i).erase
  next := s.next
  signals := s.signals.map signalOf
  entered := s.entered
  assertFailed := s.assertFailed

end Tconcurrent.SenderValues
