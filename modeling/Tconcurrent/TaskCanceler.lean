import Mathlib.Logic.Function.Basic
import Tconcurrent.Interleaving

/-! `lazy::task_canceler`: a vector of the tokens of wrapped senders.

A wrapped sender is a number, in the order in which they were submitted.  `_mutex` is
recursive: what a canceler calls back while `terminate` holds it goes on at once. -/
namespace Tconcurrent.TaskCanceler
open Interleaving

/-- A wrapped sender that was not rejected. -/
inductive Status where
  | unsubmitted
  | outstanding
  | completed
  /-- Its `submit` has thrown. -/
  | failed
  deriving DecidableEq

/-- The range-based `for` of a call of `terminate`. -/
structure Loop where
  /-- The vector when the loop began, whose length fixes where it ends. -/
  registered : List ℕ
  position : ℕ := 0
  /-- The memory that its iterators point to. -/
  buffer : ℕ
  /-- The tokens that it has called `request_cancel` of. -/
  asked : List ℕ := []
  finished : Bool := false
  deriving DecidableEq

inductive CancelerCall where
  /-- Code of the user: at the bottom of a thread's stack, in a sender's `submit`, in a
  canceler or in the receiver behind a wrapped sender.  It catches what it calls. -/
  | user
  /-- The end of the `submit` of a wrapped sender. -/
  | submitted (k : ℕ)
  /-- One round of the loop of `terminate`. -/
  | iterate (i : ℕ)
  /-- `lazy::cancelation_token::request_cancel`. -/
  | requestCancel (token : ℕ)
  deriving DecidableEq

inductive Choice where
  | return
  | throw
  /-- A wrapped sender is submitted with a token; the vector may have to grow. -/
  | submit (token : ℕ) (reallocates : Bool)
  /-- A wrapped sender signals its receiver. -/
  | complete (k : ℕ)
  /-- `terminate`, and the destructor. -/
  | terminate (terminating : Bool)
  deriving DecidableEq

structure State where
  /-- `_cancelation_tokens`, and a number for the memory that holds it. -/
  tokens : List ℕ := []
  buffer : ℕ := 0
  /-- `_terminating`. -/
  terminating : Bool := false
  /-- The thread that holds `_mutex`, and how often. -/
  holder : Option ℕ := none
  depth : ℕ := 0
  /-- `_canceled` of the tokens. -/
  canceled : ℕ → Bool := fun _ => false
  token : ℕ → ℕ := fun _ => 0
  status : ℕ → Status := fun _ => .unsubmitted
  count : ℕ := 0
  loops : List Loop := []
  /-- A loop has read where the vector has no element. -/
  outOfRange : Bool := false

abbrev CancelerStep := State × List CancelerCall

namespace State

def setLoop (s : State) (i : ℕ) (loop : Loop) : State :=
  { s with loops := s.loops.set i loop }

def setStatus (s : State) (k : ℕ) (status : Status) : State :=
  { s with status := Function.update s.status k status }

/-- The calling thread can lock `_mutex`. -/
def Lockable (s : State) (thread : ℕ) : Prop := s.holder = none ∨ s.holder = some thread

instance (s : State) (thread : ℕ) : Decidable (s.Lockable thread) :=
  inferInstanceAs (Decidable (_ ∨ _))

def unlock (s : State) : State :=
  { s with depth := s.depth - 1, holder := if s.depth = 1 then none else s.holder }

end State

/-- `task_canceler_sender::submit`: a terminating `task_canceler` throws. -/
def submit (token : ℕ) (reallocates : Bool) (s : State) : CancelerStep :=
  if s.terminating then (s, [])
  else
    ({ s with
        tokens := s.tokens ++ [token]
        buffer := if reallocates then s.buffer + 1 else s.buffer
        token := Function.update s.token s.count token
        status := Function.update s.status s.count .outstanding
        count := s.count + 1 },
      [.user, .submitted s.count])

/-- `complete`, before the next receiver is signalled. -/
def complete (k : ℕ) (s : State) : CancelerStep :=
  ({ s.setStatus k .completed with tokens := s.tokens.filter (· ≠ s.token k) }, [.user])

/-- `terminate` up to its loop. -/
def terminate (thread : ℕ) (terminating : Bool) (s : State) : CancelerStep :=
  ({ s with
      holder := some thread
      depth := s.depth + 1
      terminating := s.terminating || terminating
      loops := s.loops ++ [{ registered := s.tokens, buffer := s.buffer }] },
    [.iterate s.loops.length])

/-- The loop ends where the vector ended when it began.  What a position holds that is
not in the vector is undefined, and the program is not followed any further. -/
def iterate (i : ℕ) (s : State) : Option CancelerStep :=
  match s.loops[i]? with
  | none => none
  | some loop =>
    if loop.position = loop.registered.length then
      some ((s.setLoop i { loop with finished := true }).unlock, [])
    else
      match s.tokens[loop.position]? with
      | some token =>
        if loop.buffer = s.buffer then
          some (s.setLoop i
              { loop with position := loop.position + 1, asked := loop.asked ++ [token] },
            [.requestCancel token, .iterate i])
        else some ({ s with outOfRange := true }, [])
      | none => some ({ s with outOfRange := true }, [])

/-- `lazy::cancelation_token::request_cancel`, which calls the canceler once. -/
def requestCancel (token : ℕ) (s : State) : CancelerStep :=
  if s.canceled token then (s, [])
  else ({ s with canceled := Function.update s.canceled token true }, [.user])

def user (thread : ℕ) (s : State) : Choice → Option CancelerStep
  | .return => some (s, [])
  | .throw => none
  | .submit token reallocates =>
    if s.Lockable thread then
      let (s, calls) := submit token reallocates s
      some (s, calls ++ [.user])
    else none
  | .complete k =>
    if s.status k = .outstanding ∧ s.Lockable thread then
      let (s, calls) := complete k s
      some (s, calls ++ [.user])
    else none
  | .terminate terminating =>
    if s.Lockable thread then
      let (s, calls) := terminate thread terminating s
      some (s, calls ++ [.user])
    else none

/-- A sender may signal its receiver before its `submit` ends. -/
def submitted (k : ℕ) (s : State) : Choice → Option CancelerStep
  | .return => some (s, [])
  | .throw => some (if s.status k = .outstanding then s.setStatus k .failed else s, [])
  | _ => none

/-- One atomic step of a thread. -/
def exec : Machine State CancelerCall Choice
  | thread, choice, s, .user => user thread s choice
  | _, choice, s, .submitted k => submitted k s choice
  | _, _, s, .iterate i => iterate i s
  | _, _, s, .requestCancel token => some (requestCancel token s)

/-- A `task_canceler` and any number of threads. -/
def start (threads : ℕ) : Config State CancelerCall :=
  ⟨{}, List.replicate threads [.user]⟩

end Tconcurrent.TaskCanceler
