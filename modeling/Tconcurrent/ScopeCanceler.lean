import Mathlib.Logic.Function.Basic
import Tconcurrent.CancelationToken
import Tconcurrent.Interleaving
import Tconcurrent.Newest

/-! `scope_canceler`: an object that unsets a callback when it is destroyed.

The object keeps a weak reference to the token, and its destructor pops whatever is on
top of the stack.  Here an object also names the callback it was made for; no operation
looks at the name, it only says which token the reference is to. -/
namespace Tconcurrent.ScopeCanceler
open Interleaving Newest

inductive ScopeCall where
  /-- User code. -/
  | user
  /-- A copy of a callback, taken under the mutex, is called. -/
  | callback (k : ℕ)
  deriving DecidableEq

/-- What user code does next. -/
inductive Choice where
  | return
  | makeToken
  | makeScopeCanceler (t : ℕ)
  /-- The default constructor. -/
  | empty
  | moveConstruct (h : ℕ)
  | moveAssign (target source : ℕ)
  | destroy (h : ℕ)
  | requestCancel (t : ℕ)
  /-- The last reference to a token is dropped. -/
  | dropToken (t : ℕ)
  deriving DecidableEq

structure State where
  tokens : ℕ → CancelationToken ℕ := fun _ => {}
  nextToken : ℕ := 0
  expired : ℕ → Bool := fun _ => false
  /-- The token each callback was pushed on. -/
  token : ℕ → ℕ := fun _ => 0
  next : ℕ := 0
  /-- The objects, and the callback each of them was made for; a destroyed object is
  like an empty one. -/
  objects : ℕ → Option ℕ := fun _ => none
  nextObject : ℕ := 0
  /-- The copies of each callback that were taken and are not called yet. -/
  taken : ℕ → ℕ := fun _ => 0
  /-- A callback was called that no object was left for. -/
  stale : Bool := false

abbrev ScopeStep := State × List ScopeCall

/-- Whether an object is left for a callback. -/
def alive (s : State) (k : ℕ) : Bool := decide (∃ h < s.nextObject, s.objects h = some k)

/-- The callbacks on a token whose objects are left. -/
def aliveOn (s : State) (t k : ℕ) : Bool := decide (s.token k = t) && alive s k

/-- An operation on a token, which may take a copy of a callback. -/
def onToken (s : State) (t : ℕ)
    (op : CancelationToken ℕ → CancelationToken ℕ × List ℕ) : ScopeStep :=
  let (token, callbacks) := op (s.tokens t)
  ({ s with
      tokens := Function.update s.tokens t token
      taken := fun k => s.taken k + callbacks.count k },
    callbacks.map .callback)

/-- `make_scope_canceler`. -/
def makeScopeCanceler (t : ℕ) (s : State) : ScopeStep :=
  onToken
    { s with
      token := Function.update s.token s.next t
      next := s.next + 1
      objects := Function.update s.objects s.nextObject (some s.next)
      nextObject := s.nextObject + 1 }
    t (·.pushCancelationCallback s.next)

def moveConstruct (h : ℕ) (s : State) : State :=
  { s with
    objects := Function.update (Function.update s.objects h none) s.nextObject (s.objects h)
    nextObject := s.nextObject + 1 }

/-- The defaulted assignment: the reference that is overwritten is dropped. -/
def moveAssign (target source : ℕ) (s : State) : State :=
  if target = source then s
  else
    { s with
      objects := Function.update (Function.update s.objects source none) target
        (s.objects source) }

/-- `~scope_canceler`. -/
def destroy (h : ℕ) (s : State) : ScopeStep :=
  let emptied := { s with objects := Function.update s.objects h none }
  match s.objects h with
  | none => (s, [])
  | some k =>
    if s.expired (s.token k) then (emptied, [])
    else onToken emptied (s.token k) (·.popCancelationCallback)

/-- A copy of a callback is called: it is user code. -/
def callback (k : ℕ) (s : State) : ScopeStep :=
  ({ s with
      taken := Function.update s.taken k (s.taken k - 1)
      stale := s.stale || !alive s k },
    [.user])

/-- What user code can do with the tokens and the objects that exist. -/
def user (s : State) : Choice → Option ScopeStep
  | .return => some (s, [])
  | .makeToken => some ({ s with nextToken := s.nextToken + 1 }, [.user])
  | .makeScopeCanceler t =>
    if t < s.nextToken ∧ s.expired t = false then
      let (s, calls) := makeScopeCanceler t s
      some (s, calls ++ [.user])
    else none
  | .empty => some ({ s with nextObject := s.nextObject + 1 }, [.user])
  | .moveConstruct h => if h < s.nextObject then some (moveConstruct h s, [.user]) else none
  | .moveAssign target source =>
    if target < s.nextObject ∧ source < s.nextObject then
      some (moveAssign target source s, [.user])
    else none
  | .destroy h =>
    if h < s.nextObject then
      let (s, calls) := destroy h s
      some (s, calls ++ [.user])
    else none
  | .requestCancel t =>
    if t < s.nextToken ∧ s.expired t = false then
      let (s, calls) := onToken s t (·.requestCancel)
      some (s, calls ++ [.user])
    else none
  | .dropToken t =>
    if t < s.nextToken then some ({ s with expired := Function.update s.expired t true }, [.user])
    else none

/-- One step of a thread. -/
def exec : Machine State ScopeCall Choice
  | _, choice, s, .user => user s choice
  | _, _, s, .callback k => some (callback k s)

/-- Any number of threads, and nothing made yet. -/
def start (threads : ℕ) : Config State ScopeCall :=
  ⟨{}, List.replicate threads [.user]⟩

end Tconcurrent.ScopeCanceler
