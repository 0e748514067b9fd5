import Tconcurrent.Future
import Tconcurrent.Interleaving

/-! A tree of continuations, each joined by `unwrap`.

A branch is named by its path: `i :: p` is the `i`-th continuation of the future
at `p`, and the empty path is the root.  `then`, `and_then` and `unwrap` hand
their future's token on, so the futures of the tree share one token, but for those
behind a future that was resolved when it was asked: that has no token any more, and
its continuations get fresh ones.  The futures that the continuations return have
tokens of their own unless they were made to share it too. -/
namespace Tconcurrent.UnwrapTree
open Interleaving

abbrev Branch := List ℕ

inductive TreeState where
  | root
  /-- The packaged task of `then` or `and_then`. -/
  | outer (b : Branch)
  /-- What `.unwrap()` returns. -/
  | unwrapped (b : Branch)
  /-- The promise behind the future that the continuation returns. -/
  | inner (b : Branch)
  deriving DecidableEq

inductive TreeToken where
  | shared
  | inner (b : Branch)
  deriving DecidableEq

inductive TreeCall where
  /-- Code outside of the library. -/
  | user
  /-- The executor is given a continuation. -/
  | post (b : Branch)
  /-- `packaged_task::operator()`. -/
  | packagedTask (b : Branch)
  /-- The end of the user's function. -/
  | returnFuture (b : Branch)
  deriving DecidableEq

abbrev TreeResult := Result TreeState TreeToken
abbrev TreeHeap := Heap TreeState TreeToken TreeCall
abbrev TreeAction := Call TreeState TreeToken TreeCall

inductive Choice where
  | return
  /-- `then` or `and_then`, then `unwrap`, on the future at a path. -/
  | continue (p : Branch) (andThen : Bool)
  | requestCancel (p : TreeState)
  /-- The producer of the root, or of an inner future, sets it. -/
  | resolveRoot (r : TreeResult)
  | resolve (b : Branch) (r : TreeResult)
  /-- The executor runs a continuation at once, or keeps it for later. -/
  | later
  | run (b : Branch)
  /-- The user's function throws, or returns a future with a token of its own or
  with the shared one, ready or not. -/
  | throws (e : Exc)
  | returns (own : Bool) (r : Option TreeResult)
  deriving DecidableEq

structure State where
  heap : TreeHeap
  /-- How many continuations the future at a path has. -/
  continuations : Branch → ℕ := fun _ => 0
  andThen : Branch → Bool := fun _ => false
  posted : List Branch := []
  /-- The token of the future that the continuation has returned. -/
  innerToken : Branch → Option TreeToken := fun _ => none
  /-- The first closure of `unwrap` has taken the inner future. -/
  obtained : Branch → Bool := fun _ => false
  /-- The producers that have set their promise. -/
  rootProduced : Bool := false
  produced : Branch → Bool := fun _ => false

abbrev TreeStep := State × List TreeAction

/-- The future at a path. -/
def futureAt : Branch → TreeState
  | [] => .root
  | i :: p => .unwrapped (i :: p)

/-- Whether there is a future at a path. -/
def Present (s : State) : Branch → Prop
  | [] => True
  | i :: p => i < s.continuations p

instance (s : State) (b : Branch) : Decidable (Present s b) := by
  cases b with
  | nil => exact inferInstanceAs (Decidable True)
  | cons i p => exact inferInstanceAs (Decidable (i < s.continuations p))

/-- `then_impl` and `unwrap`: both states get the token of the future. -/
def thenUnwrap (p : Branch) (andThen : Bool) (s : State) : TreeStep :=
  let b := s.continuations p :: p
  ({ s with
      continuations := Function.update s.continuations p (s.continuations p + 1)
      andThen := Function.update s.andThen b andThen
      heap := (s.heap.setState (.outer b) { cancelationToken := some .shared }).setState
        (.unwrapped b) { cancelationToken := some .shared } },
    [.thenRun (futureAt p) (.client (.post b)),
      .thenRun (.outer b) (.unwrapOuter (.outer b) (.unwrapped b))])

/-- `packaged_task::operator()`; that of `and_then` is `do_and_then_callback`. -/
def packagedTask (b : Branch) (s : State) : TreeStep :=
  if s.andThen b then
    match (s.heap.states (futureAt b.tail)).r with
    | some (.value _) =>
      if (s.heap.tokens .shared).isCancelRequested then
        (s, [.finish (.outer b) (.exception .operationCanceled)])
      else (s, [.client .user, .client (.returnFuture b)])
    | some (.exception e) => (s, [.finish (.outer b) (.exception e)])
    | none => (s, [])
  else (s, [.client .user, .client (.returnFuture b)])

/-- The user's function returns a future. -/
def returnFuture (b : Branch) (own : Bool) (r : Option TreeResult) (s : State) : TreeStep :=
  let token := if own then .inner b else .shared
  ({ s with
      innerToken := Function.update s.innerToken b (some token)
      produced := Function.update s.produced b r.isSome
      heap := s.heap.setState (.inner b)
        { r, cancelationToken := if r.isSome then none else some token } },
    [.finish (.outer b) (.value (.future ⟨.inner b, some token⟩))])

def user (s : State) : Choice → Option TreeStep
  | .return => some (s, [])
  | .continue p andThen =>
    if Present s p then
      let (s, calls) := thenUnwrap p andThen s
      some (s, calls ++ [.client .user])
    else none
  | .requestCancel p => some (s, [.requestCancel p, .client .user])
  | .resolveRoot r =>
    if s.rootProduced then none
    else some ({ s with rootProduced := true }, [.finish .root r, .client .user])
  | .resolve b r =>
    if s.innerToken b ≠ none ∧ s.produced b = false then
      some ({ s with produced := Function.update s.produced b true },
        [.finish (.inner b) r, .client .user])
    else none
  | .run b =>
    if b ∈ s.posted then
      some ({ s with posted := s.posted.erase b },
        [.client (.packagedTask b), .client .user])
    else none
  | _ => none

def clientExec (choice : Choice) (s : State) : TreeCall → Option TreeStep
  | .user => user s choice
  | .post b =>
    match choice with
    | .later => some ({ s with posted := b :: s.posted }, [])
    | _ => some (s, [.client (.packagedTask b)])
  | .packagedTask b => some (packagedTask b s)
  | .returnFuture b =>
    match choice with
    | .throws e => some (s, [.finish (.outer b) (.exception e)])
    | .returns own r => some (returnFuture b own r s)
    | _ => none

/-- The branches whose inner future was taken after a call of the library. -/
def obtain (s : State) : TreeAction → Branch → Bool
  | .unwrapOuter (.outer b) _ =>
    Function.update s.obtained b (s.obtained b || s.heap.hasValue (.outer b))
  | _ => s.obtained

instance (s : State) (b : Branch) : Decidable (b ∈ s.posted) := inferInstance

/-- Where the library calls continuations that the user has registered. -/
def userCode : TreeAction → List TreeAction
  | .finish _ _ => [.client .user]
  | _ => []

/-- One atomic step of a thread. -/
def exec : Machine State TreeAction Choice
  | _, choice, s, .client k => clientExec choice s k
  | _, _, s, call =>
    let (heap, calls) := s.heap.exec call
    some ({ s with heap, obtained := obtain s call }, userCode call ++ calls ++ userCode call)

/-- A pending root and any number of threads. -/
def start (threads : ℕ) : Config State TreeAction where
  state := { heap := ({} : TreeHeap).setState .root { cancelationToken := some .shared } }
  threads := List.replicate threads [.client .user]

end Tconcurrent.UnwrapTree
