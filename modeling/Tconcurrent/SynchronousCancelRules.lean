import Tconcurrent.SynchronousCancelWorkEnds

/-! Rules for what an expression of futures results in, as long as nothing is canceled.

There is a rule for each way to make a future.  A rule also bounds how often the executor runs
something that the future waits for. -/
namespace Tconcurrent.SynchronousCancel
open Recursion

/-- What a future results in.  One that results in a future is known by its expression. -/
inductive Meaning where
  | datum (d : Datum)
  | future (e : Expr)

def Meaning.view : Meaning → Datum
  | .datum d => d
  | .future _ => .future

/-- A function of the user that was given `m`. -/
def Ret.gives (m : Meaning) : Ret → Meaning
  | .value v => .datum (.value v)
  | .throws e => .datum (.exception e)
  | .future e => .future e
  | .arg => m

/-- A coroutine and `async` call a function without an argument. -/
abbrev Ret.givesAlone (r : Ret) : Meaning := r.gives (.datum (.value 0))

abbrev Post := Meaning → Prop

/-- A function of the user may see this. -/
def Post.Sees (M : Post) (d : Datum) : Prop := ∃ m, M m ∧ m.view = d

/-- All futures are ready. -/
def AllOf (Ms : List Post) (results : List Datum) : Prop := List.Forall₂ Post.Sees Ms results

/-- The `index`th future is ready, and perhaps others. -/
structure AnyOf (Ms : List Post) (index : ℕ) (results : List (Option Datum)) : Prop where
  sees : List.Forall₂ (fun M result => ∀ d, result = some d → Post.Sees M d) Ms results
  ready : ∃ d, results[index]? = some (some d)

mutual

/-- `Yields n e M`: the future of `e` gets ready with something of `M` when the executor has run
what it waits for `n` times at most. -/
inductive Yields : ℕ → Expr → Post → Prop
  | ready {n d} {M : Post} (holds : M (.datum d)) : Yields n (.ready d) M
  | async {n f} {M : Post} (holds : M f.givesAlone) : Yields (n + 1) (.async f) M
  | asyncWait {n} {M : Post} (holds : M (.datum (.value 0))) : Yields (n + 1) .asyncWait M
  | asyncResumable {n body kept stackful M} (runs : RunYields n body [] M) :
      Yields (n + 1) (.asyncResumable body kept stackful) M
  | then {n k total e f M₀ M} (first : Yields n e M₀)
      (last : ∀ m, M₀ m → StageYields k (.then f) m M) (bound : n + k ≤ total) :
      Yields total (.then e f) M
  | andThen {n k total e f M₀ M} (first : Yields n e M₀)
      (last : ∀ m, M₀ m → StageYields k (.andThen f) m M) (bound : n + k ≤ total) :
      Yields total (.andThen e f) M
  | unwrap {n k total e M₀ M} (first : Yields n e M₀)
      (last : ∀ m, M₀ m → StageYields k .unwrap m M) (bound : n + k ≤ total) :
      Yields total (.unwrap e) M
  | whenAll {n es Ms M} (all : AllYield n es Ms)
      (holds : ∀ results, AllOf Ms results → M (.datum (.all results))) :
      Yields n (.whenAll es) M
  | whenAnyOfNone {n autoCancel} {M : Post} (holds : M (.datum (.any none []))) :
      Yields n (.whenAny [] autoCancel) M
  | whenAny {n es Ms M} (some : es ≠ []) (all : AllYield n es Ms)
      (holds : ∀ index results, AnyOf Ms index results →
        M (.datum (.any (Option.some index) results))) :
      Yields n (.whenAny es false) M

inductive AllYield : ℕ → List Expr → List Post → Prop
  | nil {n} : AllYield n [] []
  | cons {n k total e es M Ms} (first : Yields n e M) (others : AllYield k es Ms)
      (bound : n + k ≤ total) : AllYield total (e :: es) (M :: Ms)

/-- The same for a continuation that is given `m`. -/
inductive StageYields : ℕ → Stage → Meaning → Post → Prop
  | then {n f m} {M : Post} (holds : M ((f m.view).gives m)) : StageYields n (.then f) m M
  | andThenError {n f m e} {M : Post} (error : m.view = .exception e)
      (holds : M (.datum (.exception e))) : StageYields n (.andThen f) m M
  | andThen {n f m} {M : Post} (value : ∀ e, m.view ≠ .exception e)
      (holds : M ((f m.view).gives m)) : StageYields n (.andThen f) m M
  | unwrapDatum {n d} {M : Post} (holds : M (.datum d)) : StageYields n .unwrap (.datum d) M
  | unwrap {n e M} (inner : Yields n e M) : StageYields n .unwrap (.future e) M

/-- The same for a coroutine that goes on with these results. -/
inductive RunYields : ℕ → Body → List Datum → Post → Prop
  | return {n r} {body : Body} {results} {M : Post} (next : body results = .return r)
      (holds : M r.givesAlone) : RunYields n body results M
  | await {n k total e} {body : Body} {results M₀ M} (next : body results = .await e)
      (first : Yields n e M₀) (goesOn : ∀ m, M₀ m → RunYields k body (results ++ [m.view]) M)
      (bound : n + 1 + k ≤ total) : RunYields total body results M

end

inductive StagesYield : ℕ → List Stage → Meaning → Post → Prop
  | nil {n m} {M : Post} (holds : M m) : StagesYield n [] m M
  | cons {n k total stage stages m M₀ M} (first : StageYields n stage m M₀)
      (others : ∀ m, M₀ m → StagesYield k stages m M) (bound : n + k ≤ total) :
      StagesYield total (stage :: stages) m M

/-! ## States -/

mutual

/-- `Comes n fut M`: what `fut` waits for comes to `M` when the executor has run `n` things. -/
inductive Comes : ℕ → Future → Post → Prop
  | mk {n k total fut M₀ M} (unrequested : fut.token.isCancelRequested = false)
      (last : fut.isReady = true → fut.stages = [])
      (first : WaitingComes n fut.source fut.waiting M₀)
      (stages : ∀ m, M₀ m → StagesYield k fut.stages m M) (bound : n + k ≤ total) :
      Comes total fut M

inductive WaitingComes : ℕ → Source → Waiting → Post → Prop
  | source {n source M} (comes : SourceComes n source M) : WaitingComes n source .source M
  | inner {n source inner M} (pending : inner.isReady = false) (comes : Comes n inner M) :
      WaitingComes n source (.inner inner) M
  | ready {n source v m} {M : Post} (value : ValueComes v m) (holds : M m) :
      WaitingComes n source (.ready v) M

inductive SourceComes : ℕ → Source → Post → Prop
  | async {n f} {M : Post} (holds : M f.givesAlone) : SourceComes (n + 1) (.async f) M
  | asyncWait {n} {M : Post} (holds : M (.datum (.value 0))) : SourceComes (n + 1) .asyncWait M
  | unstarted {n body M} (runs : RunYields n body [] M) : SourceComes (n + 1) (.unstarted body) M
  | awaiting {n k total awaited body results M₀ M} (comes : Comes n awaited M₀)
      (goesOn : ∀ m, M₀ m → RunYields k body (results ++ [m.view]) M) (bound : n + 1 + k ≤ total) :
      SourceComes total (.awaiting awaited body results) M
  | whenAll {n futures count Ms M} (all : FuturesCome n futures Ms)
      (counted : count = futures.countP (·.isReady)) (incomplete : count < futures.length)
      (holds : ∀ results, AllOf Ms results → M (.datum (.all results))) :
      SourceComes n (.whenAll futures count) M
  | whenAny {n futures Ms M} (all : FuturesCome n futures Ms)
      (none : ∀ future ∈ futures, future.isReady = false) (some : futures ≠ [])
      (holds : ∀ index results, AnyOf Ms index results →
        M (.datum (.any (Option.some index) results))) :
      SourceComes n (.whenAny futures false false) M

inductive FuturesCome : ℕ → List Future → List Post → Prop
  | nil {n} : FuturesCome n [] []
  | cons {n k total fut futures M Ms} (first : Comes n fut M) (others : FuturesCome k futures Ms)
      (bound : n + k ≤ total) : FuturesCome total (fut :: futures) (M :: Ms)

inductive ValueComes : Value → Meaning → Prop
  | datum {d} : ValueComes (.datum d) (.datum d)
  | future {inner e} (comes : ∀ n M, Yields n e M → Comes n inner M) :
      ValueComes (.future inner) (.future e)

end

/-- Whether the future waits for what is there. -/
def Future.awaits : List Selector → Future → Bool
  | [], fut => match fut.waiting with
    | .source => true
    | _ => false
  | .inner :: path, fut => match fut.waiting with
    | .inner inner => awaits path inner
    | _ => false
  | .value :: _, _ => false
  | .awaited :: path, fut => match fut.waiting, fut.source with
    | .source, .awaiting awaited _ _ => awaits path awaited
    | _, _ => false
  | .future j :: path, fut => match fut.waiting, fut.source.futures[j]? with
    | .source, some future => awaits path future
    | _, _ => false

/-- The executor runs something that the future waits for. -/
def Future.isRun (path : List Selector) (event : Event) (fut : Future) : Bool :=
  event == .fire && fut.awaits path

/-- The states of the future of an expression while nothing is canceled, and how often the
executor has run something that it waited for. -/
inductive Calm (e : Expr) : ℕ → Future → Prop
  | start {fut : Future} (returns : Returns body (start e) fut) : Calm e 0 fut
  | event {n fut after path} {event : Event} (calm : Calm e n fut)
      (uncanceled : ∀ inCatch, event ≠ .requestCancel inCatch)
      (returns : Returns body (fut.event path event) after) :
      Calm e (n + (fut.isRun path event).toNat) after

end Tconcurrent.SynchronousCancel
