import Tconcurrent.SynchronousCancelRulesLive

/-! An expression without `when_any` has one result, whatever the executor runs first, and the
rules find it. -/
namespace Tconcurrent.SynchronousCancel
open Recursion

mutual

/-- There is no `when_any` in it. -/
def Expr.WithoutAny : Expr → Prop
  | .ready _ | .asyncWait => True
  | .async f => f.WithoutAny
  | .asyncResumable body _ _ => ∀ results, (body results).WithoutAny
  | .then e f | .andThen e f => e.WithoutAny ∧ ∀ d, (f d).WithoutAny
  | .unwrap e => e.WithoutAny
  | .whenAll es => exprsWithoutAny es
  | .whenAny _ _ => False

def Ret.WithoutAny : Ret → Prop
  | .future e => e.WithoutAny
  | .value _ | .throws _ | .arg => True

def Rest.WithoutAny : Rest → Prop
  | .await e => e.WithoutAny
  | .return r => r.WithoutAny

def exprsWithoutAny : List Expr → Prop
  | [] => True
  | e :: es => e.WithoutAny ∧ exprsWithoutAny es

end

/-- The rules give it one meaning, and so they do for the future that it results in. -/
inductive Determined : Expr → Prop
  | mk {n e m} (yields : ∀ M : Post, M m → Yields n e M)
      (inside : ∀ inner, m = .future inner → Determined inner) : Determined e

/-- What is in it is determined. -/
def Meaning.Determined (m : Meaning) : Prop :=
  ∀ inner, m = .future inner → SynchronousCancel.Determined inner

def Ret.Determined (r : Ret) : Prop :=
  ∀ inner, r = .future inner → SynchronousCancel.Determined inner

variable {n k : ℕ} {m : Meaning} {e : Expr} {M : Post}

theorem datum_determined {d : Datum} : (Meaning.datum d).Determined := by
  rintro inner ⟨⟩

theorem Ret.Determined.gives {r : Ret} (determined : r.Determined) (inside : m.Determined) :
    (r.gives m).Determined := by
  cases r with
  | value | throws => exact datum_determined
  | arg => exact inside
  | future e =>
    rintro inner ⟨⟩
    exact determined e rfl

theorem stage_determined {stage : Stage} (functions : ∀ d, (stage.function d).Determined)
    (inside : m.Determined) :
    ∃ k m', (∀ M : Post, M m' → StageYields k stage m M) ∧ m'.Determined := by
  cases stage with
  | «then» f =>
    exact ⟨0, _, fun M holds => .then holds, (functions m.view).gives inside⟩
  | andThen f =>
    by_cases error : ∃ exc, m.view = .exception exc
    · obtain ⟨exc, error⟩ := error
      exact ⟨0, .datum (.exception exc), fun M holds => .andThenError error holds,
        datum_determined⟩
    · push Not at error
      exact ⟨0, _, fun M holds => .andThen error holds, (functions m.view).gives inside⟩
  | unwrap =>
    cases m with
    | datum d => exact ⟨0, .datum d, fun M holds => .unwrapDatum holds, datum_determined⟩
    | future inner =>
      obtain ⟨yields, inside'⟩ := inside inner rfl
      exact ⟨_, _, fun M holds => .unwrap (yields M holds), inside'⟩

theorem body_determined {body : Body} {results : List Datum} (ending : Ending body results)
    (awaits : ∀ results e, body results = .await e → Determined e)
    (returns : ∀ results r, body results = .return r → r.Determined) :
    ∃ n m, (∀ M : Post, M m → RunYields n body results M) ∧ m.Determined := by
  induction ending with
  | @mk results _ ih =>
    cases next : body results with
    | await e =>
      cases awaits results e next with
      | @mk n _ m₀ yields _ =>
        obtain ⟨k, m', runs, inside⟩ := ih e next m₀.view
        refine ⟨n + 1 + k, m', fun M holds => ?_, inside⟩
        refine .await next (yields (· = m₀) rfl) ?_ le_rfl
        rintro _ rfl
        exact runs M holds
    | «return» r =>
      exact ⟨0, _, fun M holds => .return next holds,
        (returns results r next).gives datum_determined⟩

/-- Each of them has one meaning. -/
theorem allYield_determined {es : List Expr} (all : ∀ e ∈ es, Determined e) :
    ∃ n, ∃ ms : List Meaning, AllYield n es (ms.map fun m : Meaning => (· = m)) := by
  induction es with
  | nil => exact ⟨0, [], .nil⟩
  | cons e es ih =>
    obtain ⟨first, others⟩ := List.forall_mem_cons.mp all
    obtain ⟨yields, -⟩ := first
    obtain ⟨k, ms, rest⟩ := ih others
    exact ⟨_, _ :: ms, .cons (yields _ rfl) rest le_rfl⟩

theorem allOf_singletons {ms : List Meaning} {results : List Datum}
    (all : AllOf (ms.map fun m : Meaning => (· = m)) results) : results = ms.map Meaning.view := by
  induction ms generalizing results with
  | nil =>
    cases all
    rfl
  | cons m ms ih =>
    cases all with
    | cons seen all =>
      obtain ⟨_, rfl, rfl⟩ := seen
      rw [ih all, List.map_cons]

theorem determined_stage {stage : Stage} {expr : Expr} (first : Determined e)
    (functions : ∀ d, (stage.function d).Determined)
    (rule : ∀ n k M₀ M, Yields n e M₀ → (∀ m, M₀ m → StageYields k stage m M) →
      Yields (n + k) expr M) : Determined expr := by
  obtain ⟨yields, inside⟩ := first
  obtain ⟨k, m', last, inside'⟩ := stage_determined functions inside
  refine .mk (fun M holds => rule _ k _ M (yields _ rfl) ?_) inside'
  rintro _ rfl
  exact last M holds

mutual

theorem Expr.determined : (e : Expr) → e.Terminates → e.WithoutAny → Determined e
  | .ready d, _, _ => .mk (n := 0) (fun _ holds => .ready holds) datum_determined
  | .async f, terminates, plain =>
    .mk (n := 1) (fun _ holds => .async holds)
      ((f.determined terminates plain).gives datum_determined)
  | .asyncWait, _, _ => .mk (n := 1) (fun _ holds => .asyncWait holds) datum_determined
  | .asyncResumable body _ _, terminates, plain => by
    have rests := fun results => (body results).determined (terminates.2 results) (plain results)
    obtain ⟨n, m, runs, inside⟩ := body_determined terminates.1
      (fun results e next => (rests results).1 e next)
      (fun results r next => (rests results).2 r next)
    exact .mk (fun M holds => .asyncResumable (runs M holds)) inside
  | .then e f, terminates, plain =>
    @determined_stage e (.then f) _ (e.determined terminates.1 plain.1)
      (fun d => (f d).determined (terminates.2 d) (plain.2 d))
      fun _ _ _ _ first last => .then first last le_rfl
  | .andThen e f, terminates, plain =>
    @determined_stage e (.andThen f) _ (e.determined terminates.1 plain.1)
      (fun d => (f d).determined (terminates.2 d) (plain.2 d))
      fun _ _ _ _ first last => .andThen first last le_rfl
  | .unwrap e, terminates, plain =>
    @determined_stage e .unwrap _ (e.determined terminates plain)
      (fun _ => by rintro _ ⟨⟩)
      fun _ _ _ _ first last => .unwrap first last le_rfl
  | .whenAll es, terminates, plain => by
    obtain ⟨n, ms, all⟩ := allYield_determined (exprs_determined es terminates plain)
    refine @Determined.mk n _ (.datum (.all (ms.map Meaning.view))) (fun M holds => ?_)
      datum_determined
    refine .whenAll all fun results seen => ?_
    rw [allOf_singletons seen]
    exact holds

theorem Ret.determined : (r : Ret) → r.Terminates → r.WithoutAny → r.Determined
  | .future e, terminates, plain => by
    rintro _ ⟨⟩
    exact e.determined terminates plain
  | .value _, _, _ => by rintro _ ⟨⟩
  | .throws _, _, _ => by rintro _ ⟨⟩
  | .arg, _, _ => by rintro _ ⟨⟩

theorem Rest.determined : (rest : Rest) → rest.Terminates → rest.WithoutAny →
    (∀ e, rest = .await e → Determined e) ∧ ∀ r, rest = .return r → r.Determined
  | .await e, terminates, plain => by
    constructor
    · rintro _ ⟨⟩
      exact e.determined terminates plain
    · rintro _ ⟨⟩
  | .return r, terminates, plain => by
    constructor
    · rintro _ ⟨⟩
    · rintro _ ⟨⟩
      exact r.determined terminates plain

theorem exprs_determined : (es : List Expr) → exprsTerminate es → exprsWithoutAny es →
    ∀ e ∈ es, Determined e
  | [], _, _ => fun _ member => absurd member List.not_mem_nil
  | e :: es, terminates, plain => List.forall_mem_cons.mpr
      ⟨e.determined terminates.1 plain.1, exprs_determined es terminates.2 plain.2⟩

end

/-- **All schedules agree** on the result of an expression without `when_any`, and get to it. -/
theorem schedules_agree (terminates : e.Terminates) (plain : e.WithoutAny) :
    ∃ n d, ∀ k fut, Calm e k fut →
      k ≤ n ∧ (∀ v, fut.result = some v → v.view = d) ∧ (fut.isReady = false → fut.GoesOn) := by
  cases e.determined terminates plain with
  | @mk n _ m yields _ =>
    refine ⟨n, m.view, fun k fut calm => ?_⟩
    obtain ⟨bound, sees, goesOn⟩ := yields_sound (yields (· = m) rfl) calm
    refine ⟨bound, fun v result => ?_, goesOn⟩
    obtain ⟨_, rfl, view⟩ := sees v result
    exact view.symm

/-- A timer that is started after another one and a task. -/
def timerAfterBoth : Expr :=
  .unwrap (.then (.whenAll [.asyncWait, .async (.value 1)]) fun _ => .future .asyncWait)

theorem timerAfterBoth_terminates : timerAfterBoth.Terminates :=
  ⟨⟨trivial, trivial, trivial⟩, fun _ => trivial⟩

theorem timerAfterBoth_withoutAny : timerAfterBoth.WithoutAny :=
  ⟨⟨trivial, trivial, trivial⟩, fun _ => trivial⟩

theorem timerAfterBoth_agree : ∃ n d, ∀ k fut, Calm timerAfterBoth k fut →
    k ≤ n ∧ (∀ v, fut.result = some v → v.view = d) ∧ (fut.isReady = false → fut.GoesOn) :=
  schedules_agree timerAfterBoth_terminates timerAfterBoth_withoutAny

/-- **The rules are complete** for what a function of the user can tell of such an expression. -/
theorem yields_iff {P : Datum → Prop} (terminates : e.Terminates) (plain : e.WithoutAny) :
    (∃ n, Yields n e fun m => P m.view) ↔
      ∀ k fut v, Calm e k fut → fut.result = some v → P v.view := by
  constructor
  · rintro ⟨n, yields⟩ k fut v calm result
    obtain ⟨m, holds, view⟩ := (yields_sound yields calm).2.1 v result
    exact view ▸ holds
  · intro all
    cases e.determined terminates plain with
    | @mk n _ m yields _ =>
      have one := yields (· = m) rfl
      obtain ⟨fut, returns, -⟩ := (start_gets e).resolve_right And.left
      obtain ⟨k, fut', v, calm, result⟩ := Calm.gets_ready one (.start returns)
      obtain ⟨_, rfl, view⟩ := (yields_sound one calm).2.1 v result
      refine ⟨n, yields _ ?_⟩
      rw [view]
      exact all k fut' v calm result

theorem timerAfterBoth_yields_iff :
    (∃ n, Yields n timerAfterBoth fun m => m.view = .value 0) ↔
      ∀ k fut v, Calm timerAfterBoth k fut → fut.result = some v → v.view = .value 0 :=
  @yields_iff _ (· = .value 0) timerAfterBoth_terminates timerAfterBoth_withoutAny

end Tconcurrent.SynchronousCancel
