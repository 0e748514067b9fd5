import Mathlib.Data.List.Basic

/-! Recursive functions as programs that say whom they call.

The body of a function of `ι` names each recursive call and goes on with its result, fails, or
stops the whole program.  It is evaluated to what it returns, if it returns, and `exec` finds that
with enough fuel. -/
namespace Tconcurrent.Recursion

variable {ι ρ α β : Type}

inductive Code (ι ρ α : Type) where
  | pure (a : α)
  | fail
  /-- Nothing runs any more. -/
  | stop
  | ask (i : ι) (next : ρ → Code ι ρ α)

namespace Code

def bind : Code ι ρ α → (α → Code ι ρ β) → Code ι ρ β
  | .pure a, next => next a
  | .fail, _ => .fail
  | .stop, _ => .stop
  | .ask i rest, next => .ask i fun r => (rest r).bind next

instance : Monad (Code ι ρ) where
  pure := Code.pure
  bind := Code.bind

def call (i : ι) : Code ι ρ ρ := .ask i .pure

def callAll : List ι → Code ι ρ (List ρ)
  | [] => return []
  | i :: is => do
    let r ← call i
    let rs ← callAll is
    return r :: rs

/-- The calls are given to a function.  `some none` is a program that has been stopped. -/
def run (f : ι → Option (Option ρ)) : Code ι ρ α → Option (Option α)
  | .pure a => some (some a)
  | .fail => none
  | .stop => some none
  | .ask i next =>
    match f i with
    | some (some r) => (next r).run f
    | some none => some none
    | none => none

end Code

/-- What a call comes to within so many nested calls. -/
def exec (body : ι → Code ι ρ ρ) : ℕ → ι → Option (Option ρ)
  | 0, _ => none
  | fuel + 1, i => (body i).run (exec body fuel)

/-- A piece of code returns. -/
inductive Returns (body : ι → Code ι ρ ρ) : {α : Type} → Code ι ρ α → α → Prop where
  | pure {α : Type} (a : α) : Returns body (.pure a) a
  | ask {α : Type} {i : ι} {r : ρ} {next : ρ → Code ι ρ α} {a : α}
      (called : Returns body (body i) r) (goesOn : Returns body (next r) a) :
      Returns body (.ask i next) a

/-- A piece of code stops the program. -/
inductive Stops (body : ι → Code ι ρ ρ) : {α : Type} → Code ι ρ α → Prop where
  | stop {α : Type} : Stops body (.stop : Code ι ρ α)
  | called {α : Type} {i : ι} {next : ρ → Code ι ρ α} (called : Stops body (body i)) :
      Stops body (.ask i next)
  | goesOn {α : Type} {i : ι} {r : ρ} {next : ρ → Code ι ρ α}
      (called : Returns body (body i) r) (goesOn : Stops body (next r)) :
      Stops body (.ask i next)

variable {body : ι → Code ι ρ ρ} {a : α} {b : β} {i : ι} {r : ρ} {code : Code ι ρ α}
  {next : ρ → Code ι ρ α}

@[simp] theorem returns_pure {a' : α} : Returns body (pure a' : Code ι ρ α) a ↔ a' = a := by
  constructor
  · rintro ⟨⟩
    rfl
  · rintro rfl
    exact .pure a'

@[simp] theorem returns_fail : ¬ Returns body (.fail : Code ι ρ α) a := by
  rintro ⟨⟩

theorem returns_ask :
    Returns body (.ask i next) a ↔ ∃ r, Returns body (body i) r ∧ Returns body (next r) a := by
  constructor
  · rintro ⟨⟩
    exact ⟨_, ‹_›, ‹_›⟩
  · rintro ⟨r, called, goesOn⟩
    exact .ask called goesOn

@[simp] theorem returns_bind {next : α → Code ι ρ β} :
    Returns body (code >>= next) b ↔ ∃ a, Returns body code a ∧ Returns body (next a) b := by
  show Returns body (code.bind next) b ↔ _
  induction code with
  | pure a =>
    constructor
    · exact fun goesOn => ⟨a, .pure a, goesOn⟩
    · rintro ⟨a, ⟨⟩, goesOn⟩
      exact goesOn
  | fail | stop =>
    constructor
    · rintro ⟨⟩
    · rintro ⟨a, ⟨⟩, -⟩
  | ask i rest ih =>
    rw [Code.bind, returns_ask]
    constructor
    · rintro ⟨r, called, goesOn⟩
      obtain ⟨a, first, last⟩ := (ih r).mp goesOn
      exact ⟨a, .ask called first, last⟩
    · rintro ⟨a, first, last⟩
      obtain ⟨r, called, goesOn⟩ := returns_ask.mp first
      exact ⟨r, called, (ih r).mpr ⟨a, goesOn, last⟩⟩

@[simp] theorem returns_call : Returns body (Code.call i) r ↔ Returns body (body i) r := by
  rw [Code.call, returns_ask]
  constructor
  · rintro ⟨r, called, ⟨⟩⟩
    exact called
  · exact fun called => ⟨r, called, .pure r⟩

theorem Returns.unique {a' : α} (first : Returns body code a) (second : Returns body code a') :
    a = a' := by
  induction first with
  | pure a =>
    cases second
    rfl
  | ask called goesOn ih ih' =>
    obtain ⟨r, called', goesOn'⟩ := returns_ask.mp second
    obtain rfl := ih called'
    exact ih' goesOn'

/-! ## A program that is stopped -/

theorem stops_bind {next : α → Code ι ρ β} :
    Stops body (code >>= next) ↔
      Stops body code ∨ ∃ a, Returns body code a ∧ Stops body (next a) := by
  show Stops body (code.bind next) ↔ _
  induction code with
  | pure a =>
    constructor
    · exact fun stops => .inr ⟨a, .pure a, stops⟩
    · rintro (⟨⟨⟩⟩ | ⟨a, ⟨⟩, stops⟩)
      exact stops
  | fail =>
    constructor
    · rintro ⟨⟩
    · rintro (⟨⟨⟩⟩ | ⟨a, ⟨⟩, -⟩)
  | stop => exact ⟨fun _ => .inl .stop, fun _ => .stop⟩
  | ask i rest ih =>
    constructor
    · intro stops
      cases stops with
      | called called => exact .inl (.called called)
      | goesOn called stops =>
        rcases (ih _).mp stops with first | ⟨a, returns, last⟩
        · exact .inl (.goesOn called first)
        · exact .inr ⟨a, .ask called returns, last⟩
    · rintro (first | ⟨a, returns, last⟩)
      · cases first with
        | called called => exact .called called
        | goesOn called stops => exact .goesOn called ((ih _).mpr (.inl stops))
      · obtain ⟨r, called, goesOn⟩ := returns_ask.mp returns
        exact .goesOn called ((ih r).mpr (.inr ⟨a, goesOn, last⟩))

theorem stops_call (called : Stops body (body i)) : Stops body (Code.call i) :=
  .called called

theorem Stops.not_returns (stops : Stops body code) : ¬ Returns body code a := by
  intro returns
  induction returns with
  | pure a => cases stops
  | ask called goesOn ih ih' =>
    cases stops with
    | called stops => exact ih stops
    | goesOn called' stops =>
      obtain rfl := called.unique called'
      exact ih' stops

/-! ## Postconditions -/

/-- It returns, and what it returns satisfies the postcondition, or it stops the program if it
may. -/
def Ends (may : Prop) (body : ι → Code ι ρ ρ) (code : Code ι ρ α) (post : α → Prop) : Prop :=
  (∃ a, Returns body code a ∧ post a) ∨ may ∧ Stops body code

variable {post : α → Prop} {may : Prop}

theorem ends_pure (holds : post a) : Ends may body (pure a) post :=
  .inl ⟨a, returns_pure.mpr rfl, holds⟩

theorem ends_stop (permits : may) : Ends may body (.stop : Code ι ρ α) post :=
  .inr ⟨permits, .stop⟩

theorem Ends.bind {next : α → Code ι ρ β} {post' : β → Prop} (first : Ends may body code post)
    (last : ∀ a, post a → Ends may body (next a) post') : Ends may body (code >>= next) post' := by
  rcases first with ⟨a, returns, holds⟩ | ⟨permits, stops⟩
  · rcases last a holds with ⟨b, goesOn, ends⟩ | ⟨permits, stops⟩
    · exact .inl ⟨b, returns_bind.mpr ⟨a, returns, goesOn⟩, ends⟩
    · exact .inr ⟨permits, stops_bind.mpr (.inr ⟨a, returns, stops⟩)⟩
  · exact .inr ⟨permits, stops_bind.mpr (.inl stops)⟩

theorem ends_call {post : ρ → Prop} (called : Ends may body (body i) post) :
    Ends may body (Code.call i) post := by
  rcases called with ⟨r, returns, holds⟩ | ⟨permits, stops⟩
  · exact .inl ⟨r, returns_call.mpr returns, holds⟩
  · exact .inr ⟨permits, stops_call stops⟩

theorem ends_callAll {is : List ι} {post : ρ → Prop}
    (called : ∀ i ∈ is, Ends may body (body i) post) :
    Ends may body (Code.callAll is) fun rs => ∀ r ∈ rs, post r := by
  induction is with
  | nil => exact ends_pure fun r member => absurd member List.not_mem_nil
  | cons i is ih =>
    refine (ends_call (called i List.mem_cons_self)).bind fun r holds => ?_
    refine (ih fun j member => called j (List.mem_cons_of_mem i member)).bind fun rs all => ?_
    exact ends_pure (List.forall_mem_cons.mpr ⟨holds, all⟩)

theorem Ends.mono {weaker : α → Prop} (ends : Ends may body code post)
    (implies : ∀ a, post a → weaker a) : Ends may body code weaker := by
  rcases ends with ⟨a, returns, holds⟩ | stopped
  · exact .inl ⟨a, returns, implies a holds⟩
  · exact .inr stopped

theorem Ends.returns (ends : Ends may body code post) (runs : ¬ Stops body code) :
    ∃ a, Returns body code a ∧ post a :=
  ends.resolve_right fun stopped => runs stopped.2

/-- If it returns, what it returns satisfies the postcondition. -/
def Always (body : ι → Code ι ρ ρ) (code : Code ι ρ α) (post : α → Prop) : Prop :=
  ∀ a, Returns body code a → post a

theorem Ends.always (ends : Ends may body code post) : Always body code post := by
  intro a returns
  rcases ends with ⟨a', returns', holds⟩ | ⟨-, stops⟩
  · rwa [returns.unique returns']
  · exact absurd returns stops.not_returns

theorem Ends.and_always {post' : α → Prop} (ends : Ends may body code post)
    (always : Always body code post') : Ends may body code fun a => post a ∧ post' a := by
  rcases ends with ⟨a, returns, holds⟩ | stopped
  · exact .inl ⟨a, returns, holds, always a returns⟩
  · exact .inr stopped

theorem always_pure (holds : post a) : Always body (pure a) post :=
  fun _ returns => returns_pure.mp returns ▸ holds

theorem always_fail : Always body (.fail : Code ι ρ α) post :=
  fun _ returns => absurd returns returns_fail

theorem Always.bind {next : α → Code ι ρ β} {post' : β → Prop} (first : Always body code post)
    (last : ∀ a, post a → Always body (next a) post') : Always body (code >>= next) post' := by
  intro b returns
  obtain ⟨a, returns, goesOn⟩ := returns_bind.mp returns
  exact last a (first a returns) b goesOn

theorem always_call {post : ρ → Prop} (called : Always body (body i) post) :
    Always body (Code.call i) post :=
  fun r returns => called r (returns_call.mp returns)

/-! ## Recursion

The calls of a function are assumed to meet the specification that its body is shown to meet. -/

/-- What the code returns satisfies the postcondition if its calls meet the specification. -/
def Assuming (spec : ι → ρ → Prop) : Code ι ρ α → (α → Prop) → Prop
  | .pure a, post => post a
  | .fail, _ | .stop, _ => True
  | .ask i next, post => ∀ r, spec i r → Assuming spec (next r) post

variable {spec : ι → ρ → Prop}

theorem Always.assuming (always : Always body code post) :
    Assuming (fun i r => Returns body (body i) r ∧ spec i r) code post := by
  induction code with
  | pure a => exact always a (.pure a)
  | fail | stop => trivial
  | ask i next ih =>
    intro r called
    exact ih r fun a goesOn => always a (.ask called.1 goesOn)

theorem Assuming.mono {weaker : α → Prop} (assuming : Assuming spec code post)
    (implies : ∀ a, post a → weaker a) : Assuming spec code weaker := by
  induction code with
  | pure a => exact implies a assuming
  | fail | stop => trivial
  | ask i next ih => exact fun r called => ih r (assuming r called)

theorem Assuming.of_spec {weaker : ι → ρ → Prop} (assuming : Assuming weaker code post)
    (implies : ∀ i r, spec i r → weaker i r) : Assuming spec code post := by
  induction code with
  | pure a => exact assuming
  | fail | stop => trivial
  | ask i next ih => exact fun r called => ih r (assuming r (implies i r called))

theorem Assuming.and {post' : α → Prop} (first : Assuming spec code post)
    (second : Assuming spec code post') : Assuming spec code fun a => post a ∧ post' a := by
  induction code with
  | pure a => exact ⟨first, second⟩
  | fail | stop => trivial
  | ask i next ih => exact fun r called => ih r (first r called) (second r called)

theorem assuming_of_forall (holds : ∀ a, post a) : Assuming spec code post := by
  induction code with
  | pure a => exact holds a
  | fail | stop => trivial
  | ask i next ih => exact fun r _ => ih r

theorem assuming_forall {κ : Sort*} {post : κ → α → Prop}
    (all : ∀ x, Assuming spec code (post x)) : Assuming spec code fun a => ∀ x, post x a := by
  induction code with
  | pure a => exact all
  | fail | stop => trivial
  | ask i next ih => exact fun r called => ih r fun x => all x r called

theorem assuming_bind {next : α → Code ι ρ β} {post' : β → Prop}
    (first : Assuming spec code post) (last : ∀ a, post a → Assuming spec (next a) post') :
    Assuming spec (code >>= next) post' := by
  show Assuming spec (code.bind next) post'
  induction code with
  | pure a => exact last a first
  | fail | stop => trivial
  | ask i rest ih => exact fun r called => ih r (first r called)

theorem assuming_call {post : ρ → Prop} (implies : ∀ r, spec i r → post r) :
    Assuming spec (Code.call i) post := implies

theorem assuming_callAll {is : List ι} :
    Assuming spec (Code.callAll is) fun rs => List.Forall₂ spec is rs := by
  induction is with
  | nil => exact .nil
  | cons i is ih =>
    refine assuming_bind (assuming_call fun _ called => called) fun r called => ?_
    exact assuming_bind ih fun rs all => .cons called all

/-- **A recursive function** meets its specification whenever it returns. -/
theorem always_recursive
    (step : ∀ i, Assuming (fun i r => Returns body (body i) r ∧ spec i r) (body i) (spec i))
    (i : ι) : Always body (body i) (spec i) := by
  have holds {α : Type} {code : Code ι ρ α} {a : α} (returns : Returns body code a)
      {post : α → Prop} :
      Assuming (fun i r => Returns body (body i) r ∧ spec i r) code post → post a := by
    induction returns with
    | pure a => exact id
    | @ask _ i r _ _ called _ ih ih' =>
      exact fun assuming => ih' (assuming r ⟨called, ih (step i)⟩)
  exact fun r returns => holds returns (step i)

/-- The code does not stop the program, and what it returns satisfies the postcondition, if its
calls do so under a precondition that it meets. -/
def Safely (pre : ι → Prop) (spec : ι → ρ → Prop) : Code ι ρ α → (α → Prop) → Prop
  | .pure a, post => post a
  | .fail, _ => True
  | .stop, _ => False
  | .ask i next, post => pre i ∧ ∀ r, spec i r → Safely pre spec (next r) post

variable {pre : ι → Prop}

theorem Safely.mono {weaker : α → Prop} (safely : Safely pre spec code post)
    (implies : ∀ a, post a → weaker a) : Safely pre spec code weaker := by
  induction code with
  | pure a => exact implies a safely
  | fail => trivial
  | stop => exact safely
  | ask i next ih => exact ⟨safely.1, fun r called => ih r (safely.2 r called)⟩

theorem Safely.and {post' : α → Prop} (first : Safely pre spec code post)
    (second : Assuming spec code post') : Safely pre spec code fun a => post a ∧ post' a := by
  induction code with
  | pure a => exact ⟨first, second⟩
  | fail => trivial
  | stop => exact first
  | ask i next ih => exact ⟨first.1, fun r called => ih r (first.2 r called) (second r called)⟩

theorem safely_bind {next : α → Code ι ρ β} {post' : β → Prop}
    (first : Safely pre spec code post) (last : ∀ a, post a → Safely pre spec (next a) post') :
    Safely pre spec (code >>= next) post' := by
  show Safely pre spec (code.bind next) post'
  induction code with
  | pure a => exact last a first
  | fail => trivial
  | stop => exact first
  | ask i rest ih => exact ⟨first.1, fun r called => ih r (first.2 r called)⟩

theorem safely_call {post : ρ → Prop} (meets : pre i) (implies : ∀ r, spec i r → post r) :
    Safely pre spec (Code.call i) post :=
  ⟨meets, implies⟩

theorem safely_callAll {is : List ι} (meets : ∀ i ∈ is, pre i) :
    Safely pre spec (Code.callAll is) fun rs => List.Forall₂ spec is rs := by
  induction is with
  | nil => exact .nil
  | cons i is ih =>
    obtain ⟨first, others⟩ := List.forall_mem_cons.mp meets
    refine safely_bind (safely_call first fun _ called => called) fun r called => ?_
    exact safely_bind (ih others) fun rs all => .cons called all

/-- **A recursive function** that meets its precondition does not stop the program. -/
theorem safe_recursive
    (step : ∀ i, pre i →
      Safely pre (fun i r => Returns body (body i) r ∧ spec i r) (body i) (spec i))
    (i : ι) (meets : pre i) : ¬ Stops body (body i) ∧ Always body (body i) (spec i) := by
  have holds {α : Type} {code : Code ι ρ α} {a : α} (returns : Returns body code a)
      {post : α → Prop} :
      Safely pre (fun i r => Returns body (body i) r ∧ spec i r) code post → post a := by
    induction returns with
    | pure a => exact id
    | @ask _ i r _ _ called _ ih ih' =>
      exact fun safely => ih' (safely.2 r ⟨called, ih (step i safely.1)⟩)
  have runs {α : Type} {code : Code ι ρ α} (stops : Stops body code) {post : α → Prop} :
      ¬ Safely pre (fun i r => Returns body (body i) r ∧ spec i r) code post := by
    induction stops with
    | stop => exact id
    | @called _ i _ _ ih => exact fun safely => ih (step i safely.1)
    | @goesOn _ i r _ called _ ih =>
      exact fun safely => ih (safely.2 r ⟨called, holds called (step i safely.1)⟩)
  exact ⟨fun stops => runs stops (step i meets), fun r returns => holds returns (step i meets)⟩

/-! ## Fuel -/

/-- What the code comes to: it returns, or stops the program. -/
def ComesTo (body : ι → Code ι ρ ρ) (code : Code ι ρ α) : Option α → Prop
  | some a => Returns body code a
  | none => Stops body code

theorem comesTo_of_run {fuel : ℕ} {outcome : Option α}
    (ran : code.run (exec body fuel) = some outcome) : ComesTo body code outcome := by
  induction fuel generalizing α code with
  | zero =>
    cases code with
    | pure a =>
      cases ran
      exact .pure a
    | stop =>
      cases ran
      exact .stop
    | fail | ask => cases ran
  | succ fuel ih =>
    induction code with
    | pure a =>
      cases ran
      exact .pure a
    | stop =>
      cases ran
      exact .stop
    | fail => cases ran
    | ask i next ih' =>
      rw [Code.run] at ran
      split at ran
      · rename_i r called
        have first := ih called
        have last := ih' r ran
        cases outcome with
        | some a => exact .ask first last
        | none => exact .goesOn first last
      · rename_i called
        cases ran
        exact .called (ih called)
      · cases ran

/-- **Enough fuel** finds what a call returns. -/
theorem returns_of_exec (fuel : ℕ) (i : ι) (ran : exec body fuel i = some (some r)) :
    Returns body (body i) r := by
  cases fuel with
  | zero => cases ran
  | succ fuel => exact comesTo_of_run ran

/-- It finds that the program is stopped, too. -/
theorem stops_of_exec (fuel : ℕ) (i : ι) (ran : exec body fuel i = some none) :
    Stops body (body i) := by
  cases fuel with
  | zero => cases ran
  | succ fuel => exact comesTo_of_run ran

end Tconcurrent.Recursion
