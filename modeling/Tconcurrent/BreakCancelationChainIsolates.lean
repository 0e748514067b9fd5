import Tconcurrent.BreakCancelationChain

/-! When `break_cancelation_chain` isolates both sides.

What produces a future asks its shared state for the token, and a break has replaced it.
Continuations have kept the token they were made with. -/
namespace Tconcurrent.BreakChain
open Interleaving

variable {s s' : State} {call : ChainCall} {choice : Choice} {calls : List ChainCall}
variable {pending others : Multiset ChainCall} {i k m n q t u v stages : ℕ}

/-- The shared state has the token it was made with, or none any more. -/
def Kept (stage : Stage) : Prop :=
  stage.cancelationToken = none ∨ stage.cancelationToken = stage.home

instance (stage : Stage) : Decidable (Kept stage) := inferInstanceAs (Decidable (_ ∨ _))

/-- `pop_back` finds a callback on the token; without one it is undefined. -/
def Pops (s : State) (t : ℕ) : Prop := (s.tokens t).doCancels ≠ []

/-- Once its future was broken off, a promise is not asked for its token, a function that
is not a continuation is not called, and an outer future that is unwrapped does not get a
value; and no callback is popped off a token that has none. -/
def Unbroken (s : State) : ChainCall → Choice → Prop
  | .user, .getCancelationToken i => Kept (s.stages i)
  | .user, .run i => (s.stages i).kind = .unwrap → Kept (s.stages i) ∨
    ∃ e, (s.stages (s.stages i).source).r = some (.exception e)
  | .enter i, _ => (s.stages i).kind ≠ .continuation → Kept (s.stages i)
  | .pop (some t), _ => Pops s t
  | .popCurrent i, _ => ∃ t, (s.stages i).cancelationToken = some t ∧ Pops s t
  | _, _ => True

def Outcome.isException : Outcome → Bool
  | .exception _ => true
  | _ => false

/-- `Unbroken`, decided. -/
def unbroken (s : State) : ChainCall → Choice → Bool
  | .user, .getCancelationToken i => decide (Kept (s.stages i))
  | .user, .run i => decide ((s.stages i).kind = .unwrap → Kept (s.stages i) ∨
    (s.stages (s.stages i).source).r.any Outcome.isException = true)
  | .enter i, _ => decide ((s.stages i).kind ≠ .continuation → Kept (s.stages i))
  | .pop (some t), _ => !(s.tokens t).doCancels.isEmpty
  | .popCurrent i, _ =>
    (s.stages i).cancelationToken.any fun t => !(s.tokens t).doCancels.isEmpty
  | _, _ => true

/-- One stage was attached to the future of another. -/
def Attached (s : State) (p k : ℕ) : Prop := (s.stages k).parent = some p

/-- What comes before a stage in its chain. -/
abbrev Above (s : State) : ℕ → ℕ → Prop := Relation.TransGen (Attached s)

/-- What was attached to the future of `i` when there were `stages` stages or more, and
what comes after that. -/
def Downstream (s : State) (i stages k : ℕ) : Prop :=
  ∃ first, Attached s i first ∧ stages ≤ (s.stages first).since ∧
    Relation.ReflTransGen (Attached s) first k

/-- The tokens that a stage was made with or got by a break. -/
def Owns (s : State) (k t : ℕ) : Prop :=
  (s.stages k).home = some t ∨ ∃ stages, .broke k t stages ∈ s.events

/-- How the tokens of the stages and the events are related. -/
structure Chains (s : State) : Prop where
  fresh : ∀ k, s.next ≤ k → (s.stages k).parent = none ∧ (s.stages k).home = none
  owned : ∀ k t, Owns s k t → t < s.nextToken
  current : ∀ k t, (s.stages k).cancelationToken = some t ∨ (s.stages k).future = some t →
    Owns s k t
  parent : ∀ k p, Attached s p k → p < (s.stages k).since
  since : ∀ k, (s.stages k).since ≤ k
  captured : ∀ k t, (s.stages k).captured = some t → (s.stages k).home = some t
  inherited : ∀ p k t, Attached s p k → (s.stages k).home = some t → Owns s p t ∨
    ∀ i n stages, .broke i n stages ∈ s.events → stages ≤ (s.stages k).since → n ≤ t
  broke : ∀ i n stages, .broke i n stages ∈ s.events →
    i < stages ∧ stages ≤ s.next ∧ n < s.nextToken
  order : ∀ i n stages k t stages', .broke i n stages ∈ s.events → .broke k t stages' ∈ s.events →
    stages < stages' → n < t
  unique : ∀ i k n stages stages', .broke i n stages ∈ s.events → .broke k n stages' ∈ s.events →
    i = k
  before : ∀ i n stages u t, .broke i n stages ∈ s.events → u < stages →
    (s.stages u).home = some t → t < n
  after : ∀ i n stages k t, .broke i n stages ∈ s.events → Attached s i k →
    stages ≤ (s.stages k).since → (s.stages k).home = some t → n ≤ t
  latest : ∀ i n stages t, .broke i n stages ∈ s.events →
    (s.stages i).cancelationToken = some t ∨ (s.stages i).future = some t → n ≤ t
  same : ∀ u t stages k v, .broke u t stages ∈ s.events → (s.stages k).home = some t →
    Above s u v → Above s v k → (s.stages v).home = some t
  requests : ∀ q t, .request q t ∈ s.events → Owns s q t
  sees : ∀ k t, .see k t ∈ s.events → (s.stages k).home = some t
  times : ∀ later i n stages earlier, s.events = later ++ .broke i n stages :: earlier →
    (∀ t, .request i t ∈ later → n ≤ t) ∧ ∀ q t, .request q t ∈ earlier → t < n
  callbacks : ∀ t, ∀ cb ∈ (s.tokens t).doCancels, (s.stages cb.stage).home = some t

/-- The callbacks that are about to be called were on the token of their stage. -/
def Called (s : State) (pending : Multiset ChainCall) : Prop :=
  ∀ cb t, .callback cb t ∈ pending → (s.stages cb.stage).home = some t

structure Sane (s : State) (pending : Multiset ChainCall) : Prop where
  chains : Chains s
  called : Called s pending

theorem Chains.parent_lt (chains : Chains s) (attached : Attached s u k) : u < k :=
  (chains.parent k u attached).trans_le (chains.since k)

theorem Chains.above_lt (chains : Chains s) (above : Above s u k) : u < k := by
  induction above with
  | single attached => exact chains.parent_lt attached
  | tail _ attached ih => exact ih.trans (chains.parent_lt attached)

/-- What is downstream of a break has no older token. -/
theorem Chains.downstream (chains : Chains s) (broke : .broke i n stages ∈ s.events)
    (down : Downstream s i stages k) : stages ≤ k ∧ ∀ t, Owns s k t → n ≤ t := by
  obtain ⟨first, attached, since, path⟩ := down
  have brokeLater {k t : ℕ} (late : stages ≤ k) (again : ∃ stages, .broke k t stages ∈ s.events) :
      n ≤ t := by
    obtain ⟨stages', again⟩ := again
    have ordered := chains.order _ _ _ _ _ _ broke again
      (Nat.lt_of_le_of_lt late (chains.broke _ _ _ again).1)
    exact ordered.le
  induction path with
  | refl =>
    have late := since.trans (chains.since first)
    refine ⟨late, fun t owns => owns.elim (fun home => ?_) (brokeLater late)⟩
    exact chains.after _ _ _ _ _ broke attached since home
  | tail _ step ih =>
    have since := ih.1.trans (chains.parent _ _ step).le
    have late := since.trans (chains.since _)
    refine ⟨late, fun t owns => owns.elim (fun home => ?_) (brokeLater late)⟩
    exact (chains.inherited _ _ _ step home).elim (ih.2 t) fun newer => newer _ _ _ broke since

/-- Nothing is attached, broken off or requested. -/
theorem Chains.mono (chains : Chains s) (next : s'.next = s.next)
    (nextToken : s.nextToken ≤ s'.nextToken) (events : s'.events = s.events)
    (static : ∀ k, (s'.stages k).parent = (s.stages k).parent ∧
      (s'.stages k).since = (s.stages k).since ∧ (s'.stages k).home = (s.stages k).home ∧
      (s'.stages k).captured = (s.stages k).captured)
    (current : ∀ k t, (s'.stages k).cancelationToken = some t ∨ (s'.stages k).future = some t →
      (s.stages k).cancelationToken = some t ∨ (s.stages k).future = some t)
    (callbacks : ∀ t, ∀ cb ∈ (s'.tokens t).doCancels, (s.stages cb.stage).home = some t) :
    Chains s' := by
  have attached : Attached s' = Attached s := by
    funext p k
    rw [Attached, (static k).1, Attached]
  have owns : ∀ k t, Owns s' k t = Owns s k t := by
    intro k t
    rw [Owns, (static k).2.2.1, events, Owns]
  constructor
  · intro k beyond
    rw [(static k).1, (static k).2.2.1]
    exact chains.fresh k (next ▸ beyond)
  · intro k t own
    exact (chains.owned k t (owns k t ▸ own)).trans_le nextToken
  · intro k t some
    rw [owns]
    exact chains.current k t (current k t some)
  · intro k p step
    rw [(static k).2.1]
    exact chains.parent k p (attached ▸ step)
  · intro k
    rw [(static k).2.1]
    exact chains.since k
  · intro k t some
    rw [(static k).2.2.1]
    exact chains.captured k t ((static k).2.2.2 ▸ some)
  · intro p k t step home
    rw [owns, events, (static k).2.1]
    exact chains.inherited p k t (attached ▸ step) ((static k).2.2.1 ▸ home)
  · intro i n stages broke
    obtain ⟨before, existing, token⟩ := chains.broke i n stages (events ▸ broke)
    exact ⟨before, next ▸ existing, token.trans_le nextToken⟩
  · rw [events]
    exact chains.order
  · rw [events]
    exact chains.unique
  · intro i n stages u t broke old home
    exact chains.before i n stages u t (events ▸ broke) old ((static u).2.2.1 ▸ home)
  · intro i n stages k t broke step since home
    exact chains.after i n stages k t (events ▸ broke) (attached ▸ step) ((static k).2.1 ▸ since)
      ((static k).2.2.1 ▸ home)
  · intro i n stages t broke some
    exact chains.latest i n stages t (events ▸ broke) (current i t some)
  · intro u t stages k v broke home up down
    rw [(static v).2.2.1]
    have above : Above s' = Above s := congrArg Relation.TransGen attached
    exact chains.same u t stages k v (events ▸ broke) ((static k).2.2.1 ▸ home) (above ▸ up)
      (above ▸ down)
  · intro q t request
    rw [owns]
    exact chains.requests q t (events ▸ request)
  · intro k t seen
    rw [(static k).2.2.1]
    exact chains.sees k t (events ▸ seen)
  · rw [events]
    exact chains.times
  · intro t cb listed
    rw [(static cb.stage).2.2.1]
    exact callbacks t cb listed

theorem Chains.set {stage : Stage} (chains : Chains s)
    (parent : stage.parent = (s.stages i).parent) (since : stage.since = (s.stages i).since)
    (home : stage.home = (s.stages i).home) (captured : stage.captured = (s.stages i).captured)
    (current : ∀ t, stage.cancelationToken = some t ∨ stage.future = some t →
      (s.stages i).cancelationToken = some t ∨ (s.stages i).future = some t) :
    Chains (s.set i stage) := by
  refine chains.mono rfl (Nat.le_refl _) rfl (fun k => ?_) (fun k t some => ?_) chains.callbacks
  · rcases eq_or_ne k i with rfl | other
    · simp [State.set, parent, since, home, captured]
    · simp [State.set, Function.update_of_ne other]
  · rcases eq_or_ne k i with rfl | other
    · exact current t (by simpa [State.set] using some)
    · simpa [State.set, Function.update_of_ne other] using some

theorem Chains.onToken {op : CancelationToken Callback → CancelationToken Callback × List Callback}
    (chains : Chains s)
    (listed : ∀ cb ∈ (op (s.tokens t)).1.doCancels, (s.stages cb.stage).home = some t) :
    Chains (BreakChain.onToken s t op).1 := by
  refine chains.mono rfl (Nat.le_refl _) rfl (fun _ => ⟨rfl, rfl, rfl, rfl⟩) (fun _ _ some => some)
    fun u cb member => ?_
  rcases eq_or_ne u t with rfl | other
  · exact listed cb (by simpa [BreakChain.onToken] using member)
  · exact chains.callbacks u cb
      (by simpa [BreakChain.onToken, Function.update_of_ne other] using member)

/-- The breaks are what they were before an event of another kind. -/
theorem broke_of_cons {event : Event} (kind : ∀ i n stages, event ≠ .broke i n stages)
    (broke : .broke i n stages ∈ event :: s.events) : .broke i n stages ∈ s.events :=
  (List.mem_cons.mp broke).resolve_left (kind i n stages).symm

/-- What produces a stage gets to know the token the stage was made with, or a request
reaches the token that a shared state has. -/
theorem Chains.log {event : Event} (chains : Chains s)
    (kind : ∀ i n stages, event ≠ .broke i n stages)
    (seen : ∀ k t, event = .see k t → (s.stages k).home = some t)
    (requested : ∀ q t, event = .request q t → (s.stages q).cancelationToken = some t) :
    Chains (s.log event) := by
  have owns : ∀ k t, Owns (s.log event) k t ↔ Owns s k t := by
    intro k t
    refine or_congr Iff.rfl (exists_congr fun stages => ?_)
    exact ⟨broke_of_cons kind, List.mem_cons_of_mem _⟩
  constructor
  · exact chains.fresh
  · exact fun k t own => chains.owned k t ((owns k t).mp own)
  · exact fun k t some => (owns k t).mpr (chains.current k t some)
  · exact chains.parent
  · exact chains.since
  · exact chains.captured
  · exact fun p k t step home => (chains.inherited p k t step home).imp (owns p t).mpr
      fun newer i n stages broke => newer i n stages (broke_of_cons kind broke)
  · exact fun i n stages broke => chains.broke i n stages (broke_of_cons kind broke)
  · exact fun i n stages k t stages' broke later =>
      chains.order i n stages k t stages' (broke_of_cons kind broke) (broke_of_cons kind later)
  · exact fun i k n stages stages' broke again =>
      chains.unique i k n stages stages' (broke_of_cons kind broke) (broke_of_cons kind again)
  · exact fun i n stages u t broke => chains.before i n stages u t (broke_of_cons kind broke)
  · exact fun i n stages k t broke => chains.after i n stages k t (broke_of_cons kind broke)
  · exact fun i n stages t broke => chains.latest i n stages t (broke_of_cons kind broke)
  · exact fun u t stages k v broke => chains.same u t stages k v (broke_of_cons kind broke)
  · intro q t request
    rw [owns]
    rcases List.mem_cons.mp request with made | before
    · exact chains.current q t (.inl (requested q t made.symm))
    · exact chains.requests q t before
  · intro k t see
    rcases List.mem_cons.mp see with made | before
    · exact seen k t made.symm
    · exact chains.sees k t before
  · intro later i n stages earlier split
    cases later with
    | nil => exact absurd (List.cons.inj split).1 (kind i n stages)
    | cons first later =>
      obtain ⟨rfl, rest⟩ := List.cons.inj split
      obtain ⟨after, before⟩ := chains.times later i n stages earlier rest
      refine ⟨fun t request => ?_, before⟩
      rcases List.mem_cons.mp request with made | listed
      · exact chains.latest i n stages t (by simp [rest]) (.inl (requested i t made.symm))
      · exact after t listed
  · exact chains.callbacks

/-! ### `break_cancelation_chain` -/

/-- The future of `i` was broken off its chain. -/
structure Breaks (i : ℕ) (s s' : State) : Prop where
  next : s'.next = s.next
  nextToken : s'.nextToken = s.nextToken + 1
  events : s'.events = .broke i s.nextToken s.next :: s.events
  tokens : s'.tokens = s.tokens
  own : s'.stages i = { s.stages i with
    cancelationToken := some s.nextToken, future := some s.nextToken }
  elsewhere : ∀ k, k ≠ i → s'.stages k = s.stages k

theorem breaks_breakCancelationChain : Breaks i s (breakCancelationChain i s) :=
  ⟨rfl, rfl, rfl, rfl, Function.update_self .., fun _ other => Function.update_of_ne other ..⟩

/-- A stage that is to come is attached to nothing. -/
theorem Chains.orphan (chains : Chains s) (late : s.next ≤ (s.stages k).since) :
    ¬ Attached s m k := by
  intro step
  rw [Attached, (chains.fresh k (late.trans (chains.since k))).1] at step
  cases step

section
variable (breaks : Breaks i s s')
include breaks

theorem Breaks.static (k : ℕ) : (s'.stages k).parent = (s.stages k).parent ∧
    (s'.stages k).since = (s.stages k).since ∧ (s'.stages k).home = (s.stages k).home ∧
    (s'.stages k).captured = (s.stages k).captured := by
  rcases eq_or_ne k i with rfl | other
  · rw [breaks.own]
    exact ⟨rfl, rfl, rfl, rfl⟩
  · rw [breaks.elsewhere k other]
    exact ⟨rfl, rfl, rfl, rfl⟩

theorem Breaks.attached : Attached s' = Attached s := by
  funext p k
  rw [Attached, (breaks.static k).1, Attached]

theorem Breaks.owns (owns : Owns s k t) : Owns s' k t := by
  rw [Owns, (breaks.static k).2.2.1, breaks.events]
  exact owns.imp_right fun ⟨stages, broke⟩ => ⟨stages, List.mem_cons_of_mem _ broke⟩

/-- The break is the newest one. -/
theorem Breaks.broke (broke : .broke k n stages ∈ s'.events) :
    (k = i ∧ n = s.nextToken ∧ stages = s.next) ∨ .broke k n stages ∈ s.events := by
  rw [breaks.events] at broke
  rcases List.mem_cons.mp broke with new | old
  · cases new
    exact .inl ⟨rfl, rfl, rfl⟩
  · exact .inr old

theorem Breaks.owned (chains : Chains s) (owns : Owns s' k t) : t < s'.nextToken := by
  rw [breaks.nextToken]
  rcases owns with home | ⟨stages, broke⟩
  · exact Nat.lt_succ_of_lt (chains.owned k t (.inl ((breaks.static k).2.2.1 ▸ home)))
  · rcases breaks.broke broke with ⟨-, rfl, -⟩ | old
    · exact Nat.lt_succ_self _
    · exact Nat.lt_succ_of_lt (chains.owned k t (.inr ⟨stages, old⟩))

theorem Breaks.current (chains : Chains s)
    (some : (s'.stages k).cancelationToken = some t ∨ (s'.stages k).future = some t) :
    Owns s' k t := by
  rcases eq_or_ne k i with rfl | other
  · rw [breaks.own] at some
    obtain rfl : s.nextToken = t := by simpa using some
    exact .inr ⟨s.next, by simp [breaks.events]⟩
  · rw [breaks.elsewhere k other] at some
    exact breaks.owns (chains.current k t some)

theorem Breaks.inherited (chains : Chains s) (step : Attached s' m k)
    (home : (s'.stages k).home = some t) : Owns s' m t ∨
      ∀ i n stages, .broke i n stages ∈ s'.events → stages ≤ (s'.stages k).since → n ≤ t := by
  rw [breaks.attached] at step
  rw [(breaks.static k).2.2.1] at home
  rw [(breaks.static k).2.1]
  refine (chains.inherited m k t step home).imp breaks.owns fun newer i' n stages broke late => ?_
  rcases breaks.broke broke with ⟨-, -, rfl⟩ | old
  · exact absurd step (chains.orphan late)
  · exact newer i' n stages old late

/-- The tokens of breaks grow with the stages that there were. -/
theorem Breaks.order {stages' : ℕ} (chains : Chains s) (broke : .broke k n stages ∈ s'.events)
    (again : .broke m t stages' ∈ s'.events) (later : stages < stages') : n < t := by
  rcases breaks.broke broke with ⟨-, rfl, rfl⟩ | old <;>
    rcases breaks.broke again with ⟨-, rfl, rfl⟩ | old'
  · exact absurd later (Nat.lt_irrefl _)
  · exact absurd (chains.broke m t stages' old').2.1 (by omega)
  · exact (chains.broke k n stages old).2.2
  · exact chains.order k n stages m t stages' old old' later

/-- Each break has a token of its own. -/
theorem Breaks.unique {stages' : ℕ} (chains : Chains s) (broke : .broke k n stages ∈ s'.events)
    (again : .broke m n stages' ∈ s'.events) : k = m := by
  rcases breaks.broke broke with ⟨rfl, rfl, -⟩ | old <;>
    rcases breaks.broke again with ⟨rfl, same, -⟩ | old'
  · rfl
  · exact absurd (chains.broke m _ stages' old').2.2 (Nat.lt_irrefl _)
  · rw [same] at old
    exact absurd (chains.broke k _ stages old).2.2 (Nat.lt_irrefl _)
  · exact chains.unique k m n stages stages' old old'

theorem Breaks.before (chains : Chains s) (broke : .broke k n stages ∈ s'.events)
    (earlier : u < stages) (home : (s'.stages u).home = some t) : t < n := by
  rw [(breaks.static u).2.2.1] at home
  rcases breaks.broke broke with ⟨-, rfl, -⟩ | old
  · exact chains.owned u t (.inl home)
  · exact chains.before k n stages u t old earlier home

theorem Breaks.after (chains : Chains s) (broke : .broke k n stages ∈ s'.events)
    (step : Attached s' k m) (since : stages ≤ (s'.stages m).since)
    (home : (s'.stages m).home = some t) : n ≤ t := by
  rw [breaks.attached] at step
  rw [(breaks.static m).2.1] at since
  rw [(breaks.static m).2.2.1] at home
  rcases breaks.broke broke with ⟨-, -, rfl⟩ | old
  · exact absurd step (chains.orphan since)
  · exact chains.after k n stages m t old step since home

theorem Breaks.latest (chains : Chains s) (broke : .broke k n stages ∈ s'.events)
    (some : (s'.stages k).cancelationToken = some t ∨ (s'.stages k).future = some t) : n ≤ t := by
  have small : n ≤ s.nextToken := by
    rcases breaks.broke broke with ⟨-, rfl, -⟩ | old
    · exact Nat.le_refl _
    · exact (chains.broke k n stages old).2.2.le
  rcases eq_or_ne k i with rfl | other
  · rw [breaks.own] at some
    obtain rfl : s.nextToken = t := by simpa using some
    exact small
  · rw [breaks.elsewhere k other] at some
    rcases breaks.broke broke with ⟨same, -, -⟩ | old
    · exact absurd same other
    · exact chains.latest k n stages t old some

theorem Breaks.same (chains : Chains s) (broke : .broke u t stages ∈ s'.events)
    (home : (s'.stages k).home = some t) (up : Above s' u v) (down : Above s' v k) :
    (s'.stages v).home = some t := by
  rw [(breaks.static k).2.2.1] at home
  rw [(breaks.static v).2.2.1]
  have above : Above s' = Above s := congrArg Relation.TransGen breaks.attached
  rcases breaks.broke broke with ⟨-, rfl, -⟩ | old
  · exact absurd (chains.owned k _ (.inl home)) (Nat.lt_irrefl _)
  · exact chains.same u t stages k v old home (above ▸ up) (above ▸ down)

/-- All requests before the break were made on older tokens. -/
theorem Breaks.times {later earlier : List Event} (chains : Chains s)
    (separated : s'.events = later ++ .broke k n stages :: earlier) :
    (∀ t, .request k t ∈ later → n ≤ t) ∧ ∀ q t, .request q t ∈ earlier → t < n := by
  rw [breaks.events] at separated
  cases later with
  | nil =>
    obtain ⟨same, rfl⟩ := List.cons.inj separated
    cases same
    refine ⟨fun t request => absurd request List.not_mem_nil, fun q t request => ?_⟩
    exact chains.owned q t (chains.requests q t request)
  | cons first later =>
    obtain ⟨rfl, rest⟩ := List.cons.inj separated
    obtain ⟨after, before⟩ := chains.times later k n stages earlier rest
    refine ⟨fun t request => ?_, before⟩
    rcases List.mem_cons.mp request with new | old
    · cases new
    · exact after t old

end

/-- `break_cancelation_chain` on a future that exists. -/
theorem Chains.breakCancelationChain (chains : Chains s) (below : i < s.next) :
    Chains (breakCancelationChain i s) := by
  have breaks := @breaks_breakCancelationChain s i
  constructor
  · intro k beyond
    rw [(breaks.static k).1, (breaks.static k).2.2.1]
    exact chains.fresh k (breaks.next ▸ beyond)
  · exact fun k t => breaks.owned chains
  · exact fun k t => breaks.current chains
  · intro k p step
    rw [(breaks.static k).2.1]
    exact chains.parent k p (breaks.attached ▸ step)
  · intro k
    rw [(breaks.static k).2.1]
    exact chains.since k
  · intro k t some
    rw [(breaks.static k).2.2.1]
    exact chains.captured k t ((breaks.static k).2.2.2 ▸ some)
  · exact fun p k t => breaks.inherited chains
  · intro k n stages broke
    rw [breaks.next, breaks.nextToken]
    rcases breaks.broke broke with ⟨rfl, rfl, rfl⟩ | old
    · exact ⟨below, Nat.le_refl _, Nat.lt_succ_self _⟩
    · obtain ⟨before, existing, token⟩ := chains.broke k n stages old
      exact ⟨before, existing, Nat.lt_succ_of_lt token⟩
  · exact fun k n stages m t stages' => breaks.order chains
  · exact fun k m n stages stages' => breaks.unique chains
  · exact fun k n stages u t => breaks.before chains
  · exact fun k n stages m t => breaks.after chains
  · exact fun k n stages t => breaks.latest chains
  · exact fun u t stages k v => breaks.same chains
  · intro q t request
    exact breaks.owns (chains.requests q t (by simpa [breaks.events] using request))
  · intro k t see
    rw [(breaks.static k).2.2.1]
    exact chains.sees k t (by simpa [breaks.events] using see)
  · exact fun later k n stages earlier => breaks.times chains
  · intro t cb listed
    rw [(breaks.static cb.stage).2.2.1]
    exact chains.callbacks t cb (breaks.tokens ▸ listed)

/-! ### A new stage -/

/-- A stage was made. -/
structure Adds (stage : Stage) (s s' : State) : Prop where
  next : s'.next = s.next + 1
  nextToken : s'.nextToken = s.nextToken
  events : s'.events = s.events
  tokens : s'.tokens = s.tokens
  own : s'.stages s.next = stage
  elsewhere : ∀ k, k ≠ s.next → s'.stages k = s.stages k

/-- What a new stage has to do with the stages that there are: its token is that of what it
is attached to. -/
structure Joins (stage : Stage) (s : State) : Prop where
  parent : ∀ p, stage.parent = some p → p < stage.since
  since : stage.since ≤ s.next
  home : ∀ t, stage.home = some t → t < s.nextToken
  current : ∀ t, stage.cancelationToken = some t ∨ stage.future = some t ∨
    stage.captured = some t → stage.home = some t
  inherited : ∀ p t, stage.parent = some p → stage.home = some t → Owns s p t ∨
    ∀ i n stages, .broke i n stages ∈ s.events → stages ≤ stage.since → n ≤ t
  after : ∀ i n stages t, .broke i n stages ∈ s.events → stage.parent = some i →
    stages ≤ stage.since → stage.home = some t → n ≤ t
  same : ∀ u t stages v p, .broke u t stages ∈ s.events → stage.home = some t →
    stage.parent = some p → Above s u v → v = p ∨ Above s v p → (s.stages v).home = some t

theorem adds_add {stage : Stage} : Adds stage s (s.add stage) :=
  ⟨rfl, rfl, rfl, rfl, Function.update_self .., fun _ other => Function.update_of_ne other ..⟩

section
variable {stage : Stage} (adds : Adds stage s s') (joins : Joins stage s) (chains : Chains s)
include adds

theorem Adds.attached (other : k ≠ s.next) (step : Attached s' m k) : Attached s m k := by
  rw [Attached, adds.elsewhere k other] at step
  exact step

include chains in
theorem Adds.home (some : (s.stages k).home = some t) : (s'.stages k).home = Option.some t := by
  rw [adds.elsewhere k, some]
  rintro rfl
  rw [(chains.fresh _ (Nat.le_refl _)).2] at some
  cases some

include chains in
theorem Adds.owns (owns : Owns s k t) : Owns s' k t := by
  rw [Owns, adds.events]
  exact owns.imp_left (adds.home chains)

include joins chains

theorem Adds.parent_lt (step : Attached s' m k) : m < k := by
  rcases eq_or_ne k s.next with rfl | other
  · rw [Attached, adds.own] at step
    exact (joins.parent m step).trans_le joins.since
  · exact chains.parent_lt (adds.attached other step)

theorem Adds.above_lt (path : Above s' u k) : u < k := by
  induction path with
  | single step => exact adds.parent_lt joins chains step
  | tail _ step ih => exact ih.trans (adds.parent_lt joins chains step)

/-- What is above a stage that there was has not changed. -/
theorem Adds.above (old : k < s.next) (path : Above s' u k) : Above s u k := by
  induction path with
  | single step => exact .single (adds.attached (Nat.ne_of_lt old) step)
  | tail _ step ih =>
    exact .tail (ih ((adds.parent_lt joins chains step).trans old))
      (adds.attached (Nat.ne_of_lt old) step)

theorem Adds.owned (owns : Owns s' k t) : t < s'.nextToken := by
  rw [adds.nextToken]
  rcases owns with some | broke
  · rcases eq_or_ne k s.next with rfl | other
    · exact joins.home t (adds.own ▸ some)
    · exact chains.owned k t (.inl (adds.elsewhere k other ▸ some))
  · exact chains.owned k t (.inr (adds.events ▸ broke))

theorem Adds.current
    (some : (s'.stages k).cancelationToken = some t ∨ (s'.stages k).future = some t) :
    Owns s' k t := by
  rcases eq_or_ne k s.next with rfl | other
  · rw [adds.own] at some
    exact .inl (adds.own ▸ joins.current t (some.imp_right .inl))
  · rw [adds.elsewhere k other] at some
    exact adds.owns chains (chains.current k t some)

theorem Adds.parent (step : Attached s' m k) : m < (s'.stages k).since := by
  rcases eq_or_ne k s.next with rfl | other
  · rw [Attached, adds.own] at step
    rw [adds.own]
    exact joins.parent m step
  · rw [adds.elsewhere k other]
    exact chains.parent k m (adds.attached other step)

theorem Adds.captured (some : (s'.stages k).captured = some t) :
    (s'.stages k).home = Option.some t := by
  rcases eq_or_ne k s.next with rfl | other
  · rw [adds.own] at some ⊢
    exact joins.current t (.inr (.inr some))
  · rw [adds.elsewhere k other] at some ⊢
    exact chains.captured k t some

theorem Adds.inherited (step : Attached s' m k) (some : (s'.stages k).home = some t) :
    Owns s' m t ∨
      ∀ i n stages, .broke i n stages ∈ s'.events → stages ≤ (s'.stages k).since → n ≤ t := by
  rw [adds.events]
  rcases eq_or_ne k s.next with rfl | other
  · rw [Attached, adds.own] at step
    rw [adds.own] at some ⊢
    exact (joins.inherited m t step some).imp_left (adds.owns chains)
  · rw [adds.elsewhere k other] at some ⊢
    exact (chains.inherited m k t (adds.attached other step) some).imp_left (adds.owns chains)

theorem Adds.after (broke : .broke i n stages ∈ s'.events) (step : Attached s' i k)
    (late : stages ≤ (s'.stages k).since) (some : (s'.stages k).home = some t) : n ≤ t := by
  rw [adds.events] at broke
  rcases eq_or_ne k s.next with rfl | other
  · rw [Attached, adds.own] at step
    rw [adds.own] at late some
    exact joins.after i n stages t broke step late some
  · rw [adds.elsewhere k other] at late some
    exact chains.after i n stages k t broke (adds.attached other step) late some

theorem Adds.same (broke : .broke u t stages ∈ s'.events) (some : (s'.stages k).home = some t)
    (up : Above s' u v) (down : Above s' v k) : (s'.stages v).home = Option.some t := by
  rw [adds.events] at broke
  refine adds.home chains ?_
  have small := adds.above_lt joins chains down
  rcases eq_or_ne k s.next with rfl | other
  · rw [adds.own] at some
    obtain ⟨p, path, step⟩ := Relation.TransGen.tail'_iff.mp down
    rw [Attached, adds.own] at step
    refine joins.same u t stages v p broke some step (adds.above joins chains small up) ?_
    rcases Relation.reflTransGen_iff_eq_or_transGen.mp path with rfl | further
    · exact .inl rfl
    · have old := (joins.parent p step).trans_le joins.since
      exact .inr (adds.above joins chains old further)
  · rw [adds.elsewhere k other] at some
    have existing : k < s.next := by
      by_contra beyond
      rw [(chains.fresh k (Nat.le_of_not_lt beyond)).2] at some
      cases some
    exact chains.same u t stages k v broke some
      (adds.above joins chains (small.trans existing) up) (adds.above joins chains existing down)

end

/-- A new stage, whose token is that of what it is attached to. -/
theorem Chains.add {stage : Stage} (chains : Chains s) (joins : Joins stage s) :
    Chains (s.add stage) := by
  have adds := @adds_add s stage
  constructor
  · intro k beyond
    rw [adds.next] at beyond
    rw [adds.elsewhere k (by omega)]
    exact chains.fresh k (by omega)
  · exact fun k t => adds.owned joins chains
  · exact fun k t => adds.current joins chains
  · exact fun k p => adds.parent joins chains
  · intro k
    rcases eq_or_ne k s.next with rfl | other
    · rw [adds.own]
      exact joins.since
    · rw [adds.elsewhere k other]
      exact chains.since k
  · exact fun k t => adds.captured joins chains
  · exact fun p k t => adds.inherited joins chains
  · intro i n stages broke
    obtain ⟨before, existing, token⟩ := chains.broke i n stages (adds.events ▸ broke)
    rw [adds.next, adds.nextToken]
    exact ⟨before, Nat.le_succ_of_le existing, token⟩
  · exact chains.order
  · exact chains.unique
  · intro i n stages u t broke old some
    have existing := (chains.broke i n stages broke).2.1
    rw [adds.elsewhere u (by omega)] at some
    exact chains.before i n stages u t broke old some
  · exact fun i n stages k t => adds.after joins chains
  · intro i n stages t broke some
    obtain ⟨before, existing, -⟩ := chains.broke i n stages broke
    rw [adds.elsewhere i (by omega)] at some
    exact chains.latest i n stages t broke some
  · exact fun u t stages k v => adds.same joins chains
  · exact fun q t request => adds.owns chains (chains.requests q t request)
  · exact fun k t see => adds.home chains (chains.sees k t see)
  · exact chains.times
  · exact fun t cb listed => adds.home chains (chains.callbacks t cb listed)

/-! ## Steps -/

/-- What was made goes on to have the token it was made with. -/
def Grows (s s' : State) : Prop := ∀ k t, (s.stages k).home = some t → (s'.stages k).home = some t

/-- After a step, what is called was on the token of its stage. -/
theorem Sane.next (sane : Sane s (call ::ₘ others)) (chains : Chains s') (grows : Grows s s')
    (made : ∀ cb t, .callback cb t ∈ calls → (s'.stages cb.stage).home = some t) :
    Sane s' (↑calls + others) := by
  refine ⟨chains, fun cb t member => ?_⟩
  rcases Multiset.mem_add.mp member with new | old
  · exact made cb t (Multiset.mem_coe.mp new)
  · exact grows _ _ (sane.called cb t (Multiset.mem_cons_of_mem old))

theorem grows_set {stage : Stage} (home : stage.home = (s.stages i).home) :
    Grows s (s.set i stage) := by
  intro k t some
  rcases eq_or_ne k i with rfl | other
  · simpa [State.set, home] using some
  · simpa [State.set, Function.update_of_ne other] using some

theorem Chains.grows_add {stage : Stage} (chains : Chains s) : Grows s (s.add stage) := by
  intro k t some
  have other : k ≠ s.next := by
    rintro rfl
    rw [(chains.fresh _ (Nat.le_refl _)).2] at some
    cases some
  simpa [State.add, State.set, Function.update_of_ne other] using some

/-- What an operation on a token calls was on the token, or is pushed on it. -/
theorem mem_onToken {op : CancelationToken Callback → CancelationToken Callback × List Callback}
    {cb : Callback} {t' : ℕ} (selected : .callback cb t' ∈ (onToken s t op).2) :
    t' = t ∧ cb ∈ (op (s.tokens t)).2 := by
  obtain ⟨cb', member, same⟩ := List.mem_map.mp selected
  cases same
  exact ⟨rfl, member⟩

/-- A push, a pop and a request leave on a token, and call, what was there or is pushed. -/
theorem mem_token_push {token : CancelationToken Callback} {cb pushed : Callback}
    (member : cb ∈ (token.pushCancelationCallback pushed).1.doCancels ∨
      cb ∈ (token.pushCancelationCallback pushed).2) : cb = pushed ∨ cb ∈ token.doCancels := by
  simp only [CancelationToken.pushCancelationCallback, List.mem_cons] at member
  rcases member with listed | called
  · exact listed
  · split at called
    · exact .inl (List.mem_singleton.mp called)
    · cases called

theorem mem_token_pop {token : CancelationToken Callback} {cb : Callback}
    (member : cb ∈ token.popCancelationCallback.1.doCancels ∨
      cb ∈ token.popCancelationCallback.2) : cb ∈ token.doCancels := by
  simp only [CancelationToken.popCancelationCallback] at member
  rcases member with listed | called
  · exact List.mem_of_mem_tail listed
  · split at called
    · exact List.mem_of_mem_tail (List.mem_of_mem_head? (by simpa using called))
    · cases called

theorem mem_token_requestCancel {token : CancelationToken Callback} {cb : Callback}
    (member : cb ∈ token.requestCancel.1.doCancels ∨ cb ∈ token.requestCancel.2) :
    cb ∈ token.doCancels := by
  rcases member with listed | called
  · exact listed
  · exact List.mem_of_mem_head? (by simpa [CancelationToken.requestCancel] using called)

/-- What a step may do with the tokens: the invariant is kept, and what it calls was on the
token of its stage. -/
structure Fine (s : State) (step : ChainStep) : Prop where
  chains : Chains step.1
  grows : Grows s step.1
  called : ∀ cb t, .callback cb t ∈ step.2 → (step.1.stages cb.stage).home = some t

theorem Fine.after {step : ChainStep} (fine : Fine s' step) (grows : Grows s s') : Fine s step :=
  ⟨fine.chains, fun k t some => fine.grows k t (grows k t some), fine.called⟩

/-- A step that calls no callback. -/
theorem Chains.fine (chains : Chains s') (grows : Grows s s')
    (quiet : ∀ cb t, .callback cb t ∉ calls) : Fine s (s', calls) :=
  ⟨chains, grows, fun cb t member => absurd member (quiet cb t)⟩

theorem Grows.refl : Grows s s := fun _ _ some => some

theorem Chains.fine_onToken
    {op : CancelationToken Callback → CancelationToken Callback × List Callback}
    (chains : Chains s) (listed : ∀ cb, cb ∈ (op (s.tokens t)).1.doCancels ∨
      cb ∈ (op (s.tokens t)).2 → (s.stages cb.stage).home = some t) :
    Fine s (BreakChain.onToken s t op) := by
  refine ⟨chains.onToken fun cb member => listed cb (.inl member), fun _ _ some => some,
    fun cb t' selected => ?_⟩
  obtain ⟨rfl, member⟩ := mem_onToken selected
  exact listed cb (.inr member)

theorem Chains.fine_push {c : Callback} (chains : Chains s)
    (home : (s.stages c.stage).home = some t) :
    Fine s (BreakChain.onToken s t (·.pushCancelationCallback c)) := by
  refine chains.fine_onToken fun other member => ?_
  rcases mem_token_push member with rfl | before
  · exact home
  · exact chains.callbacks t other before

theorem Chains.fine_pop {token : Option ℕ} (chains : Chains s) : Fine s (pop token s) := by
  unfold pop
  split
  · exact chains.fine .refl (by simp)
  · rename_i t
    exact chains.fine_onToken fun cb member => chains.callbacks t cb (mem_token_pop member)

theorem Chains.fine_requestCancel (chains : Chains s) : Fine s (requestCancel i s) := by
  unfold requestCancel
  split
  · exact chains.fine .refl (by simp)
  · rename_i t current
    have logged : Chains (s.log (.request i t)) := by
      refine chains.log (by simp) (by simp) fun q u same => ?_
      cases same
      exact current
    exact (logged.fine_onToken fun cb member =>
      chains.callbacks t cb (mem_token_requestCancel member)).after fun _ _ some => some

/-- What produces a stage sees the token the stage was made with. -/
theorem Chains.see {token : Option ℕ} (chains : Chains s)
    (home : ∀ t, token = some t → (s.stages k).home = some t) : Chains (see k token s) := by
  unfold BreakChain.see
  split
  · exact chains
  · rename_i t
    refine chains.log (by simp) (fun k' t' same => ?_) (by simp)
    cases same
    exact home t rfl

theorem Kept.home {stage : Stage} (kept : Kept stage) (some : stage.cancelationToken = some t) :
    stage.home = Option.some t := by
  rcases kept with none | same
  · rw [none] at some
    cases some
  · rw [← same, some]

/-- A callback is called by a request on the token of its stage. -/
theorem Chains.fine_callback {cb : Callback} (chains : Chains s)
    (home : (s.stages cb.stage).home = some t) : Fine s (callback cb t s) := by
  have logged (s' : State) (chains : Chains s') (home : (s'.stages cb.stage).home = some t) :
      Chains (s'.log (.see cb.stage t)) := by
    refine chains.log (by simp) (fun k u same => ?_) (by simp)
    cases same
    exact home
  cases cb with
  | inner k m => exact (logged s chains home).fine (fun _ _ some => some) (by simp)
  | canceler i =>
    simp only [callback]
    split
    · exact (logged s chains home).fine (fun _ _ some => some) (by simp)
    · have grown : Grows s (s.set i { s.stages i with isDone := true }) := grows_set rfl
      have changed : Chains (s.set i { s.stages i with isDone := true }) :=
        chains.set rfl rfl rfl rfl fun _ some => some
      refine (logged _ changed (grown i t home)).fine grown fun cb t member => ?_
      · simp only [List.mem_cons, List.not_mem_nil, or_false] at member
        rcases member with timed | last | last
        · split at timed <;> cases timed
        · cases last
        · cases last

/-- The canceler of an inner future is pushed on the token that the unwrapped future was
made with. -/
theorem Chains.fine_unwrapOuter (chains : Chains s) (kept : Kept (s.stages i)) :
    Fine s (unwrapOuter i m s) := by
  simp only [unwrapOuter]
  split
  · have changed : Chains (s.set i { s.stages i with isDone := true, inner := some (m, none) }) :=
      chains.set rfl rfl rfl rfl fun _ some => some
    exact changed.fine (grows_set rfl) (by simp)
  · have changed : Chains (s.set i { s.stages i with
        isDone := true, inner := some (m, (s.stages i).cancelationToken) }) :=
      chains.set rfl rfl rfl rfl fun _ some => some
    have grown : Grows s (s.set i { s.stages i with
        isDone := true, inner := some (m, (s.stages i).cancelationToken) }) := grows_set rfl
    split
    · exact changed.fine grown (by simp)
    · rename_i t current
      have home := grown i t (kept.home current)
      exact (changed.fine_push (c := .inner i m) home).after grown

theorem Chains.fine_run {step : ChainStep} (chains : Chains s)
    (unbroken : Unbroken s .user (.run i)) (ran : run i s = some step) : Fine s step := by
  have done : Chains (s.set i { s.stages i with isDone := true }) :=
    chains.set rfl rfl rfl rfl fun _ some => some
  have grown : Grows s (s.set i { s.stages i with isDone := true }) := grows_set rfl
  simp only [run] at ran
  split at ran
  · cases ran
    exact chains.fine .refl (by simp)
  · split at ran
    · cases ran
    · cases ran
      refine done.fine grown fun cb t member => ?_
      split at member <;> simp at member
    · cases ran
      exact done.fine grown (by simp)
    · split at ran
      · cases ran
      · cases ran
        exact done.fine grown (by simp)
    · rename_i unwraps
      split at ran
      · cases ran
        exact done.fine grown (by simp)
      · rename_i resolved
        cases ran
        rcases unbroken unwraps with kept | ⟨e, thrown⟩
        · exact chains.fine_unwrapOuter kept
        · rw [resolved] at thrown
          cases thrown
      · cases ran

/-- The beginning of a chain, with its canceler. -/
theorem Chains.fine_create {kind : Kind} (chains : Chains s) (token : t < s.nextToken) :
    Fine s (create kind t s) := by
  have made : Chains (s.add
      { kind, since := s.next, home := some t, cancelationToken := some t, future := some t,
        built := true }) :=
    chains.add ⟨by simp, Nat.le_refl _, fun u same => by cases same; exact token, by simp,
      by simp, by simp, by simp⟩
  simp only [create]
  split
  · refine (made.fine_push (c := .canceler s.next) ?_).after chains.grows_add
    simp [State.add, State.set, Callback.stage]
  · exact made.fine chains.grows_add (by simp)

/-- A stage that is attached to a future has the future's token. -/
theorem Chains.add_attached {stage : Stage} (chains : Chains s) (below : i < s.next)
    (parent : stage.parent = some i) (since : stage.since = s.next)
    (home : stage.home = (s.stages i).future)
    (current : ∀ t, stage.cancelationToken = some t ∨ stage.future = some t ∨
      stage.captured = some t → stage.home = some t) : Chains (s.add stage) := by
  have owns {t : ℕ} (some : stage.home = Option.some t) : Owns s i t :=
    chains.current i t (.inr (home ▸ some))
  refine chains.add ⟨?_, since.le, ?_, current, ?_, ?_, ?_⟩
  · intro p attached
    obtain rfl := Option.some.inj (parent.symm.trans attached)
    exact since ▸ below
  · exact fun t some => chains.owned i t (owns some)
  · intro p t attached some
    obtain rfl := Option.some.inj (parent.symm.trans attached)
    exact .inl (owns some)
  · intro i' n stages t broke attached _ some
    obtain rfl := Option.some.inj (parent.symm.trans attached)
    exact chains.latest i n stages t broke (.inr (home ▸ some))
  · intro u t stages v p broke some attached up down
    obtain rfl := Option.some.inj (parent.symm.trans attached)
    have own : (s.stages i).home = Option.some t := by
      refine (owns some).resolve_right fun ⟨stages', again⟩ => ?_
      have same := chains.unique _ _ _ _ _ broke again
      have lower : u < i := down.elim (fun same => same ▸ chains.above_lt up) fun further =>
        chains.above_lt (up.trans further)
      omega
    rcases down with rfl | further
    · exact own
    · exact chains.same u t stages i v broke own up further

/-- A stage that is attached to the future that a continuation is given has the token that
the continuation has kept. -/
theorem Chains.add_given {stage : Stage} (chains : Chains s) (below : i < s.next)
    (parent : stage.parent = (s.stages i).parent) (since : stage.since = (s.stages i).since)
    (home : stage.home = (s.stages i).home)
    (current : ∀ t, stage.cancelationToken = some t ∨ stage.future = some t ∨
      stage.captured = some t → stage.home = some t) : Chains (s.add stage) := by
  refine chains.add ⟨?_, since.trans_le ((chains.since i).trans below.le), ?_, current, ?_, ?_, ?_⟩
  · intro p attached
    rw [since]
    exact chains.parent i p (parent.symm.trans attached)
  · exact fun t some => chains.owned i t (.inl (home ▸ some))
  · intro p t attached some
    rw [since]
    exact chains.inherited p i t (parent.symm.trans attached) (home ▸ some)
  · exact fun i' n stages t broke attached late some =>
      chains.after i' n stages i t broke (parent.symm.trans attached) (since ▸ late)
        (home ▸ some)
  · intro u t stages v p broke some attached up down
    have step : Attached s p i := parent.symm.trans attached
    refine chains.same u t stages i v broke (home ▸ some) up ?_
    rcases down with rfl | further
    · exact .single step
    · exact further.tail step

/-- A stage with a token of its own. -/
theorem Chains.add_new {stage : Stage} (chains : Chains s)
    (parent : ∀ p, stage.parent = some p → p < stage.since) (since : stage.since ≤ s.next)
    (home : stage.home = some s.nextToken)
    (current : ∀ t, stage.cancelationToken = some t ∨ stage.future = some t ∨
      stage.captured = some t → stage.home = some t) :
    Chains ({ s with nextToken := s.nextToken + 1 }.add stage) := by
  have grown : Chains { s with nextToken := s.nextToken + 1 } :=
    chains.mono rfl (Nat.le_succ _) rfl (fun _ => ⟨rfl, rfl, rfl, rfl⟩) (fun _ _ some => some)
      chains.callbacks
  have newest {i n stages t : ℕ} (broke : .broke i n stages ∈ s.events)
      (some : stage.home = Option.some t) : n < t := by
    rw [home] at some
    cases some
    exact (chains.broke i n stages broke).2.2
  refine grown.add ⟨parent, since, ?_, current, ?_, ?_, ?_⟩
  · intro t some
    rw [home] at some
    cases some
    exact Nat.lt_succ_self _
  · exact fun p t _ some => .inr fun i n stages broke _ => (newest broke some).le
  · exact fun i n stages t broke _ _ some => (newest broke some).le
  · intro u t stages v p broke some _ _ _
    exact absurd (newest broke some) (Nat.lt_irrefl _)

theorem Chains.makeShared {stage : ℕ → Stage} {token : Option ℕ} (chains : Chains s)
    (given : ∀ t, token = some t → Chains (s.add (stage t)))
    (fresh : token = none → Chains ({ s with nextToken := s.nextToken + 1 }.add
      (stage s.nextToken))) :
    Chains (makeShared token stage s) ∧ Grows s (makeShared token stage s) := by
  cases token with
  | some t => exact ⟨given t rfl, chains.grows_add⟩
  | none =>
    refine ⟨fresh rfl, fun k t some => ?_⟩
    exact chains.grows_add k t some

theorem Chains.attach (given : Bool) (chains : Chains s) (below : i < s.next) :
    Chains (attach i given s) ∧ Grows s (attach i given s) := by
  apply chains.makeShared
  · intro t captured
    cases given with
    | false => exact chains.add_attached below rfl rfl captured.symm (by simp_all)
    | true =>
      exact chains.add_given below rfl rfl (chains.captured i t captured).symm (by simp_all)
  · intro captured
    cases given with
    | false =>
      exact chains.add_new (fun p same => by cases same; exact below) (Nat.le_refl _) rfl
        (by simp_all)
    | true =>
      exact chains.add_new (fun p attached => chains.parent i p attached)
        ((chains.since i).trans below.le) rfl (by simp_all)

theorem Chains.unwrap (chains : Chains s) (below : i < s.next) :
    Chains (unwrap i s).1 ∧ Grows s (unwrap i s).1 := by
  apply chains.makeShared
  · exact fun t future => chains.add_attached below rfl rfl future.symm (by simp)
  · exact fun _ => chains.add_new (fun p same => by cases same; exact below) (Nat.le_refl _) rfl
      (by simp)

/-- User code goes on after a step. -/
theorem Fine.user {step : ChainStep} (fine : Fine s step) : Fine s (step.1, step.2 ++ [.user]) :=
  ⟨fine.chains, fine.grows, fun cb t member => fine.called cb t (by simpa using member)⟩

theorem Chains.fine_user {step : ChainStep} (chains : Chains s)
    (unbroken : Unbroken s .user choice) (ran : user s choice = some step) : Fine s step := by
  cases choice with
  | «return» =>
    cases ran
    exact chains.fine .refl (by simp)
  | create kind given =>
    simp only [BreakChain.user] at ran
    split at ran
    · cases ran
    · split at ran
      · cases ran
        have grown : Chains { s with nextToken := s.nextToken + 1 } :=
          chains.mono rfl (Nat.le_succ _) rfl (fun _ => ⟨rfl, rfl, rfl, rfl⟩) (fun _ _ some => some)
            chains.callbacks
        have made : Fine s (create kind s.nextToken { s with nextToken := s.nextToken + 1 }) :=
          (grown.fine_create (Nat.lt_succ_self s.nextToken)).after fun _ _ some => some
        exact made.user
      · split at ran
        · rename_i valid
          cases ran
          exact (chains.fine_create valid.1).user
        · cases ran
  | attach i given =>
    simp only [BreakChain.user] at ran
    split at ran
    · rename_i valid
      cases ran
      obtain ⟨made, grown⟩ := chains.attach given valid.1
      exact made.fine grown (by simp)
    · cases ran
  | unwrap i =>
    simp only [BreakChain.user] at ran
    split at ran
    · rename_i valid
      cases ran
      obtain ⟨made, grown⟩ := chains.unwrap valid.1
      exact made.fine grown (by simp [BreakChain.unwrap])
    · cases ran
  | breakCancelationChain i =>
    simp only [BreakChain.user] at ran
    split at ran
    · rename_i valid
      cases ran
      exact (chains.breakCancelationChain valid.1).fine (grows_set (by rfl)) (by simp)
    · cases ran
  | requestCancel i =>
    simp only [BreakChain.user] at ran
    split at ran
    · cases ran
      exact chains.fine .refl (by simp)
    · cases ran
  | getCancelationToken i =>
    simp only [BreakChain.user] at ran
    split at ran
    · cases ran
      refine (chains.see fun t some => unbroken.home some).fine (fun k t some => ?_) (by simp)
      unfold BreakChain.see
      split <;> exact some
    · cases ran
  | resolve i r =>
    simp only [BreakChain.user] at ran
    split at ran
    · cases ran
      exact chains.fine .refl (by simp)
    · cases ran
  | run i =>
    simp only [BreakChain.user] at ran
    split at ran
    · obtain ⟨made, stepped, same⟩ := Option.map_eq_some_iff.mp ran
      cases same
      exact (chains.fine_run unbroken stepped).user
    · cases ran
  | innerReady i =>
    simp only [BreakChain.user] at ran
    split at ran
    · obtain ⟨r, -, same⟩ := Option.map_eq_some_iff.mp ran
      cases same
      have changed : Chains (s.set i { s.stages i with inner := none }) :=
        chains.set rfl rfl rfl rfl fun _ some => some
      exact changed.fine (grows_set rfl) (by simp)
    · cases ran
  | outcome r => cases ran

theorem Sane.fine (sane : Sane s (call ::ₘ others)) (fine : Fine s (s', calls)) :
    Sane s' (↑calls + others) :=
  sane.next fine.chains fine.grows fine.called

/-- Every step keeps the tokens of both sides apart. -/
theorem exec_step {thread : ℕ} (sane : Sane s (call ::ₘ others)) (unbroken : Unbroken s call choice)
    (ran : exec thread choice s call = some (s', calls)) : Sane s' (↑calls + others) := by
  cases call with
  | user => exact sane.fine (sane.chains.fine_user unbroken ran)
  | requestCancel i =>
    have made : requestCancel i s = (s', calls) := Option.some.inj ran
    exact sane.fine (made ▸ sane.chains.fine_requestCancel)
  | callback cb t =>
    have made : callback cb t s = (s', calls) := Option.some.inj ran
    have home := sane.called cb t (Multiset.mem_cons_self _ _)
    exact sane.fine (made ▸ sane.chains.fine_callback home)
  | pop t =>
    have made : pop t s = (s', calls) := Option.some.inj ran
    exact sane.fine (made ▸ sane.chains.fine_pop)
  | popCurrent i =>
    have made : pop (s.stages i).cancelationToken s = (s', calls) := Option.some.inj ran
    exact sane.fine (made ▸ sane.chains.fine_pop)
  | enter i =>
    cases ran
    refine sane.fine ((sane.chains.see fun t some => ?_).fine (fun k t some => ?_) (by simp))
    · split at some
      · exact sane.chains.captured i t some
      · rename_i kind
        exact (unbroken kind).home some
    · unfold see
      split <;> exact some
  | functionReturn i =>
    cases choice with
    | outcome r =>
      cases ran
      exact sane.fine (sane.chains.fine .refl (by simp))
    | _ => cases ran
  | finish i r =>
    cases ran
    have changed : Chains (s.set i { s.stages i with r := some r, cancelationToken := none }) :=
      sane.chains.set rfl rfl rfl rfl fun t some => some.elim (fun none => by cases none) .inr
    exact sane.fine (changed.fine (grows_set rfl) (by simp))
  | buildFuture i =>
    cases ran
    have changed : Chains (s.set i
        { s.stages i with future := (s.stages i).cancelationToken, built := true }) :=
      sane.chains.set rfl rfl rfl rfl fun t some => .inl (some.elim id id)
    exact sane.fine (changed.fine (grows_set rfl) (by simp))

/-! ## Runs -/

variable {threads : ℕ} {config : Config State ChainCall}

theorem sane_start : Sane (start threads).state (start threads).pending := by
  refine ⟨?_, fun cb t member => ?_⟩
  · constructor <;> simp [start, Owns, Attached]
  · rw [start, Config.pending_replicate] at member
    cases Multiset.eq_of_mem_replicate member

end Tconcurrent.BreakChain
