import Tconcurrent.SharedBaseThreadsPromises
import Mathlib.Algebra.Order.Group.Multiset

/-! The continuations of a shared state that threads use, and what its waiters find. -/
namespace Tconcurrent.SharedBaseThreads
open Monitor Builtins

variable {R : Type} {t t' : Local R} {s s' : State R}

/-! ## Continuations -/


namespace Local

/-- Whether it is the thread that has resolved the state, and posts what was registered. -/
def finishing (t : Local R) : ℕ :=
  match t.doing with
  | .posting _ true => 1
  | _ => 0

/-- The continuation that it posts itself. -/
def lateKs (t : Local R) : Multiset ℕ :=
  match t.doing with
  | .posting ks false => ks
  | _ => 0

end Local

namespace State

/-- What `finish` has posted, and what `then` has posted at once. -/
def finished (s : State R) : List ℕ := (s.posted.filter (·.2)).map Prod.fst

def postedLate (s : State R) : List ℕ := (s.posted.filter (!·.2)).map Prod.fst

end State

/-- What holds of the continuations and of what `get` has returned. -/
structure Posted (s : State R) (ts : List (Local R)) : Prop where
  one : total Local.finishing ts ≤ 1
  pending : s.r = none → s.thens = s.early ∧ s.posted = [] ∧ s.late = [] ∧
    total Local.finishing ts = 0
  order : ∀ t ∈ ts, ∀ ks, t.doing = .posting ks true → s.early = s.finished ++ ks
  ordered : s.r.isSome → total Local.finishing ts = 0 → s.early = s.finished
  late : (s.late : Multiset ℕ) = s.postedLate + total Local.lateKs ts
  got : ∀ t ∈ ts, ∀ r ∈ t.got, s.r = some r

section

variable {ts : List (Local R)} {i : ℕ}

theorem finishing_of_posting {ks : List ℕ} (posting : t.doing = .posting ks true) :
    t.finishing = 1 := by
  rw [Local.finishing, posting]

/-- Nothing is posted, and nothing of what was posted changes. -/
theorem Posted.steady (inv : Posted s ts) (at_i : ts[i]? = some t) (r : s'.r = s.r)
    (thens : s'.thens = s.thens) (early : s'.early = s.early) (late : s'.late = s.late)
    (posted : s'.posted = s.posted) (finishing : t'.finishing = t.finishing)
    (lateKs : t'.lateKs = t.lateKs)
    (doing : ∀ ks, t'.doing = .posting ks true → t.doing = .posting ks true)
    (got : ∀ r ∈ t'.got, s.r = some r) : Posted s' (ts.set i t') := by
  have total_finishing := total_set Local.finishing t' at_i
  have total_late := total_set Local.lateKs t' at_i
  rw [lateKs, add_left_inj] at total_late
  have same : total Local.finishing (ts.set i t') = total Local.finishing ts := by omega
  have finished : s'.finished = s.finished := by rw [State.finished, posted, State.finished]
  refine ⟨same ▸ inv.one, ?_, fun u member ks posting => ?_, ?_, ?_, fun u member => ?_⟩
  · rw [r, thens, early, posted, late, same]
    exact inv.pending
  · rw [early, finished]
    rcases List.mem_or_eq_of_mem_set member with old | rfl
    · exact inv.order u old ks posting
    · exact inv.order t (List.mem_of_getElem? at_i) ks (doing ks posting)
  · rw [r, early, finished, same]
    exact inv.ordered
  · rw [late, total_late, inv.late, State.postedLate, State.postedLate, posted]
  · rw [r]
    rcases List.mem_or_eq_of_mem_set member with old | rfl
    · exact inv.got u old
    · exact got

/-- The state is resolved, and its continuations are to be posted. -/
theorem Posted.finish (inv : Posted s ts) (at_i : ts[i]? = some t) (pending : s.r = none)
    (result : s'.r.isSome) (early : s'.early = s.early)
    (late : s'.late = s.late) (posted : s'.posted = s.posted) (lateKs : t.lateKs = 0)
    (doing : t'.doing = .posting s.thens true) (got : t'.got = t.got) :
    Posted s' (ts.set i t') := by
  obtain ⟨registered, nothing, -, none⟩ := inv.pending pending
  have total_finishing := total_set Local.finishing t' at_i
  have total_late := total_set Local.lateKs t' at_i
  have begun : t'.finishing = 1 := by simp [Local.finishing, doing]
  have own : t'.lateKs = 0 := by simp [Local.lateKs, doing]
  rw [lateKs, own, add_left_inj] at total_late
  have member := List.mem_of_getElem? at_i
  have before := le_total Local.finishing member
  have finished : s'.finished = [] := by rw [State.finished, posted, nothing]; rfl
  refine ⟨by omega, fun none => ?_, fun u of_ts ks posting => ?_, fun _ zero => by omega, ?_,
    fun u of_ts r returned => ?_⟩
  · rw [none] at result
    cases result
  · rcases List.mem_or_eq_of_mem_set of_ts with old | rfl
    · have one := le_total Local.finishing old
      rw [finishing_of_posting posting] at one
      omega
    · cases doing.symm.trans posting
      rw [finished, early, List.nil_append, registered]
  · rw [late, total_late, inv.late, State.postedLate, State.postedLate, posted]
  · have unset (r : Result R) : s.r ≠ some r := by simp [pending]
    rcases List.mem_or_eq_of_mem_set of_ts with old | rfl
    · exact absurd (inv.got u old r returned) (unset r)
    · exact absurd (inv.got t member r (got ▸ returned)) (unset r)

/-- Only one thread posts what was registered before there was a result. -/
theorem Posted.alone (inv : Posted s ts) (at_i : ts[i]? = some t) {ks : List ℕ}
    (posting : t.doing = .posting ks true) :
    ∀ u ∈ ts.set i t', ∀ ks', u.doing = .posting ks' true → u = t' := by
  intro u member ks' posting'
  obtain ⟨j, at_j⟩ := List.mem_iff_getElem?.mp member
  by_contra other
  have ne : i ≠ j := by
    rintro rfl
    have bound := (List.getElem?_eq_some_iff.mp at_i).1
    rw [List.getElem?_set_self bound] at at_j
    exact other (Option.some.inj at_j).symm
  rw [List.getElem?_set_ne ne] at at_j
  have rest : u ∈ ts.set i { t with doing := .nothing } :=
    List.mem_of_getElem? (by rw [List.getElem?_set_ne ne, at_j])
  have one := le_total Local.finishing rest
  have moved := total_set Local.finishing { t with doing := .nothing } at_i
  have bound := inv.one
  rw [finishing_of_posting posting'] at one
  have none : Local.finishing { t with doing := .nothing } = 0 := rfl
  have own := finishing_of_posting posting
  omega

/-- It posts nothing. -/
def Local.Silent (t : Local R) : Prop := ∀ ks finishing, t.doing ≠ .posting ks finishing

theorem Local.Silent.none (silent : t.Silent) : t.finishing = 0 ∧ t.lateKs = 0 := by
  unfold Local.finishing Local.lateKs
  cases doing : t.doing with
  | posting ks finishing => exact absurd doing (silent ks finishing)
  | nothing | loaded | dropped | breaking => exact ⟨rfl, rfl⟩

theorem Local.Idle.silent (idle : t.Idle) : t.Silent := by
  intro ks finishing posting
  rcases idle with nothing | ⟨count, loaded⟩
  · cases nothing.symm.trans posting
  · cases loaded.symm.trans posting

theorem Posted.silent (inv : Posted s ts) (at_i : ts[i]? = some t) (r : s'.r = s.r)
    (thens : s'.thens = s.thens) (early : s'.early = s.early) (late : s'.late = s.late)
    (posted : s'.posted = s.posted) (before : t.Silent) (after : t'.Silent)
    (got : ∀ r ∈ t'.got, s.r = some r) : Posted s' (ts.set i t') :=
  inv.steady at_i r thens early late posted (after.none.1.trans before.none.1.symm)
    (after.none.2.trans before.none.2.symm) (fun ks posting => absurd posting (after ks true)) got

theorem Posted.result (inv : Posted s ts) (member : t ∈ ts) {ks : List ℕ}
    (posting : t.doing = .posting ks true) : s.r ≠ none := by
  intro pending
  have own := le_total Local.finishing member
  rw [finishing_of_posting posting, (inv.pending pending).2.2.2] at own
  cases own

/-- The next continuation is posted, in the order in which they were registered. -/
theorem Posted.postFinishing (inv : Posted s ts) (at_i : ts[i]? = some t) {k : ℕ} {ks : List ℕ}
    (posting : t.doing = .posting (k :: ks) true) :
    Posted { s with posted := s.posted ++ [(k, true)] }
      (ts.set i { t with doing := .posting ks true }) := by
  have member := List.mem_of_getElem? at_i
  have moved := total_set Local.finishing { t with doing := .posting ks true } at_i
  have moved_late := total_set Local.lateKs { t with doing := .posting ks true } at_i
  have lateKs : t.lateKs = 0 := by simp [Local.lateKs, posting]
  rw [finishing_of_posting posting, finishing_of_posting rfl] at moved
  have same := add_right_cancel moved
  rw [lateKs, add_zero] at moved_late
  have finished (s : State R) :
      State.finished { s with posted := s.posted ++ [(k, true)] } = s.finished ++ [k] := by
    simp [State.finished]
  have late : State.postedLate { s with posted := s.posted ++ [(k, true)] } = s.postedLate := by
    simp [State.postedLate]
  refine ⟨same ▸ inv.one, fun pending => absurd pending (inv.result member posting),
    fun u of_ts ks' posting' => ?_, fun _ zero => ?_, ?_, fun u of_ts => ?_⟩
  · obtain rfl := inv.alone at_i posting u of_ts ks' posting'
    cases posting'
    rw [finished, List.append_assoc]
    exact inv.order t member (k :: ks) posting
  · have own := le_total Local.finishing member
    rw [finishing_of_posting posting, ← same, zero] at own
    cases own
  · rw [late, moved_late]
    exact inv.late.trans (congrArg _ (add_zero _).symm)
  · rcases List.mem_or_eq_of_mem_set of_ts with old | rfl
    · exact inv.got u old
    · exact inv.got t member

/-- A continuation that was registered later is posted. -/
theorem Posted.postLate (inv : Posted s ts) (at_i : ts[i]? = some t) {k : ℕ} {ks : List ℕ}
    (posting : t.doing = .posting (k :: ks) false) :
    Posted { s with posted := s.posted ++ [(k, false)] }
      (ts.set i { t with doing := .posting ks false }) := by
  have member := List.mem_of_getElem? at_i
  have moved := total_set Local.finishing { t with doing := .posting ks false } at_i
  have moved_late := total_set Local.lateKs { t with doing := .posting ks false } at_i
  have finishing : t.finishing = 0 := by simp [Local.finishing, posting]
  have lateKs : t.lateKs = {k} + (ks : Multiset ℕ) := by
    simp [Local.lateKs, posting]
  rw [finishing] at moved
  have same : total Local.finishing (ts.set i { t with doing := .posting ks false }) =
      total Local.finishing ts := moved
  have less : total Local.lateKs ts =
      {k} + total Local.lateKs (ts.set i { t with doing := .posting ks false }) := by
    rw [lateKs, ← add_assoc] at moved_late
    exact (add_right_cancel moved_late).symm.trans (add_comm _ _)
  have finished : State.finished { s with posted := s.posted ++ [(k, false)] } = s.finished := by
    simp [State.finished]
  have late : State.postedLate { s with posted := s.posted ++ [(k, false)] } =
      s.postedLate ++ [k] := by
    simp [State.postedLate]
  refine ⟨same ▸ inv.one, fun pending => ?_, fun u of_ts ks' posting' => ?_, fun result zero => ?_,
    ?_, fun u of_ts => ?_⟩
  · obtain ⟨-, -, nothing, -⟩ := inv.pending pending
    have none := inv.late
    rw [nothing, less] at none
    have k_mem : k ∈ ((s.postedLate : Multiset ℕ) + ({k} + total Local.lateKs
        (ts.set i { t with doing := .posting ks false }))) := by simp
    rw [← none] at k_mem
    cases k_mem
  · rw [finished]
    rcases List.mem_or_eq_of_mem_set of_ts with old | rfl
    · exact inv.order u old ks' posting'
    · cases posting'
  · rw [finished]
    exact inv.ordered result (same ▸ zero)
  · rw [late, ← Multiset.coe_add, add_assoc]
    exact inv.late.trans (congrArg _ less)
  · rcases List.mem_or_eq_of_mem_set of_ts with old | rfl
    · exact inv.got u old
    · exact inv.got t member

/-- All that was registered before is posted. -/
theorem Posted.postedAll (inv : Posted s ts) (at_i : ts[i]? = some t)
    (posting : t.doing = .posting [] true) :
    Posted s (ts.set i { t with doing := .nothing }) := by
  have member := List.mem_of_getElem? at_i
  have moved := total_set Local.finishing { t with doing := .nothing } at_i
  have moved_late := total_set Local.lateKs { t with doing := .nothing } at_i
  have lateKs : t.lateKs = 0 := by simp [Local.lateKs, posting]
  have none : Local.finishing { t with doing := .nothing } = 0 := rfl
  have none_late : Local.lateKs { t with doing := .nothing } = 0 := rfl
  rw [finishing_of_posting posting, none] at moved
  rw [lateKs, none_late] at moved_late
  have one := inv.one
  refine ⟨by omega, fun pending => absurd pending (inv.result member posting),
    fun u of_ts ks posting' => ?_, fun _ _ => ?_, ?_, fun u of_ts => ?_⟩
  · rcases List.mem_or_eq_of_mem_set of_ts with old | rfl
    · exact inv.order u old ks posting'
    · cases posting'
  · rw [inv.order t member [] posting, List.append_nil]
  · rw [add_right_cancel moved_late]
    exact inv.late
  · rcases List.mem_or_eq_of_mem_set of_ts with old | rfl
    · exact inv.got u old
    · exact inv.got t member

/-- What was registered before there was a result is posted in order. -/
theorem Posted.prefix (inv : Posted s ts) : s.finished <+: s.early := by
  cases result : s.r with
  | none =>
    rw [State.finished, (inv.pending result).2.1]
    exact List.nil_prefix
  | some r =>
    by_cases posts : ∃ t ∈ ts, ∃ ks, t.doing = .posting ks true
    · obtain ⟨t, member, ks, posting⟩ := posts
      rw [inv.order t member ks posting]
      exact List.prefix_append _ _
    · have zero : total Local.finishing ts = 0 := total_eq_zero fun t member => by
        unfold Local.finishing
        split
        · exact absurd ⟨t, member, _, ‹_›⟩ posts
        · rfl
      have same : s.early = s.finished := inv.ordered (by rw [result]; rfl) zero
      exact same ▸ List.prefix_rfl

theorem Posted.step (counted : Counted s ts) (inv : Posted s ts) (at_i : ts[i]? = some t)
    (does : Does t s t' s') : Posted s' (ts.set i t') := by
  have member := List.mem_of_getElem? at_i
  have got := inv.got t member
  cases does with
  | wait idle | skip idle =>
    exact inv.steady at_i rfl rfl rfl rfl rfl rfl rfl (fun _ => id) got
  | @get ops r idle first result =>
    refine inv.steady at_i rfl rfl rfl rfl rfl rfl rfl (fun _ => id) fun r' returned => ?_
    rcases List.mem_append.mp returned with old | new
    · exact got r' old
    · rw [result, List.mem_singleton.mp new]
  | @early k ops idle first pending =>
    obtain ⟨registered, nothing, late, zero⟩ := inv.pending pending
    have same := total_set Local.finishing { t with ops } at_i
    have same_late := total_set Local.lateKs { t with ops } at_i
    have zero' : total Local.finishing (ts.set i { t with ops }) = 0 :=
      (add_right_cancel same).trans zero
    refine ⟨zero' ▸ Nat.zero_le 1, fun _ => ⟨?_, nothing, late, zero'⟩,
      fun u of_ts ks posting => ?_, fun result => ?_, ?_, fun u of_ts => ?_⟩
    · show s.thens ++ [k] = s.early ++ [k]
      rw [registered]
    · have own := le_total Local.finishing of_ts
      rw [finishing_of_posting posting, zero'] at own
      cases own
    · rw [pending] at result
      cases result
    · exact inv.late.trans (congrArg _ (add_right_cancel same_late).symm)
    · rcases List.mem_or_eq_of_mem_set of_ts with old | rfl
      · exact inv.got u old
      · exact got
  | @late k ops r idle first result =>
    obtain ⟨finishing, lateKs⟩ := idle.silent.none
    have moved := total_set Local.finishing { t with ops, doing := .posting [k] false } at_i
    have moved_late := total_set Local.lateKs { t with ops, doing := .posting [k] false } at_i
    have same : total Local.finishing (ts.set i { t with ops, doing := .posting [k] false }) =
        total Local.finishing ts := by
      rw [finishing] at moved
      exact moved
    rw [lateKs, add_zero] at moved_late
    refine ⟨same ▸ inv.one, fun pending => ?_, fun u of_ts ks posting => ?_, fun _ zero => ?_, ?_,
      fun u of_ts => ?_⟩
    · cases result.symm.trans pending
    · rcases List.mem_or_eq_of_mem_set of_ts with old | rfl
      · exact inv.order u old ks posting
      · cases posting
    · exact inv.ordered (by rw [result]; rfl) (same ▸ zero)
    · show ((s.late ++ [k] : List ℕ) : Multiset ℕ) = s.postedLate + _
      rw [moved_late, ← add_assoc, ← inv.late]
      rfl
    · rcases List.mem_or_eq_of_mem_set of_ts with old | rfl
      · exact inv.got u old
      · exact got
  | load idle => exact inv.silent at_i rfl rfl rfl rfl rfl idle.silent (fun _ _ => by simp) got
  | fail loaded | increment loaded =>
    have silent := Local.Idle.silent (.inr ⟨_, loaded⟩)
    exact inv.silent at_i rfl rfl rfl rfl rfl silent (fun _ _ => by simp) got
  | @set r ops idle first holds =>
    have lateKs := idle.silent.none.2
    exact inv.finish at_i (counted.pending_of_set member first holds) rfl rfl rfl rfl lateKs rfl
      rfl
  | decrement idle first holds =>
    generalize decrement s.promiseCount = count
    refine inv.silent at_i rfl rfl rfl rfl rfl idle.silent (fun ks finishing => ?_) got
    simp only
    split <;> simp
  | check dropped =>
    refine inv.silent at_i rfl rfl rfl rfl rfl ?_ (fun ks finishing => ?_) got
    · exact fun ks finishing posting => by cases dropped.symm.trans posting
    · simp only
      split <;> simp
  | «break» breaking =>
    refine inv.finish at_i (counted.breaking t member breaking) rfl rfl rfl rfl ?_ rfl rfl
    simp [Local.lateKs, breaking]
  | @post k ks finishing posting =>
    cases finishing with
    | true => exact inv.postFinishing at_i posting
    | false => exact inv.postLate at_i posting
  | @posted finishing posting =>
    cases finishing with
    | true => exact inv.postedAll at_i posting
    | false =>
      refine inv.steady at_i rfl rfl rfl rfl rfl ?_ ?_ (by simp) got
      · simp [Local.finishing, posting]
      · simp [Local.lateKs, posting]

end

/-! ## Runs -/

/-- Threads that have a shared state, and hold all of its promises. -/
structure Starts (ts : List (Local R)) : Prop where
  fresh : ∀ t ∈ ts, t.doing = .nothing ∧ t.got = []
  some : 0 < total Local.holds ts
  room : total Local.holds ts + total Local.increments ts < 2 ^ 32
  sets : total Local.sets ts ≤ 1

def share (ts : List (Local R)) : Config (Local R) (State R) :=
  ⟨{ promiseCount := total Local.holds ts }, ts.map .outside⟩

variable {ts : List (Local R)} {config later : Config (Local R) (State R)}

theorem share_states : (share ts).states = ts := by
  simp [share, Config.states, Function.comp_def, Thread.state]

theorem Starts.counted (starts : Starts ts) :
    Counted { promiseCount := total Local.holds ts } ts := by
  have last : total Local.last ts = 0 :=
    total_eq_zero fun t member => by simp [Local.last, (starts.fresh t member).1]
  refine ⟨rfl, starts.room, fun t member count loaded => ?_, starts.sets, by simp, ?_, ?_, ?_,
    by simp, rfl⟩
  · cases (starts.fresh t member).1.symm.trans loaded
  · rw [last]
    exact Nat.zero_le _
  · exact fun none => absurd none starts.some.ne'
  · exact fun t member breaking => by cases (starts.fresh t member).1.symm.trans breaking

theorem Starts.posted (starts : Starts ts) :
    Posted { promiseCount := total Local.holds ts } ts := by
  have silent (t : Local R) (member : t ∈ ts) : t.Silent := fun ks finishing posting => by
    cases (starts.fresh t member).1.symm.trans posting
  have finishing : total Local.finishing ts = 0 :=
    total_eq_zero fun t member => (silent t member).none.1
  have lateKs : total Local.lateKs ts = 0 :=
    total_eq_zero fun t member => (silent t member).none.2
  refine ⟨finishing ▸ Nat.zero_le 1, fun _ => ⟨rfl, rfl, rfl, finishing⟩, ?_, by simp, ?_, ?_⟩
  · exact fun t member ks posting => absurd posting (silent t member ks true)
  · rw [lateKs]
    rfl
  · intro t member r returned
    rw [(starts.fresh t member).2] at returned
    cases returned

theorem Starts.invariant (starts : Starts ts) (reached : Reachable sharedBase (share ts) config) :
    Counted config.shared config.states ∧ Posted config.shared config.states := by
  refine reached.invariant (fun s ts => Counted s ts ∧ Posted s ts) ?_ ?_
  · rw [share_states]
    exact ⟨starts.counted, starts.posted⟩
  · intro s ts i t t' s' inv at_i entered
    have does := does_of_entered entered
    exact ⟨inv.1.step at_i does, inv.2.step inv.1 at_i does⟩

theorem share_told (reached : Reachable sharedBase (share ts) config) :
    Told sharedBase config := by
  refine reached.told_of_all sharedBase_announces ?_ ?_
  · intro t t' s s' notify ran
    rcases sharedBase_tells ran with rfl | ⟨rfl, -⟩ <;> simp
  · intro thread member
    obtain ⟨t, -, rfl⟩ := List.mem_map.mp member
    exact ⟨t, rfl⟩

/-- Once there is a result it stays, and once there is no promise there is none any more. -/
theorem Starts.kept (starts : Starts ts) (reached : Reachable sharedBase (share ts) config)
    (goesOn : Reachable sharedBase config later) :
    (config.shared.r.isSome → later.shared.r = config.shared.r) ∧
      (config.shared.promiseCount = 0 → later.shared.promiseCount = 0) := by
  induction goesOn with
  | start => exact ⟨fun _ => rfl, id⟩
  | @step mid after action goesOn stepped ih =>
    obtain ⟨counted, -⟩ := starts.invariant (reached.trans goesOn)
    rcases (stepped_of_step stepped).states with ⟨shared, -⟩ | ⟨i, t, t', at_i, entered, -⟩
    · rwa [shared]
    · have does := does_of_entered entered
      have member := List.mem_of_getElem? at_i
      refine ⟨fun result => ?_, fun none => counted.zero member does (ih.2 none)⟩
      have same := ih.1 result
      by_contra changes
      have pending := counted.first member does fun eq => changes (eq.trans same)
      rw [← same, pending] at result
      cases result

/-- **A shared state** is resolved once, by whoever sets it or by the last promise, and every
thread that uses it finds the same result.  Each continuation is posted once, and what was
registered before there was a result is posted in order.  When nobody has anything left to do, a
thread that still waits waits for a promise that is still there. -/
theorem shared_base_threads (starts : Starts ts)
    (reached : Reachable sharedBase (share ts) config) :
    config.shared.assertFailed = false ∧
      (config.shared.r = some .brokenPromise → config.shared.promiseCount = 0) ∧
      (∀ t ∈ config.states, ∀ r ∈ t.got, config.shared.r = some r) ∧
      (∀ later, Reachable sharedBase config later →
        (config.shared.r.isSome → later.shared.r = config.shared.r) ∧
        (config.shared.promiseCount = 0 → later.shared.promiseCount = 0)) ∧
      config.shared.finished <+: config.shared.early ∧
      (config.shared.postedLate : Multiset ℕ) ≤ config.shared.late ∧
      (config.Quiet sharedBase →
        (config.shared.r = none → config.shared.promiseCount ≠ 0 ∧
          ∀ t ∈ config.states, t.ops = [] ∨ ∃ ops, t.ops = .get :: ops) ∧
        (config.shared.r.isSome → config.shared.finished = config.shared.early ∧
          (config.shared.postedLate : Multiset ℕ) = config.shared.late ∧
          ∀ t ∈ config.states, t.ops = [])) := by
  obtain ⟨counted, posted⟩ := starts.invariant reached
  refine ⟨counted.asserts, counted.lost, posted.got,
    fun later goesOn => starts.kept reached goesOn, ?_, ?_, fun quiet => ?_⟩
  · exact posted.prefix
  · rw [posted.late]
    exact Multiset.le_add_right _ _
  · have rests (t : Local R) (member : t ∈ config.states) :
        t.Idle ∧ (t.ops = [] ∨ config.shared.r = none ∧ ∃ ops, t.ops = .get :: ops) := by
      rcases (share_told reached).state_quiet quiet member with finished | blocked
      · obtain ⟨idle, none⟩ := sharedBase_none.mp finished
        exact ⟨idle, .inl none⟩
      · obtain ⟨idle, pending, waits⟩ := sharedBase_blocked.mp blocked
        exact ⟨idle, .inr ⟨pending, waits⟩⟩
    have silent (t : Local R) (member : t ∈ config.states) := (rests t member).1.silent.none
    refine ⟨fun pending => ⟨fun none => ?_, fun t member => (rests t member).2.imp_right And.right⟩,
      fun result => ⟨?_, ?_, fun t member => ?_⟩⟩
    · have some := counted.broken none (total_eq_zero fun t member => (rests t member).1.last)
      rw [pending] at some
      cases some
    · exact (posted.ordered result (total_eq_zero fun t member => (silent t member).1)).symm
    · rw [posted.late, total_eq_zero fun t member => (silent t member).2, add_zero]
    · refine (rests t member).2.resolve_right fun waits => ?_
      rw [waits.1] at result
      cases result

/-- One thread sets the state, one waits for it, and one has a continuation. -/
def threeThreads : List (Local ℕ) :=
  [{ ops := [.set 7, .drop], holds := 1 }, { ops := [.get] }, { ops := [.then 5] }]

/-- They are done. -/
def threeDone : Config (Local ℕ) (State ℕ) where
  shared := {
    r := some (.set 7)
    promiseCount := 0
    posted := [(5, true)]
    early := [5] }
  threads :=
    [.outside { ops := [] }, .outside { ops := [], got := [.set 7] }, .outside { ops := [] }]

theorem threeThreads_run : (share threeThreads).run sharedBase
    [.run 2, .run 1, .notify 2 none, .run 0, .notify 0 none, .run 1, .run 0, .notify 0 none,
      .notify 1 none, .run 0, .notify 0 none, .run 0, .notify 0 none, .run 0, .notify 0 none] =
    some threeDone := rfl

theorem threeDone_finished : threeDone.shared.finished = threeDone.shared.early := by
  have starts : Starts threeThreads := by
    refine ⟨fun t member => ?_, by decide, by decide, by decide⟩
    simp only [threeThreads, List.mem_cons, List.not_mem_nil, or_false] at member
    rcases member with rfl | rfl | rfl <;> exact ⟨rfl, rfl⟩
  have quiet : threeDone.Quiet sharedBase := by
    intro thread member
    simp only [threeDone, List.mem_cons, List.not_mem_nil, or_false] at member
    rcases member with rfl | rfl | rfl <;> rfl
  have holds := shared_base_threads starts (reachable_of_run threeThreads_run)
  exact ((holds.2.2.2.2.2.2 quiet).2 rfl).1

end Tconcurrent.SharedBaseThreads
