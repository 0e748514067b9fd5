import Tconcurrent.SharedBaseThreads

/-! The promises of a shared state that threads use: the count is that of the promises, and the
state is resolved at most once. -/
namespace Tconcurrent.SharedBaseThreads
open Monitor Builtins

variable {R : Type} {t t' : Local R} {s s' : State R}

namespace Local

/-- How many promises it may still add. -/
def increments (t : Local R) : ℕ := t.ops.countP Op.isIncrement

/-- How often it may still set the state. -/
def sets (t : Local R) : ℕ := t.ops.countP Op.isSet

/-- Whether it has destroyed the last promise, and looks after the result. -/
def last (t : Local R) : ℕ := if t.doing = .dropped ∨ t.doing = .breaking then 1 else 0

end Local

def total {M : Type} [AddCommMonoid M] (f : Local R → M) (ts : List (Local R)) : M :=
  (ts.map f).sum

/-- What holds of a thread that has read the count. -/
def Local.Loaded (t : Local R) (count : ℕ) : Prop :=
  ∃ op ops, t.ops = op :: ops ∧ op.isIncrement = true ∧
    (op = .copy → count ≠ 0 ∧ t.holds ≠ 0)

/-- What holds of the promises and of the result. -/
structure Counted (s : State R) (ts : List (Local R)) : Prop where
  counted : s.promiseCount = total Local.holds ts
  room : s.promiseCount + total Local.increments ts < 2 ^ 32
  loaded : ∀ t ∈ ts, ∀ count, t.doing = .loaded count → t.Loaded count
  sets : total Local.sets ts ≤ 1
  /-- Nobody can set the state any more. -/
  unset : s.r.isSome → total Local.sets ts = 0 ∨ s.promiseCount = 0
  last : total Local.last ts ≤ if s.promiseCount = 0 then 1 else 0
  broken : s.promiseCount = 0 → total Local.last ts = 0 → s.r.isSome
  breaking : ∀ t ∈ ts, t.doing = .breaking → s.r = none
  /-- A promise is broken when it is the last one. -/
  lost : s.r = some .brokenPromise → s.promiseCount = 0
  asserts : s.assertFailed = false

section

variable {ts : List (Local R)} {i : ℕ}

theorem le_total (f : Local R → ℕ) (member : t ∈ ts) : f t ≤ total f ts :=
  List.single_le_sum (fun _ _ => Nat.zero_le _) _ (List.mem_map_of_mem member)

theorem total_eq_zero {M : Type} [AddCommMonoid M] {f : Local R → M} (none : ∀ t ∈ ts, f t = 0) :
    total f ts = 0 := by
  refine List.sum_eq_zero fun m member => ?_
  obtain ⟨t, of_ts, rfl⟩ := List.mem_map.mp member
  exact none t of_ts

theorem total_set {M : Type} [AddCommMonoid M] (f : Local R → M) (t' : Local R)
    (at_i : ts[i]? = some t) :
    total f (ts.set i t') + f t = total f ts + f t' :=
  sum_map_set f t' at_i

theorem Local.Idle.last (idle : t.Idle) : t.last = 0 := by
  rcases idle with nothing | ⟨count, loaded⟩
  · simp [Local.last, nothing]
  · simp [Local.last, loaded]

/-- What a step has to keep of its own thread. -/
theorem Counted.change (inv : Counted s ts) (at_i : ts[i]? = some t)
    (counted : s'.promiseCount + t.holds = s.promiseCount + t'.holds)
    (room : s'.promiseCount + t'.increments ≤ s.promiseCount + t.increments)
    (loaded : ∀ count, t'.doing = .loaded count → t'.Loaded count) (sets : t'.sets ≤ t.sets)
    (unset : s'.r.isSome → (s.r.isSome ∧ (s.promiseCount = 0 → s'.promiseCount = 0)) ∨
      total Local.sets ts + t'.sets = t.sets ∨ s'.promiseCount = 0)
    (last : total Local.last ts + t'.last ≤ t.last + if s'.promiseCount = 0 then 1 else 0)
    (broken : s'.promiseCount = 0 → total Local.last ts + t'.last = t.last → s'.r.isSome)
    (breaking : ∀ u ∈ ts.set i t', u.doing = .breaking → s'.r = none)
    (lost : s'.r = some .brokenPromise → s'.promiseCount = 0)
    (asserts : s'.assertFailed = false) : Counted s' (ts.set i t') := by
  have member := List.mem_of_getElem? at_i
  have set_by := le_total Local.sets member
  have total_holds := total_set Local.holds t' at_i
  have total_increments := total_set Local.increments t' at_i
  have total_sets := total_set Local.sets t' at_i
  have total_last := total_set Local.last t' at_i
  refine ⟨?_, ?_, ?_, le_trans (by omega) inv.sets, fun some => ?_, by omega, fun none last => ?_,
    breaking, lost, asserts⟩
  · have before := inv.counted
    omega
  · have before := inv.room
    omega
  · intro u member count doing
    rcases List.mem_or_eq_of_mem_set member with old | rfl
    · exact inv.loaded u old count doing
    · exact loaded count doing
  · rcases unset some with ⟨before, none⟩ | done | none
    · rcases inv.unset before with done | zero
      · exact .inl (by omega)
      · exact .inr (none zero)
    · exact .inl (by omega)
    · exact .inr none
  · exact broken none (by omega)

/-- A step that leaves the result and the promises as they are. -/
theorem Counted.steady (inv : Counted s ts) (at_i : ts[i]? = some t) (r : s'.r = s.r)
    (count : s'.promiseCount = s.promiseCount) (asserts : s'.assertFailed = s.assertFailed)
    (holds : t'.holds = t.holds) (increments : t'.increments ≤ t.increments)
    (sets : t'.sets ≤ t.sets) (last : t'.last = t.last)
    (loaded : ∀ count, t'.doing = .loaded count → t'.Loaded count)
    (breaking : t'.doing ≠ .breaking) : Counted s' (ts.set i t') := by
  refine inv.change at_i (by rw [count, holds]) (by omega) loaded sets (fun some => .inl ?_) ?_ ?_
    (fun u member doing => ?_) (fun broken => count.trans (inv.lost (r.symm.trans broken)))
    (asserts.trans inv.asserts)
  · exact ⟨r ▸ some, fun none => count.trans none⟩
  · have before := inv.last
    rw [count]
    omega
  · intro none same
    rw [r]
    exact inv.broken (count ▸ none) (by omega)
  · rw [r]
    rcases List.mem_or_eq_of_mem_set member with old | rfl
    · exact inv.breaking u old doing
    · exact absurd doing breaking

/-- What is neither `try_lock` nor a copy begins with nothing read. -/
theorem Counted.nothing (inv : Counted s ts) (member : t ∈ ts) (idle : t.Idle) {op : Op R}
    {ops : List (Op R)} (first : t.ops = op :: ops)
    (other : op.isIncrement = false ∨ op = .copy ∧ t.holds = 0) : t.doing = .nothing := by
  rcases idle with nothing | ⟨count, loaded⟩
  · exact nothing
  · obtain ⟨op', ops', first', increments, copy⟩ := inv.loaded t member count loaded
    cases first.symm.trans first'
    rcases other with other | ⟨isCopy, none⟩
    · rw [increments] at other
      cases other
    · exact absurd none (copy isCopy).2

theorem fewer {op : Op R} {ops : List (Op R)} (first : t.ops = op :: ops) (p : Op R → Bool) :
    ops.countP p ≤ t.ops.countP p := by
  rw [first]
  exact (List.sublist_cons_self op ops).countP_le

theorem last_of_breaking (breaking : t.doing = .breaking) : t.last = 1 := by
  simp [Local.last, breaking]

/-- Nobody breaks a promise as long as there is one. -/
theorem Counted.unbroken (inv : Counted s ts) (some : s.promiseCount ≠ 0) :
    total Local.last ts = 0 ∧ ∀ u ∈ ts, u.doing ≠ .breaking := by
  have last := inv.last
  rw [if_neg some] at last
  refine ⟨by omega, fun u member breaking => ?_⟩
  have one := le_total Local.last member
  rw [last_of_breaking breaking] at one
  omega

theorem Counted.holder (inv : Counted s ts) (member : t ∈ ts) (holds : t.holds ≠ 0) :
    s.promiseCount ≠ 0 := by
  have bound := le_total Local.holds member
  rw [inv.counted]
  omega

theorem sets_of_set {r : R} {ops : List (Op R)} (first : t.ops = .set r :: ops) :
    ops.countP Op.isSet + 1 = t.sets := by
  rw [Local.sets, first, List.countP_cons]
  rfl

theorem Counted.pending_of_set (inv : Counted s ts) (member : t ∈ ts) {r : R} {ops : List (Op R)}
    (first : t.ops = .set r :: ops) (holds : t.holds ≠ 0) : s.r = none := by
  have some := inv.holder member holds
  have one := sets_of_set first
  have set_by := le_total Local.sets member
  rw [← Option.not_isSome_iff_eq_none]
  intro result
  have unset := inv.unset result
  omega

/-- A thread that has not gone on to break the promise keeps what holds of those that have. -/
theorem Counted.still_breaking (inv : Counted s ts) (r : s'.r = s.r) (doing : t'.doing ≠ .breaking) :
    ∀ u ∈ ts.set i t', u.doing = .breaking → s'.r = none := by
  intro u of_ts breaking
  rcases List.mem_or_eq_of_mem_set of_ts with old | rfl
  · exact r.trans (inv.breaking u old breaking)
  · exact absurd breaking doing

/-- Nobody breaks the promise while there is one. -/
theorem Counted.none_breaking (inv : Counted s ts) (some : s.promiseCount ≠ 0)
    (doing : t'.doing ≠ .breaking) : ∀ u ∈ ts.set i t', u.doing = .breaking → s'.r = none := by
  intro u of_ts breaking
  rcases List.mem_or_eq_of_mem_set of_ts with old | rfl
  · exact absurd breaking ((inv.unbroken some).2 u old)
  · exact absurd breaking doing

/-- A promise is added. -/
theorem Counted.increment {op : Op R} {ops : List (Op R)} (inv : Counted s ts)
    (at_i : ts[i]? = some t) (loaded : t.doing = .loaded s.promiseCount)
    (some : s.promiseCount ≠ 0) (first : t.ops = op :: ops) (increments : op.isIncrement = true) :
    Counted { s with promiseCount := Builtins.increment s.promiseCount }
      (ts.set i { t with ops, doing := .nothing, holds := t.holds + 1 }) := by
  have member := List.mem_of_getElem? at_i
  have idle : t.last = 0 := Local.Idle.last (.inr ⟨_, loaded⟩)
  obtain ⟨last, -⟩ := inv.unbroken some
  have one : ops.countP Op.isIncrement + 1 = t.increments := by
    rw [Local.increments, first, List.countP_cons, increments, if_pos rfl]
  have more := le_total Local.increments member
  have room := inv.room
  have next : Builtins.increment s.promiseCount = s.promiseCount + 1 := increment_of (by omega)
  have after : Local.last { t with ops, doing := .nothing, holds := t.holds + 1 } = 0 := by
    simp [Local.last]
  refine inv.change at_i ?_ ?_ (by simp) (fewer first _) ?_ ?_ ?_
    (inv.none_breaking some (by simp)) (fun broken => absurd (inv.lost broken) some) inv.asserts
  · show Builtins.increment s.promiseCount + t.holds = s.promiseCount + (t.holds + 1)
    omega
  · show Builtins.increment s.promiseCount + ops.countP Op.isIncrement ≤
      s.promiseCount + t.increments
    omega
  · exact fun result => .inl ⟨result, fun none => absurd none some⟩
  · omega
  · exact fun none => absurd (next.symm.trans none) (Nat.succ_ne_zero _)

/-- A thread that has a promise sets the state. -/
theorem Counted.set {r : R} {ops : List (Op R)} (inv : Counted s ts) (at_i : ts[i]? = some t)
    (first : t.ops = .set r :: ops) (holds : t.holds ≠ 0) :
    Counted { s with r := some (.set r), thens := [], assertFailed := s.assertFailed || s.r.isSome }
      (ts.set i { t with ops, doing := .posting s.thens true }) := by
  have member := List.mem_of_getElem? at_i
  have some := inv.holder member holds
  obtain ⟨last, -⟩ := inv.unbroken some
  have one := sets_of_set first
  have sets := inv.sets
  have set_by := le_total Local.sets member
  have pending := inv.pending_of_set member first holds
  have after : Local.last { t with ops, doing := .posting s.thens true } = 0 := by
    simp [Local.last]
  refine inv.change at_i rfl ?_ (by simp) (fewer first _) ?_ ?_ (fun _ _ => rfl)
    (inv.none_breaking some (by simp)) (by simp) ?_
  · exact Nat.add_le_add_left (fewer first Op.isIncrement) _
  · refine fun _ => .inr (.inl ?_)
    show total Local.sets ts + ops.countP Op.isSet = t.sets
    omega
  · omega
  · rw [pending, inv.asserts]
    rfl

/-- A promise is given up; whoever gave up the last one looks after the result. -/
theorem Counted.decrement {ops : List (Op R)} (inv : Counted s ts) (at_i : ts[i]? = some t)
    (idle : t.Idle) (first : t.ops = .drop :: ops) (holds : t.holds ≠ 0) :
    Counted { s with
        promiseCount := Builtins.decrement s.promiseCount
        assertFailed := s.assertFailed || s.promiseCount == 0 }
      (ts.set i { t with
        ops
        holds := t.holds - 1
        doing := if Builtins.decrement s.promiseCount = 0 then .dropped else .nothing }) := by
  have member := List.mem_of_getElem? at_i
  have some := inv.holder member holds
  obtain ⟨last, -⟩ := inv.unbroken some
  rw [decrement_of (Nat.pos_of_ne_zero some)]
  have after : Local.last { t with
      ops
      holds := t.holds - 1
      doing := if s.promiseCount - 1 = 0 then .dropped else .nothing } =
        if s.promiseCount - 1 = 0 then 1 else 0 := by
    simp only [Local.last]
    split <;> simp_all
  refine inv.change at_i ?_ ?_ ?_ (fewer first _) ?_ ?_ ?_ (inv.none_breaking some ?_)
    (fun broken => absurd (inv.lost broken) some) ?_
  · show s.promiseCount - 1 + t.holds = s.promiseCount + (t.holds - 1)
    omega
  · have fewer := fewer first Op.isIncrement
    show s.promiseCount - 1 + ops.countP Op.isIncrement ≤ s.promiseCount + t.increments
    rw [Local.increments]
    omega
  · intro count
    show (if s.promiseCount - 1 = 0 then Doing.dropped else .nothing) = _ → _
    split <;> simp
  · exact fun result => .inl ⟨result, fun none => absurd none some⟩
  · rw [after, last, zero_add]
    exact Nat.le_add_left _ _
  · intro none
    rw [after, if_pos none, idle.last]
    omega
  · show (if s.promiseCount - 1 = 0 then Doing.dropped else .nothing) ≠ _
    split <;> simp
  · rw [inv.asserts]
    simpa using some

/-- While one thread looks after the result, there is no promise and no other such thread. -/
theorem Counted.looks_after (inv : Counted s ts) (member : t ∈ ts) (last : t.last = 1) :
    s.promiseCount = 0 ∧ total Local.last ts = 1 := by
  have one := le_total Local.last member
  have bound := inv.last
  have none : s.promiseCount = 0 := by
    by_contra some
    rw [if_neg some] at bound
    omega
  rw [if_pos none] at bound
  exact ⟨none, by omega⟩

/-- Whoever gave up the last promise finds the state resolved, or breaks the promise. -/
theorem Counted.check (inv : Counted s ts) (at_i : ts[i]? = some t) (dropped : t.doing = .dropped) :
    Counted s (ts.set i { t with doing := if s.r.isNone then .breaking else .nothing }) := by
  have last : t.last = 1 := by simp [Local.last, dropped]
  obtain ⟨none, one⟩ := inv.looks_after (List.mem_of_getElem? at_i) last
  cases result : s.r with
  | none =>
    have after : Local.last { t with doing := .breaking } = 1 := by simp [Local.last]
    refine inv.change at_i rfl (le_refl _) (by simp) (le_refl _) ?_ ?_ ?_ ?_ inv.lost inv.asserts
    · exact fun _ => .inr (.inr none)
    · rw [if_pos none]
      show total Local.last ts + Local.last { t with doing := .breaking } ≤ _
      omega
    · intro _ same
      have zero : total Local.last ts + Local.last { t with doing := .breaking } = t.last := same
      omega
    · exact fun _ _ _ => result
  | some r =>
    have after : Local.last { t with doing := .nothing } = 0 := by simp [Local.last]
    refine inv.change at_i rfl (le_refl _) (by simp) (le_refl _) ?_ ?_ ?_
      (inv.still_breaking rfl (by simp)) inv.lost inv.asserts
    · exact fun _ => .inr (.inr none)
    · rw [if_pos none]
      show total Local.last ts + Local.last { t with doing := .nothing } ≤ _
      omega
    · exact fun _ _ => by simp [result]

theorem Counted.break (inv : Counted s ts) (at_i : ts[i]? = some t)
    (breaking : t.doing = .breaking) :
    Counted { s with
        r := some .brokenPromise
        thens := []
        assertFailed := s.assertFailed || s.r.isSome }
      (ts.set i { t with doing := .posting s.thens true }) := by
  have member := List.mem_of_getElem? at_i
  have pending := inv.breaking t member breaking
  have last := last_of_breaking breaking
  obtain ⟨none, one⟩ := inv.looks_after member last
  have after : Local.last { t with doing := .posting s.thens true } = 0 := by simp [Local.last]
  refine inv.change at_i rfl (le_refl _) (by simp) (le_refl _) ?_ ?_ (fun _ _ => rfl) ?_
    (fun _ => none) ?_
  · exact fun _ => .inr (.inr none)
  · omega
  · refine fun u of_ts doing => ?_
    have total_last := total_set Local.last { t with doing := .posting s.thens true } at_i
    have other := le_total Local.last of_ts
    rw [last_of_breaking doing] at other
    omega
  · rw [pending, inv.asserts]
    rfl

/-- An assertion that a copy is made of a promise does not fail. -/
theorem Counted.fail {op : Op R} {ops : List (Op R)} {asserted : Bool} (inv : Counted s ts)
    (at_i : ts[i]? = some t) (loaded : t.doing = .loaded 0) (first : t.ops = op :: ops)
    (copy : asserted = true → op = .copy) :
    Counted { s with assertFailed := s.assertFailed || asserted }
      (ts.set i { t with ops, doing := .nothing }) := by
  have last : t.last = 0 := Local.Idle.last (.inr ⟨0, loaded⟩)
  refine inv.steady at_i rfl rfl ?_ rfl (fewer first _) (fewer first _) ?_ ?_ ?_
  · obtain ⟨op', ops', first', -, copied⟩ := inv.loaded t (List.mem_of_getElem? at_i) 0 loaded
    cases first.symm.trans first'
    cases asserted with
    | false => exact Bool.or_false _
    | true => exact absurd rfl (copied (copy rfl)).1
  · rw [last]
    simp [Local.last]
  · simp
  · simp

/-- **One step keeps the invariant.** -/
theorem Counted.step (inv : Counted s ts) (at_i : ts[i]? = some t) (does : Does t s t' s') :
    Counted s' (ts.set i t') := by
  have member := List.mem_of_getElem? at_i
  cases does with
  | wait idle first pending =>
    have nothing := inv.nothing member idle first (.inl rfl)
    refine inv.steady at_i rfl rfl rfl rfl (le_refl _) (le_refl _) rfl ?_ ?_ <;> simp [nothing]
  | get idle first | early idle first | late idle first =>
    have nothing := inv.nothing member idle first (.inl rfl)
    refine inv.steady at_i rfl rfl rfl rfl (fewer first _) (fewer first _) ?_ ?_ ?_ <;>
      simp [nothing, Local.last]
  | @skip op ops idle first other none =>
    have kind : op.isIncrement = false ∨ op = .copy ∧ t.holds = 0 := by
      cases increments : op.isIncrement with
      | false => exact .inl rfl
      | true => exact .inr ⟨other increments, none⟩
    have nothing := inv.nothing member idle first kind
    refine inv.steady at_i rfl rfl rfl rfl (fewer first _) (fewer first _) rfl ?_ ?_ <;>
      simp [nothing]
  | load idle first increments holds =>
    have last := idle.last
    refine inv.steady at_i rfl rfl rfl rfl (le_refl _) (le_refl _) ?_ ?_ ?_
    · rw [last]
      simp [Local.last]
    · rintro _ ⟨⟩
      refine ⟨_, _, first, increments, fun copy => ⟨?_, holds copy⟩⟩
      exact inv.holder member (holds copy)
    · simp
  | fail loaded first copy => exact inv.fail at_i loaded first copy
  | increment loaded some first increments => exact inv.increment at_i loaded some first increments
  | set idle first holds => exact inv.set at_i first holds
  | decrement idle first holds => exact inv.decrement at_i idle first holds
  | check dropped => exact inv.check at_i dropped
  | «break» breaking => exact inv.break at_i breaking
  | post posting | posted posting =>
    refine inv.steady at_i rfl rfl rfl rfl (le_refl _) (le_refl _) ?_ ?_ ?_ <;>
      simp [posting, Local.last]

/-- Whoever resolves the state is the first one. -/
theorem Counted.first (inv : Counted s ts) (member : t ∈ ts) (does : Does t s t' s')
    (changes : s'.r ≠ s.r) : s.r = none := by
  cases does with
  | set idle first holds => exact inv.pending_of_set member first holds
  | «break» breaking => exact inv.breaking t member breaking
  | _ => exact absurd rfl changes

theorem Counted.zero (inv : Counted s ts) (member : t ∈ ts) (does : Does t s t' s')
    (none : s.promiseCount = 0) : s'.promiseCount = 0 := by
  cases does with
  | increment loaded some => exact absurd none some
  | decrement idle first holds => exact absurd none (inv.holder member holds)
  | _ => exact none

end

end Tconcurrent.SharedBaseThreads
