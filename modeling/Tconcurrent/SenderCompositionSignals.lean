import Mathlib.Algebra.Order.BigOperators.Group.Finset
import Tconcurrent.SenderComposition

/-! Compositions of senders signal exactly once.

There is always one stage that is still able to signal: a call on its way through the
composition, or a leaf that has not fired.  A canceler is installed only while that
stage is a leaf, or the signal of one that has not reset the token yet.

This fails when the timer of an `async_wait` runs before its `submit` has set the
canceler: the canceler then comes too late and may meet that of the next leaf. -/
namespace Tconcurrent.SenderComposition
open Interleaving

variable {s s' : State} {others pending : Multiset SenderCall} {call : SenderCall}
  {calls : List SenderCall} {choice : Choice} {i : ℕ} {r : Receiver}

/-- No timer of an `async_wait` runs before the canceler is set. -/
def FiresInstalled (s : State) (_ : SenderCall) (choice : Choice) : Prop :=
  ∀ i sig, choice = .fire i sig → (s.leaves i).kind = .asyncWait → (s.leaves i).installed = true

/-- The calls that are on their way to a signal, or make one. -/
def able : SenderCall → ℕ
  | .submit .. | .signal .. | .check .. | .enter .. | .function .. | .asyncFunction .. => 1
  | _ => 0

/-- Those that have not reset the token yet. -/
def early : SenderCall → ℕ
  | .signal .. | .check .. | .enter .. => 1
  | _ => 0

def installs (i : ℕ) : SenderCall → ℕ
  | .setCanceler j => if j = i then 1 else 0
  | _ => 0

/-- How many leaves have not fired. -/
def unfired (s : State) : ℕ := ∑ i ∈ Finset.range s.next, (!(s.leaves i).fired).toNat

/-- A composition that was submitted has signalled once, or is able to, once. -/
structure SignalsOnce (config : Config State SenderCall) : Prop where
  once : config.state.signals.length + weight able config.pending + unfired config.state =
    config.state.submitted.toNat
  entered : ∀ requested ∈ config.state.entered, requested = false
  asserts : config.state.assertFailed = false

/-- A leaf whose canceler is still to be set. -/
def Bare (s : State) (i : ℕ) : Prop :=
  i < s.next ∧ (s.leaves i).fired = false ∧ (s.leaves i).installed = false

instance (s : State) (i : ℕ) : Decidable (Bare s i) := inferInstanceAs (Decidable (_ ∧ _ ∧ _))

/-- What is known where a call is made. -/
def Fits (s : State) : SenderCall → Prop
  | .arm i => i < s.next ∧ (s.leaves i).installed = true
  | .cancelLeaf i => i < s.next ∧ (s.leaves i).installed = true
  | .check requested _ _ => requested = true → s.canceled = true
  | .enter requested _ _ => requested = false
  | _ => True

structure Sane (s : State) (pending : Multiset SenderCall) : Prop where
  once : s.signals.length + weight able pending + unfired s = s.submitted.toNat
  installs : ∀ i, weight (installs i) pending = if Bare s i then 1 else 0
  armed : ∀ i < s.next, (s.leaves i).armed = true → (s.leaves i).kind ≠ .asyncWait →
    (s.leaves i).installed = true
  canceler : ∀ i, s.canceler = some i → i < s.next ∧ (s.leaves i).installed = true
  holder : s.canceler ≠ none → 0 < weight early pending ∨
    ∃ i < s.next, (s.leaves i).fired = false ∧ (s.leaves i).installed = true
  fits : ∀ call ∈ pending, Fits s call
  entered : ∀ requested ∈ s.entered, requested = false
  asserts : s.assertFailed = false

/-! ## Leaves -/

theorem unfired_newLeaf (leaf : Leaf) (fresh : leaf.fired = false) :
    unfired (s.newLeaf leaf) = unfired s + 1 := by
  have earlier : ∀ i ∈ Finset.range s.next, (!((s.newLeaf leaf).leaves i).fired).toNat =
      (!(s.leaves i).fired).toNat := by
    intro i inside
    have other : i ≠ s.next := (Finset.mem_range.mp inside).ne
    simp [State.newLeaf, other]
  change ∑ i ∈ Finset.range (s.next + 1), _ = _
  rw [Finset.sum_range_succ, Finset.sum_congr rfl earlier]
  simp [State.newLeaf, fresh, unfired]

theorem unfired_setLeaf (leaf : Leaf) (inside : i < s.next) :
    unfired (s.setLeaf i leaf) + (!(s.leaves i).fired).toNat =
      unfired s + (!leaf.fired).toNat := by
  have member : i ∈ Finset.range s.next := Finset.mem_range.mpr inside
  have elsewhere : ∀ j ∈ (Finset.range s.next).erase i,
      (!((s.setLeaf i leaf).leaves j).fired).toNat = (!(s.leaves j).fired).toNat := by
    intro j there
    simp [State.setLeaf, Finset.ne_of_mem_erase there]
  have before := Finset.add_sum_erase _ (fun j => (!(s.leaves j).fired).toNat) member
  have after := Finset.add_sum_erase (Finset.range s.next)
    (fun j => (!((s.setLeaf i leaf).leaves j).fired).toNat) member
  have sums := Finset.sum_congr rfl elsewhere
  have self : ((s.setLeaf i leaf).leaves i) = leaf := by simp [State.setLeaf]
  simp only [self] at after
  change ∑ j ∈ Finset.range s.next, _ + _ = ∑ j ∈ Finset.range s.next, _ + _
  omega

/-- Two leaves that have not fired are two stages. -/
theorem unfired_pos (inside : i < s.next) (unfired_i : (s.leaves i).fired = false) :
    1 ≤ unfired s := by
  have small := Finset.single_le_sum (f := fun j => (!(s.leaves j).fired).toNat)
    (fun _ _ => Nat.zero_le _) (Finset.mem_range.mpr inside)
  simp only [unfired_i] at small
  exact small

/-! ## Steps that leave the leaves alone -/

theorem Fits.mono (fit : Fits s call) (next : s'.next = s.next) (leaves : s'.leaves = s.leaves)
    (canceled : s.canceled = true → s'.canceled = true) : Fits s' call := by
  cases call with
  | arm i | cancelLeaf i =>
    change i < s'.next ∧ (s'.leaves i).installed = true
    rw [next, leaves]
    exact fit
  | check requested stage r => exact fun requested => canceled (fit requested)
  | enter requested stage r => exact fit
  | _ => trivial

theorem Sane.keep (sane : Sane s (call ::ₘ others)) (next : s'.next = s.next)
    (leaves : s'.leaves = s.leaves)
    (once : s'.signals.length + weight able (calls : Multiset SenderCall) + s.submitted.toNat =
      s.signals.length + able call + s'.submitted.toNat)
    (quiet : ∀ i, weight (SenderComposition.installs i) (calls : Multiset SenderCall) =
      SenderComposition.installs i call)
    (canceler : s'.canceler = none ∨ s'.canceler = s.canceler ∧
      early call ≤ weight early (calls : Multiset SenderCall))
    (canceled : s.canceled = true → s'.canceled = true)
    (fits : ∀ made ∈ calls, Fits s' made) (entered : ∀ requested ∈ s'.entered, requested = false)
    (asserts : s'.assertFailed = s.assertFailed) : Sane s' (↑calls + others) where
  once := by
    have total := sane.once
    have same : unfired s' = unfired s := by simp only [unfired, next, leaves]
    rw [weight_cons] at total
    rw [weight_add, same]
    omega
  installs i := by
    have due := sane.installs i
    have same : Bare s' i ↔ Bare s i := by simp only [Bare, next, leaves]
    rw [weight_cons] at due
    simp only [same]
    rw [weight_add, quiet i, due]
  armed := by
    rw [next, leaves]
    exact sane.armed
  canceler i installed := by
    rw [next, leaves]
    rcases canceler with none | ⟨same, -⟩
    · rw [none] at installed
      cases installed
    · exact sane.canceler i (same ▸ installed)
  holder installed := by
    rcases canceler with none | ⟨same, more⟩
    · exact absurd none installed
    · rw [same] at installed
      rcases sane.holder installed with pending | leaf
      · left
        rw [weight_cons] at pending
        rw [weight_add]
        omega
      · right
        rw [next, leaves]
        exact leaf
  fits := mem_after fits fun call member =>
    (sane.fits call (Multiset.mem_cons_of_mem member)).mono next leaves canceled
  entered := entered
  asserts := asserts.trans sane.asserts

/-- Cancelation is requested, by code that goes on with the same call. -/
theorem Sane.request (sane : Sane s (call ::ₘ others))
    (fit : Fits { s with canceled := true } call) :
    Sane (requestCancel s).1 (↑((requestCancel s).2 ++ [call]) + others) := by
  have again : Fits s call := sane.fits call (Multiset.mem_cons_self _ _)
  unfold requestCancel
  split
  · exact sane.keep rfl rfl (by simp) (by simp) (Or.inr ⟨rfl, by simp⟩) id
      (by simpa using again) sane.entered rfl
  · split
    · exact sane.keep rfl rfl (by simp) (by simp) (Or.inr ⟨rfl, by simp⟩) (fun _ => rfl)
        (by simpa using fit) sane.entered rfl
    · rename_i i installed
      refine sane.keep rfl rfl (by simp [able]) (by simp [SenderComposition.installs])
        (Or.inr ⟨rfl, by simp⟩) (fun _ => rfl) ?_ sane.entered rfl
      intro made member
      rcases List.mem_cons.mp member with rfl | rest
      · exact sane.canceler i installed
      · rw [List.mem_singleton.mp rest]
        exact fit

theorem signal_step {sig : Signal} (sane : Sane s (.signal sig r ::ₘ others)) :
    Sane (signal sig r s).1 (↑(signal sig r s).2 + others) := by
  unfold signal
  split
  · exact sane.keep rfl rfl (by simp [State.reset, able]) (by simp [installs])
      (Or.inl rfl) id (by simp [Fits]) sane.entered rfl
  · exact sane.keep rfl rfl (by simp [able]) (by simp [installs])
      (Or.inr ⟨rfl, by simp [early]⟩) id (by simp [Fits]) sane.entered rfl
  · split
    · exact sane.keep rfl rfl (by simp [able]) (by simp [installs])
        (Or.inr ⟨rfl, by simp [early]⟩) id (by simp [Fits]) sane.entered rfl
    · exact sane.keep rfl rfl (by simp [State.reset, able]) (by simp [installs])
        (Or.inl rfl) id (by simp [Fits]) sane.entered rfl

theorem check_step {requested : Bool} {stage : Stage}
    (sane : Sane s (.check requested stage r ::ₘ others)) :
    Sane (check requested stage r s).1 (↑(check requested stage r s).2 + others) := by
  have fit : requested = true → s.canceled = true := sane.fits _ (Multiset.mem_cons_self _ _)
  unfold check
  split
  · exact sane.keep rfl rfl (by simp [able]) (by simp [installs])
      (Or.inr ⟨rfl, by simp [early]⟩) id (by simp [Fits]) sane.entered rfl
  · rename_i uncanceled
    refine sane.keep rfl rfl (by simp [able]) (by simp [installs])
      (Or.inr ⟨rfl, by simp [early]⟩) id ?_ sane.entered rfl
    intro made member
    rw [List.mem_singleton.mp member]
    change requested = false
    by_contra before
    exact uncanceled (fit (by simpa using before))

theorem enter_step {requested : Bool} {stage : Stage}
    (sane : Sane s (.enter requested stage r ::ₘ others)) :
    Sane (enter requested stage r s).1 (↑(enter requested stage r s).2 + others) := by
  have fit : requested = false := sane.fits _ (Multiset.mem_cons_self _ _)
  have entered : ∀ before ∈ s.entered ++ [requested], before = false := by
    intro before member
    rcases List.mem_append.mp member with old | new
    · exact sane.entered before old
    · rw [List.mem_singleton.mp new]
      exact fit
  unfold enter
  cases stage <;>
    exact sane.keep rfl rfl (by simp [State.reset, able]) (by simp [installs]) (Or.inl rfl) id
      (by simp [Fits]) entered rfl

theorem function_step (sane : Sane s (.function r ::ₘ others))
    (ran : function r s choice = some (s', calls)) : Sane s' (↑calls + others) := by
  cases choice with
  | «return» | throw =>
    cases ran
    exact sane.keep rfl rfl (by simp [able]) (by simp [installs])
      (Or.inr ⟨rfl, by simp [early]⟩) id (by simp [Fits]) sane.entered rfl
  | requestCancel =>
    cases ran
    exact sane.request trivial
  | _ => cases ran

theorem asyncFunction_step (sane : Sane s (.asyncFunction r ::ₘ others))
    (ran : asyncFunction r s choice = some (s', calls)) : Sane s' (↑calls + others) := by
  cases choice with
  | throw | submitTo sender =>
    cases ran
    exact sane.keep rfl rfl (by simp [able]) (by simp [installs])
      (Or.inr ⟨rfl, by simp [early]⟩) id (by simp [Fits]) sane.entered rfl
  | requestCancel =>
    cases ran
    exact sane.request trivial
  | _ => cases ran

/-! ## Steps of the leaves -/

theorem early_le_able (pending : Multiset SenderCall) :
    weight early pending ≤ weight able pending := by
  apply Multiset.sum_map_le_sum_map
  intro call _
  cases call with
  | signal | check | enter => exact Nat.le_refl 1
  | _ => exact Nat.zero_le _

theorem submitted_le_one (s : State) : s.submitted.toNat ≤ 1 := by
  cases s.submitted with
  | true => exact Nat.le_refl 1
  | false => exact Nat.zero_le 1

/-- No canceler is installed while the stage that is able to signal is a call behind
the reset of the token. -/
theorem Sane.uninstalled (sane : Sane s (call ::ₘ others)) (busy : able call = 1)
    (late : early call = 0) : s.canceler = none := by
  by_contra installed
  have total := sane.once
  have one := submitted_le_one s
  have fewer := early_le_able others
  rw [weight_cons, busy] at total
  rcases sane.holder installed with pending | ⟨i, inside, unfired_i, -⟩
  · rw [weight_cons, late] at pending
    omega
  · have leaf := unfired_pos inside unfired_i
    omega

/-- A call that says nothing goes. -/
theorem Sane.drop (sane : Sane s (call ::ₘ others)) (idle : able call = 0) (plain : early call = 0)
    (quiet : ∀ i, SenderComposition.installs i call = 0) : Sane s others :=
  { sane with
    once := by
      have total := sane.once
      rw [weight_cons, idle, zero_add] at total
      exact total
    installs := fun i => by
      have due := sane.installs i
      rw [weight_cons, quiet i, zero_add] at due
      exact due
    holder := fun installed => by
      have held := sane.holder installed
      rw [weight_cons, plain, zero_add] at held
      exact held
    fits := fun call member => sane.fits call (Multiset.mem_cons_of_mem member) }

theorem Sane.user (sane : Sane s pending) : Sane s (.user ::ₘ pending) :=
  { sane with
    once := by simpa [able] using sane.once
    installs := fun i => by simpa [SenderComposition.installs] using sane.installs i
    holder := fun installed => by simpa [early] using sane.holder installed
    fits := by
      intro call member
      rcases Multiset.mem_cons.mp member with rfl | old
      · trivial
      · exact sane.fits call old }

theorem user_again (sane : Sane s (↑calls + others)) :
    Sane s (↑(calls ++ [SenderCall.user]) + others) := by
  have later := sane.user
  rwa [← Multiset.coe_add, Multiset.coe_singleton, add_assoc, Multiset.singleton_add,
    Multiset.add_cons]

/-- A leaf is made: its canceler is to be set, or it has none. -/
theorem Sane.newLeaf {sender : Sender} {leaf : Leaf} (sane : Sane s (.submit sender r ::ₘ others))
    (fresh : leaf.fired = false)
    (quiet : leaf.armed = true → leaf.kind ≠ .asyncWait → leaf.installed = true)
    (made : calls = if leaf.installed then [.arm s.next] else [.setCanceler s.next]) :
    Sane (s.newLeaf leaf) (↑calls + others) := by
  have free : s.canceler = none := sane.uninstalled rfl rfl
  have self : (s.newLeaf leaf).leaves s.next = leaf := by simp [State.newLeaf]
  have other (i : ℕ) (earlier : i ≠ s.next) : (s.newLeaf leaf).leaves i = s.leaves i := by
    simp [State.newLeaf, earlier]
  have old_fits : ∀ call ∈ others, Fits (s.newLeaf leaf) call := by
    intro call member
    have fit := sane.fits call (Multiset.mem_cons_of_mem member)
    cases call with
    | arm i | cancelLeaf i =>
      exact ⟨Nat.lt_succ_of_lt fit.1, by rw [other i fit.1.ne]; exact fit.2⟩
    | _ => exact fit
  have bare (i : ℕ) : Bare (s.newLeaf leaf) i ↔
      if i = s.next then leaf.installed = false else Bare s i := by
    split
    · rename_i same
      subst same
      simp only [Bare, self, fresh]
      simp [State.newLeaf]
    · rename_i earlier
      have bound : i < s.next + 1 ↔ i < s.next := by omega
      change i < s.next + 1 ∧ _ ∧ _ ↔ _
      rw [other i earlier, bound]
      rfl
  constructor
  · have total := sane.once
    have one : able (.submit sender r) = 1 := rfl
    have none : weight able (calls : Multiset SenderCall) = 0 := by
      rw [made]
      split <;> rfl
    rw [weight_cons, one] at total
    rw [weight_add, none, unfired_newLeaf leaf fresh]
    change s.signals.length + _ + _ = s.submitted.toNat
    omega
  · intro i
    have due := sane.installs i
    have silent : SenderComposition.installs i (.submit sender r) = 0 := rfl
    have one : weight (SenderComposition.installs i) (calls : Multiset SenderCall) =
        if i = s.next ∧ leaf.installed = false then 1 else 0 := by
      rw [made]
      split
      · rename_i installed
        simp [SenderComposition.installs, installed]
      · rename_i uninstalled
        simp [SenderComposition.installs, uninstalled, eq_comm]
    rw [weight_cons, silent, zero_add] at due
    rw [weight_add, one, due]
    simp only [bare]
    by_cases same : i = s.next
    · have absent : ¬ Bare s i := fun bare => absurd bare.1 (by omega)
      simp [same, same ▸ absent]
    · simp [same]
  · intro i inside armed kind
    by_cases same : i = s.next
    · subst same
      rw [self] at armed kind ⊢
      exact quiet armed kind
    · rw [other i same] at armed kind ⊢
      have inside : i < s.next + 1 := inside
      exact sane.armed i (by omega) armed kind
  · intro i installed
    change s.canceler = some i at installed
    rw [free] at installed
    cases installed
  · exact fun installed => absurd free installed
  · apply mem_after _ old_fits
    intro call member
    rw [made] at member
    split at member
    · rename_i installed
      rw [List.mem_singleton.mp member]
      exact ⟨Nat.lt_succ_self _, by rw [self]; exact installed⟩
    · rw [List.mem_singleton.mp member]
      trivial
  · exact sane.entered
  · exact sane.asserts

section SetLeaf

variable {leaf : Leaf}

theorem setLeaf_self : (s.setLeaf i leaf).leaves i = leaf := by simp [State.setLeaf]

theorem setLeaf_ne {j : ℕ} (other : j ≠ i) : (s.setLeaf i leaf).leaves j = s.leaves j := by
  simp [State.setLeaf, other]

/-- A leaf that keeps its canceler keeps what is known of it. -/
theorem fits_setLeaf (kept : (s.leaves i).installed = true → leaf.installed = true)
    (fit : Fits s call) : Fits (s.setLeaf i leaf) call := by
  cases call with
  | arm j | cancelLeaf j =>
    refine ⟨fit.1, ?_⟩
    by_cases same : j = i
    · subst same
      rw [setLeaf_self]
      exact kept fit.2
    · rw [setLeaf_ne same]
      exact fit.2
  | _ => exact fit

theorem armed_setLeaf (sane : Sane s pending)
    (quiet : leaf.armed = true → leaf.kind ≠ .asyncWait → leaf.installed = true) :
    ∀ j < (s.setLeaf i leaf).next, ((s.setLeaf i leaf).leaves j).armed = true →
      ((s.setLeaf i leaf).leaves j).kind ≠ .asyncWait →
        ((s.setLeaf i leaf).leaves j).installed = true := by
  intro j inside armed kind
  by_cases same : j = i
  · subst same
    rw [setLeaf_self] at armed kind ⊢
    exact quiet armed kind
  · rw [setLeaf_ne same] at armed kind ⊢
    exact sane.armed j inside armed kind

theorem bare_setLeaf (leaf : Leaf) (steady : leaf.fired = (s.leaves i).fired ∧
      leaf.installed = (s.leaves i).installed ∨ (s.leaves i).installed = true ∧ leaf.installed = true)
    (j : ℕ) : Bare (s.setLeaf i leaf) j ↔ Bare s j := by
  unfold Bare
  by_cases same : j = i
  · subst same
    rw [setLeaf_self]
    rcases steady with ⟨fired, installed⟩ | ⟨before, after⟩
    · rw [fired, installed]
      rfl
    · simp [before, after]
  · rw [setLeaf_ne same]
    rfl

end SetLeaf

/-- A leaf whose canceler is set, or that has none, fires. -/
theorem fireLeaf_step {sig : Signal} (sane : Sane s others) (inside : i < s.next)
    (installed : (s.leaves i).installed = true) :
    Sane (fireLeaf i sig s).1 (↑(fireLeaf i sig s).2 + others) := by
  unfold fireLeaf
  dsimp only
  split
  · simpa using sane
  · rename_i fires
    have waiting : (s.leaves i).fired = false := by simpa using fires
    constructor
    · have total := sane.once
      have count : unfired (s.setLeaf i { s.leaves i with fired := true }) +
          (!(s.leaves i).fired).toNat = unfired s + 0 := unfired_setLeaf _ inside
      have one : (!(s.leaves i).fired).toNat = 1 := by rw [waiting]; rfl
      rw [weight_add]
      change s.signals.length + (1 + _) +
        unfired (s.setLeaf i { s.leaves i with fired := true }) = s.submitted.toNat
      omega
    · intro j
      have due := sane.installs j
      have silent : weight (SenderComposition.installs j)
          (↑[SenderCall.signal sig (s.leaves i).receiver] : Multiset SenderCall) = 0 := rfl
      rw [weight_add, silent, zero_add, due]
      simp only [bare_setLeaf { s.leaves i with fired := true } (Or.inr ⟨installed, installed⟩) j]
    · exact armed_setLeaf sane fun _ _ => installed
    · intro j set
      have kept := sane.canceler j set
      refine ⟨kept.1, ?_⟩
      by_cases same : j = i
      · subst same
        rw [setLeaf_self]
        exact installed
      · rw [setLeaf_ne same]
        exact kept.2
    · intro _
      left
      rw [weight_add]
      exact Nat.lt_of_lt_of_le Nat.zero_lt_one (Nat.le_add_right _ _)
    · refine mem_after (by simp [Fits]) fun call member => ?_
      exact fits_setLeaf (fun _ => installed) (sane.fits call member)
    · exact sane.entered
    · exact sane.asserts

theorem cancelLeaf_step (sane : Sane s (.cancelLeaf i ::ₘ others)) :
    Sane (cancelLeaf i choice s).1 (↑(cancelLeaf i choice s).2 + others) := by
  obtain ⟨inside, installed⟩ := sane.fits _ (Multiset.mem_cons_self _ _)
  have rest := sane.drop rfl rfl fun _ => rfl
  unfold cancelLeaf
  split
  · simpa using rest
  · exact fireLeaf_step rest inside installed

/-- Two leaves that have not fired do not fit in. -/
theorem only_unfired {j : ℕ} (single : unfired s ≤ 1) (inside : i < s.next) (within : j < s.next)
    (first : (s.leaves i).fired = false) (second : (s.leaves j).fired = false) : j = i := by
  by_contra other
  have count : unfired (s.setLeaf i { s.leaves i with fired := true }) +
      (!(s.leaves i).fired).toNat = unfired s + 0 := unfired_setLeaf _ inside
  have one : (!(s.leaves i).fired).toNat = 1 := by rw [first]; rfl
  have still : ((s.setLeaf i { s.leaves i with fired := true }).leaves j).fired = false := by
    rw [setLeaf_ne other, second]
  have left : 1 ≤ unfired (s.setLeaf i { s.leaves i with fired := true }) :=
    unfired_pos within still
  omega

/-- The canceler of a leaf is set where there is none. -/
theorem setCanceler_step (sane : Sane s (.setCanceler i ::ₘ others)) :
    Sane (setCanceler i s).1 (↑(setCanceler i s).2 + others) := by
  have total := sane.once
  have one := submitted_le_one s
  have silent : able (.setCanceler i) = 0 := rfl
  have due := sane.installs i
  have counted : SenderComposition.installs i (.setCanceler i) = 1 := if_pos rfl
  rw [weight_cons, silent, zero_add] at total
  rw [weight_cons, counted] at due
  have bare : Bare s i := by
    by_contra absent
    rw [if_neg absent] at due
    omega
  rw [if_pos bare] at due
  obtain ⟨inside, waiting, uninstalled⟩ := bare
  have live := unfired_pos inside waiting
  have free : s.canceler = none := by
    by_contra installed
    rcases sane.holder installed with pending | ⟨j, within, unfired_j, installed_j⟩
    · have fewer := early_le_able others
      have late : early (.setCanceler i) = 0 := rfl
      rw [weight_cons, late] at pending
      omega
    · rw [only_unfired (by omega) inside within waiting unfired_j, uninstalled] at installed_j
      cases installed_j
  have calls_fit : ∀ made ∈ (setCanceler i s).2, made = .cancelLeaf i ∨ made = .arm i := by
    unfold setCanceler
    dsimp only
    split <;> split <;> simp
  have no_weight (measure : SenderCall → ℕ) (cancels : measure (.cancelLeaf i) = 0)
      (arms : measure (.arm i) = 0) :
      weight measure (↑(setCanceler i s).2 : Multiset SenderCall) = 0 := by
    apply Multiset.sum_eq_zero
    intro value member
    obtain ⟨made, held, rfl⟩ := Multiset.mem_map.mp member
    rcases calls_fit made (Multiset.mem_coe.mp held) with rfl | rfl
    · exact cancels
    · exact arms
  have leaves_self : ((setCanceler i s).1.leaves i).installed = true := by
    simp [setCanceler, State.setLeaf]
  constructor
  · have count : unfired (setCanceler i s).1 + (!(s.leaves i).fired).toNat =
        unfired s + (!(s.leaves i).fired).toNat := unfired_setLeaf _ inside
    rw [weight_add, no_weight able rfl rfl]
    change s.signals.length + _ + unfired (setCanceler i s).1 = s.submitted.toNat
    omega
  · intro j
    rw [weight_add, no_weight _ rfl rfl, zero_add]
    by_cases same : j = i
    · subst same
      have absent : ¬ Bare (setCanceler j s).1 j := fun bare => by
        have without := bare.2.2
        rw [leaves_self] at without
        cases without
      rw [if_neg absent]
      omega
    · have due := sane.installs j
      have elsewhere : SenderComposition.installs j (.setCanceler i) = 0 := if_neg (Ne.symm same)
      have kept : Bare (setCanceler i s).1 j ↔ Bare s j := by
        have other : (setCanceler i s).1.leaves j = s.leaves j := setLeaf_ne same
        unfold Bare
        rw [other]
        rfl
      rw [weight_cons, elsewhere, zero_add] at due
      rw [due]
      simp only [kept]
  · exact armed_setLeaf sane fun _ _ => rfl
  · intro j installed
    have same : j = i := (Option.some.inj installed).symm
    rw [same]
    exact ⟨inside, leaves_self⟩
  · intro _
    refine Or.inr ⟨i, inside, ?_, leaves_self⟩
    simpa [setCanceler, State.setLeaf] using waiting
  · refine mem_after ?_ fun call member => ?_
    · intro made member
      rcases calls_fit made member with rfl | rfl <;> exact ⟨inside, leaves_self⟩
    · have fit : Fits (s.setLeaf i { s.leaves i with installed := true }) call :=
        fits_setLeaf (fun _ => rfl) (sane.fits call (Multiset.mem_cons_of_mem member))
      cases call <;> exact fit
  · exact sane.entered
  · change (s.assertFailed || s.canceler.isSome) = false
    rw [sane.asserts, free]
    rfl

theorem arm_step (sane : Sane s (.arm i ::ₘ others)) :
    Sane (s.setLeaf i { s.leaves i with armed := true }) others := by
  obtain ⟨inside, installed⟩ := sane.fits _ (Multiset.mem_cons_self _ _)
  have rest := sane.drop rfl rfl fun _ => rfl
  constructor
  · have count : unfired (s.setLeaf i { s.leaves i with armed := true }) +
        (!(s.leaves i).fired).toNat = unfired s + (!(s.leaves i).fired).toNat :=
      unfired_setLeaf _ inside
    have total := rest.once
    change s.signals.length + _ + unfired (s.setLeaf i { s.leaves i with armed := true }) =
      s.submitted.toNat
    omega
  · intro j
    rw [rest.installs j]
    simp only [bare_setLeaf { s.leaves i with armed := true } (Or.inr ⟨installed, installed⟩) j]
  · exact armed_setLeaf sane fun _ _ => installed
  · intro j set
    have kept := sane.canceler j set
    refine ⟨kept.1, ?_⟩
    by_cases same : j = i
    · subst same
      rw [setLeaf_self]
      exact installed
    · rw [setLeaf_ne same]
      exact kept.2
  · intro set
    rcases rest.holder set with pending | ⟨j, within, unfired_j, installed_j⟩
    · exact Or.inl pending
    · refine Or.inr ⟨j, within, ?_, ?_⟩
      · by_cases same : j = i
        · subst same
          rw [setLeaf_self]
          exact unfired_j
        · rw [setLeaf_ne same]
          exact unfired_j
      · by_cases same : j = i
        · subst same
          rw [setLeaf_self]
          exact installed_j
        · rw [setLeaf_ne same]
          exact installed_j
  · exact fun call member => fits_setLeaf (fun _ => installed) (rest.fits call member)
  · exact sane.entered
  · exact sane.asserts

/-! ## Runs -/

theorem submit_step {sender : Sender} (sane : Sane s (.submit sender r ::ₘ others))
    (ran : submit sender r choice s = some (s', calls)) : Sane s' (↑calls + others) := by
  cases sender with
  | async =>
    cases ran
    exact sane.newLeaf rfl nofun rfl
  | asyncWait =>
    cases ran
    exact sane.newLeaf rfl (fun _ other => absurd rfl other) rfl
  | user =>
    cases choice with
    | install =>
      cases ran
      exact sane.newLeaf rfl nofun rfl
    | bare =>
      cases ran
      exact sane.newLeaf rfl (fun _ _ => rfl) rfl
    | _ => cases ran
  | «then» | asyncThen | connect | wrap =>
    cases ran
    exact sane.keep rfl rfl (by simp [able]) (by simp [installs])
      (Or.inr ⟨rfl, by simp [early]⟩) id (by simp [Fits]) sane.entered rfl

theorem user_step (sane : Sane s (.user ::ₘ others)) (timely : FiresInstalled s .user choice)
    (ran : user s choice = some (s', calls)) : Sane s' (↑calls + others) := by
  have rest := sane.drop rfl rfl fun _ => rfl
  cases choice with
  | «return» =>
    cases ran
    simpa using rest
  | submit =>
    simp only [user] at ran
    split at ran
    · cases ran
    · rename_i fresh
      cases ran
      have unsubmitted : s.submitted = false := by simpa using fresh
      exact sane.keep rfl rfl (by simp [able, unsubmitted]) (by simp [installs])
        (Or.inr ⟨rfl, by simp [early]⟩) id (by simp [Fits]) sane.entered rfl
  | requestCancel =>
    cases ran
    exact sane.request trivial
  | fire i sig =>
    simp only [user] at ran
    split at ran
    · rename_i able
      obtain ⟨inside, armed, -⟩ := able
      cases ran
      have installed : (s.leaves i).installed = true := by
        by_cases kind : (s.leaves i).kind = .asyncWait
        · exact timely i sig rfl kind
        · exact sane.armed i inside armed kind
      exact user_again (fireLeaf_step rest inside installed)
    · cases ran
  | _ => cases ran

theorem exec_step {thread : ℕ} (sane : Sane s (call ::ₘ others))
    (timely : FiresInstalled s call choice)
    (ran : exec thread choice s call = some (s', calls)) : Sane s' (↑calls + others) := by
  cases call with
  | user => exact user_step sane timely ran
  | submit sender r => exact submit_step sane ran
  | setCanceler i =>
    have made : setCanceler i s = (s', calls) := Option.some.inj ran
    have stepped := setCanceler_step sane
    rwa [made] at stepped
  | arm i =>
    cases ran
    simpa using arm_step sane
  | cancelLeaf i =>
    have made : cancelLeaf i choice s = (s', calls) := Option.some.inj ran
    have stepped : Sane (cancelLeaf i choice s).1 (↑(cancelLeaf i choice s).2 + others) :=
      cancelLeaf_step sane
    rwa [made] at stepped
  | signal sig r =>
    have made : signal sig r s = (s', calls) := Option.some.inj ran
    have stepped := signal_step sane
    rwa [made] at stepped
  | check requested stage r =>
    have made : check requested stage r s = (s', calls) := Option.some.inj ran
    have stepped := check_step sane
    rwa [made] at stepped
  | enter requested stage r =>
    have made : enter requested stage r s = (s', calls) := Option.some.inj ran
    have stepped := enter_step sane
    rwa [made] at stepped
  | function r => exact function_step sane ran
  | asyncFunction r => exact asyncFunction_step sane ran

theorem sane_start (sender : Sender) (threads : ℕ) :
    Sane (start sender threads).state (start sender threads).pending := by
  have pending : (start sender threads).pending = Multiset.replicate threads .user :=
    Config.pending_replicate _ threads SenderCall.user
  have only (measure : SenderCall → ℕ) (silent : measure .user = 0) :
      weight measure (start sender threads).pending = 0 := by
    rw [pending]
    apply Multiset.sum_eq_zero
    intro value member
    obtain ⟨call, held, rfl⟩ := Multiset.mem_map.mp member
    rw [Multiset.eq_of_mem_replicate held, silent]
  constructor
  · rw [only able rfl]
    rfl
  · intro i
    have absent : ¬ Bare (start sender threads).state i := fun bare => Nat.not_lt_zero i bare.1
    rw [only (installs i) rfl, if_neg absent]
  · intro i inside
    exact absurd inside (Nat.not_lt_zero i)
  · intro i installed
    cases installed
  · exact fun installed => absurd rfl installed
  · intro call member
    rw [pending] at member
    rw [Multiset.eq_of_mem_replicate member]
    trivial
  · intro requested member
    cases member
  · rfl

variable {sender : Sender} {threads : ℕ} {config : Config State SenderCall}

/-- **Compositions of senders signal exactly once**, in every run of any number of
threads in which no timer runs before the canceler of its `async_wait` is set. -/
theorem signalsOnce_of_firesInstalled
    (reached : Reachable exec FiresInstalled (start sender threads) config) :
    SignalsOnce config := by
  have sane := reached.invariant Sane (sane_start sender threads)
    fun _ _ _ _ _ _ _ sane timely ran => exec_step sane timely ran
  exact ⟨sane.once, sane.entered, sane.asserts⟩

/-- The condition can be checked. -/
def firesInstalled (s : State) (_ : SenderCall) (choice : Choice) : Bool :=
  match choice with
  | .fire i _ => (s.leaves i).kind != .asyncWait || (s.leaves i).installed
  | _ => true

theorem firesInstalled_sound (s : State) (call : SenderCall) (choice : Choice)
    (checked : firesInstalled s call choice = true) : FiresInstalled s call choice := by
  rintro i sig rfl kind
  simpa [firesInstalled, kind] using checked

/-- A wait, mapped by a function and followed by a task; cancelation is requested
while the function runs. -/
theorem signalsOnce_waitThenTask : ∃ config : Config State SenderCall,
    SignalsOnce config ∧ config.state.signals = [.done] ∧ config.state.entered = [false] := by
  have ran : ((start (.connect (.then .asyncWait) .async) 2).runWithin exec firesInstalled
      [(0, .submit), (0, .return), (0, .return), (0, .return), (0, .return), (1, .fire 0 .value),
        (1, .return), (1, .return), (1, .return), (0, .requestCancel), (1, .return), (1, .return),
        (1, .return), (1, .return), (1, .return)]).map (fun config =>
      decide (config.state.signals = [.done] ∧ config.state.entered = [false])) = some true := by
    decide
  obtain ⟨config, reached, holds⟩ := reachable_of_replay_within firesInstalled_sound _ _ ran
  exact ⟨config, signalsOnce_of_firesInstalled reached, of_decide_eq_true holds⟩

/-- The timer runs on another thread before `submit` has set the canceler, and the
task behind the wait has set its own. -/
theorem early_timer_overwrites_canceler : ∃ config : Config State SenderCall,
    Reachable exec Anything (start (.connect .asyncWait .async) 2) config ∧
      config.state.canceler = some 0 ∧ (config.state.leaves 0).fired = true ∧
      (config.state.leaves 1).fired = false ∧ ¬ SignalsOnce config := by
  have ran : ((start (.connect .asyncWait .async) 2).run exec
      [(0, .submit), (0, .return), (0, .return), (1, .fire 0 .value), (1, .return), (1, .return),
        (1, .return), (1, .return), (1, .return), (0, .return)]).map (fun config =>
      decide (config.state.canceler = some 0 ∧ (config.state.leaves 0).fired = true ∧
        (config.state.leaves 1).fired = false ∧ config.state.assertFailed = true)) =
          some true := by decide
  obtain ⟨config, reached, holds⟩ := reachable_of_replay _ _ ran
  obtain ⟨canceler, first, second, failed⟩ := of_decide_eq_true holds
  refine ⟨config, reached, canceler, first, second, fun right => ?_⟩
  rw [right.asserts] at failed
  cases failed

end Tconcurrent.SenderComposition
