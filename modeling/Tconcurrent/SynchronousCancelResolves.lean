import Tconcurrent.SynchronousCancelCatch

/-! A future that has not lost a callback resolves: the executor can always go on until it is
ready, or the program is terminated. -/
namespace Tconcurrent.SynchronousCancel
open Recursion Workload Relation

variable {fut : Future} {v : Value}

/-! ## Progress -/

theorem AllAcc.mono {s s' : Multiset Item} (acc : AllAcc s) (le : s' ≤ s) : AllAcc s' :=
  fun item member => acc item (Multiset.mem_of_le le member)

theorem AllAcc.within {s s' : Multiset Item} (acc : AllAcc s) (within : Within Below s' s) :
    AllAcc s' := by
  induction within using ReflTransGen.head_induction_on with
  | refl => exact acc
  | head takes _ ih =>
    obtain ⟨item, others, puts, rfl, rfl, below⟩ := takes
    refine fun item' member => (Multiset.mem_add.mp member).elim (fun put => ?_) fun other => ?_
    · exact (ih item (Multiset.mem_cons_self item others)).inv (below item' put)
    · exact ih item' (Multiset.mem_cons_of_mem other)

abbrev Halts (code : FutureCode Future) : Prop := Ends code fun _ => True

/-- The coroutine goes on until it ends or waits. -/
theorem run_ends {rest : Body} {results : List Datum} (acc : Acc Below (.body rest results))
    (pending : fut.isReady = false) (bare : fut.token.Bare) (stages : SoundStages fut.stages) :
    Halts (fut.run rest results) := by
  generalize eq : Item.body rest results = item at acc
  induction acc.transGen generalizing results with
  | intro item _ ih =>
    subst eq
    unfold Future.run
    cases next : rest results with
    | «return» r =>
      refine (apply_sound (ret_sound r) (datum_sound (.value 0))).bind fun v value => ?_
      exact (finish_kept pending bare stages value).mono fun _ _ => trivial
    | await e =>
      refine (ends_call (start_formed e)).bind fun awaited _ => ?_
      split
      · rename_i v _
        have below : TransGen Below (.body rest (results ++ [v.view])) (.body rest results) := by
          refine .head .resumed (.single (.body ?_))
          simp [Rest.work, next]
        exact ends_call (ih _ below rfl (acc.inv_of_transGen below))
      · exact ends_pure trivial

/-- What a primitive sets, once its callback is popped. -/
theorem pop_set_ends {r : Ret} (caught : Value → Bool) (bare : fut.token.Bare)
    (stages : SoundStages fut.stages) :
    Halts (do
      let fut ← Future.pop { fut with source := .none } false
      let v ← apply r (.datum (.value 0))
      call (.set (caught v) v fut)) := by
  refine Ends.bind (pop_spent rfl bare.tail .none) ?_
  rintro _ ⟨source, spent, rfl⟩
  refine (apply_sound (ret_sound r) (datum_sound _)).bind fun v value => ?_
  refine Ends.mono (set_formed ?_ spent ?_ value) fun _ _ => trivial
  · exact bare.tail
  · exact stages

theorem event_inner_ends {inner : Future} {path : List Selector} (formed : Formed fut)
    (waiting : fut.waiting = .inner inner) (inside : Halts (inner.event path .fire)) :
    Halts (fut.event (.inner :: path) .fire) := by
  simp only [Future.event, waiting]
  cases formed with
  | source waiting' | ready waiting' => cases waiting.symm.trans waiting'
  | inner waiting' unready unrequested stack bare spent inside' stages =>
    cases waiting.symm.trans waiting'
    refine (ends_call (inside.and_always (event_kept inside'))).bind fun after kept => ?_
    cases kept.2 with
    | formed formed _ =>
      refine Ends.mono (unwrapInner_settled rfl stack bare spent stages formed.sound ?_ ?_)
        fun _ _ => trivial
      · rw [unrequested]
        rintro ⟨⟩
      · intro fut' v left bare' requested spent' value
        exact requested ▸ set_settled bare' spent' (left ▸ stages) value
    | broken _ still =>
      rw [unready, ← result_eq_none] at still
      simp only [Future.unwrapInner, still]
      exact ends_pure trivial

theorem event_future_ends {future : Future} {j : ℕ} {path : List Selector} (formed : Formed fut)
    (at_j : fut.source.futures[j]? = some future) (inside : Halts (future.event path .fire)) :
    Halts (fut.event (.future j :: path) .fire) := by
  simp only [Future.event, at_j]
  have sound := formed.futures future (List.mem_of_getElem? at_j)
  refine (ends_call (inside.and_always (event_kept sound))).bind fun after given => ?_
  obtain ⟨-, kept⟩ := given
  cases before : future.isReady with
  | true => exact ends_pure trivial
  | false =>
    simp only [Bool.false_eq_true, if_false]
    cases ready : after.isReady with
    | true =>
      cases kept with
      | formed formed' _ =>
        exact (change_kept formed at_j before formed'.sound ready).mono fun _ _ => trivial
      | broken _ same => cases (ready.symm.trans same).trans before
    | false =>
      simp only [Future.change, ready, Bool.false_eq_true, if_false]
      exact ends_pure trivial

theorem work_le_futuresWork {futures : List Future} {future : Future} (member : future ∈ futures) :
    future.work ≤ futuresWork futures := by
  obtain ⟨j, at_j⟩ := List.mem_iff_getElem?.mp member
  obtain ⟨others, eq, -⟩ := futuresWork_set future at_j
  rw [eq]
  exact Multiset.le_add_right _ _

theorem future_work_le {future : Future} (member : future ∈ fut.source.futures) :
    future.work ≤ fut.work := by
  refine (work_le_futuresWork member).trans (le_trans ?_ rest_le_work)
  refine le_trans ?_ (Multiset.le_add_right _ _)
  cases fut.source with
  | whenAll | whenAny => exact le_refl (futuresWork _)
  | none | async | asyncWait | unstarted | awaiting | ended | destroyed =>
    exact Multiset.zero_le _

theorem inner_work_le {inner : Future} (waiting : fut.waiting = .inner inner) :
    inner.work ≤ fut.work := by
  rw [@Future.work_eq fut, waiting]
  exact Multiset.le_add_left _ _

/-- One that is not ready can go on. -/
theorem future_fires (formed : Formed fut) {future : Future} (member : future ∈ fut.source.futures)
    (fires : ∃ path, Halts (future.event path .fire)) :
    ∃ path, Halts (fut.event path .fire) := by
  obtain ⟨j, at_j⟩ := List.mem_iff_getElem?.mp member
  obtain ⟨path, ends⟩ := fires
  exact ⟨.future j :: path, event_future_ends formed at_j ends⟩

/-- **Progress**: what is not ready waits for something that the executor can do. -/
theorem Shaped.fires (shaped : Shaped fut) (sound : Sound fut) (acc : AllAcc fut.work)
    (pending : fut.isReady = false) : ∃ path, Halts (fut.event path .fire) := by
  induction shaped with
  | @mk fut _ _ _ _ _ _ _ _ inside _ awaits futures =>
    have source_acc := acc.mono ((Multiset.le_add_right _ _).trans rest_le_work)
    have formed := sound.formed
    cases formed with
    | source waiting unrequested stack unset stages =>
      have runs {rest : Body} {results : List Datum} (acc : Acc Below (.body rest results)) :
          Halts (call (.run rest results fut)) :=
        ends_call (run_ends acc pending (.inr stack) stages)
      cases source : fut.source with
      | async f =>
        refine ⟨[], ?_⟩
        simp only [Future.event, Future.fire, source]
        exact pop_set_ends Value.isException (.inr stack) stages
      | asyncWait =>
        refine ⟨[], ?_⟩
        simp only [Future.event, Future.fire, source]
        exact pop_set_ends (r := .value 0) (fun _ => false) (.inr stack) stages
      | unstarted rest =>
        refine ⟨[], ?_⟩
        simp only [Future.event, Future.fire, source]
        rw [source] at source_acc
        exact runs (source_acc _ (Multiset.mem_singleton_self _))
      | awaiting awaited rest results =>
        rw [source] at source_acc unset
        cases unset with
        | awaiting sound' =>
          have suspended : Acc Below (.suspended rest results) :=
            source_acc _ (Multiset.mem_add.mpr (.inl (Multiset.mem_singleton_self _)))
          cases result : awaited.result with
          | some v =>
            refine ⟨[], ?_⟩
            simp only [Future.event, Future.fire, source, result]
            exact runs (suspended.inv .resumed)
          | none =>
            have inside_acc := source_acc.mono (Multiset.le_add_left _ _)
            obtain ⟨path, ends⟩ := awaits _ _ _ source sound' inside_acc (result_eq_none.mp result)
            refine ⟨.awaited :: path, ?_⟩
            simp only [Future.event, source]
            exact (ends_call ends).bind fun _ _ => ends_pure trivial
      | whenAll futures' count =>
        have members := futures
        rw [source] at unset members
        cases unset with
        | whenAll all counted incomplete =>
          have some : ∃ future ∈ futures', future.isReady = false := by
            by_contra none
            rw [counted, List.countP_eq_length.mpr] at incomplete
            · exact Nat.lt_irrefl _ incomplete
            · exact fun future member =>
                by_contra fun unready => none ⟨future, member, by simpa using unready⟩
          obtain ⟨future, member, unready⟩ := some
          have member' : future ∈ fut.source.futures := by rwa [source]
          exact future_fires sound.formed member' (members future member (all future member)
            (acc.mono (future_work_le member')) unready)
      | whenAny futures' autoCancel triggered =>
        have members := futures
        rw [source] at unset members
        cases unset with
        | whenAny all none some =>
          obtain ⟨future, member⟩ := List.exists_mem_of_ne_nil _ some
          have member' : future ∈ fut.source.futures := by rwa [source]
          exact future_fires sound.formed member' (members future member (all future member)
            (acc.mono (future_work_le member')) (none future member))
      | none | ended | destroyed =>
        rw [source] at unset
        cases unset
    | inner waiting unready _ _ _ _ inside' stages =>
      have inner_acc := acc.mono (inner_work_le waiting)
      obtain ⟨path, ends⟩ := inside _ waiting inside' inner_acc unready
      exact ⟨.inner :: path, event_inner_ends sound.formed waiting ends⟩
    | ready waiting =>
      rw [Future.isReady_iff.mpr ⟨_, waiting⟩] at pending
      cases pending

/-! ## Runs -/

/-- The executor does something that the future waits for. -/
abbrev Fire (fut after : Future) : Prop := ∃ path, Returns body (fut.event path .fire) after

/-- The program is terminated in what the executor does next. -/
def Future.FireStops (fut : Future) : Prop := ∃ path, Stops body (fut.event path .fire)

theorem Run.fires {e : Expr} (terminates : e.Terminates) (run : Run (¬ Broken ·) e fut)
    (pending : fut.isReady = false) : (∃ after, Fire fut after) ∨ fut.FireStops := by
  obtain ⟨shaped, within⟩ := run.meets
  obtain ⟨path, ends⟩ := shaped.fires run.sound ((e.acc terminates).within within) pending
  rcases ends with ⟨after, returns, -⟩ | ⟨-, stops⟩
  · exact .inl ⟨after, path, returns⟩
  · exact .inr ⟨path, stops⟩

/-- **A future resolves** as long as no callback is lost: the executor is never stuck before it is
ready, and gets it ready by itself, unless the program is terminated. -/
theorem Run.resolves {e : Expr} (terminates : e.Terminates) (run : Run (¬ Broken ·) e fut) :
    (fut.isReady = false → (∃ after, Fire fut after) ∨ fut.FireStops) ∧
      ∃ after, ReflTransGen Fire fut after ∧
        (after.isReady = true ∨ Broken after ∨ after.FireStops) := by
  refine ⟨run.fires terminates, ?_⟩
  have ends : Acc (Less Below) fut.work :=
    (acc_takes ((e.acc terminates).within run.meets.2)).transGen
  generalize eq : fut.work = work at ends
  induction ends generalizing fut with
  | intro work _ ih =>
    subst eq
    by_cases ready : fut.isReady = true
    · exact ⟨fut, .refl, .inl ready⟩
    · rcases run.fires terminates (by simpa using ready) with ⟨after, path, returns⟩ | stops
      · by_cases broken : Broken after
        · exact ⟨after, .single ⟨path, returns⟩, .inr (.inl broken)⟩
        · have less := (@returns_meets (.event path .fire fut) _ returns run.meets.1).2 rfl
          obtain ⟨last, fires, resolved⟩ := ih _ less (run.event returns broken) rfl
          exact ⟨last, .head ⟨path, returns⟩ fires, resolved⟩
      · exact ⟨fut, .refl, .inr (.inr stops)⟩

theorem waitAfterCoroutine_resolves :
    ∃ after, ReflTransGen Fire (unstarted true) after ∧
      (after.isReady = true ∨ Broken after ∨ after.FireStops) :=
  (Run.resolves (waitAfterCoroutine_terminates true)
    (.start (start_waitAfterCoroutine true))).2

end Tconcurrent.SynchronousCancel
