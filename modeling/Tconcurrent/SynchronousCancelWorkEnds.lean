import Tconcurrent.SynchronousCancelWork

/-! Every future comes to an end of what the executor has to run for it: whatever is canceled,
dropped or run first, the executor runs finitely many things if no coroutine goes on forever. -/
namespace Tconcurrent.SynchronousCancel
open Recursion Workload

variable {fut : Future} {v : Value} {source : Source} {s : Multiset Item} {inCatch : Bool}

/-! ## Cancelation -/

section

variable {after : Future}

theorem value_shaped_datum {d : Datum} : (Value.datum d).Shaped := by
  rintro _ ⟨⟩

theorem rest_le_work : fut.rest ≤ fut.work := by
  rw [Future.work_eq]
  exact Multiset.le_add_right _ _

theorem stages_le_work : stagesWork fut.stages ≤ fut.work :=
  (Multiset.le_add_left _ _).trans rest_le_work

/-- What a primitive sets, once its callback is popped. -/
theorem pop_set_does (caught : Value → Bool) (value : FutureCode Value) (shaped : Shaped fut)
    (unset : ¬ fut.source.IsSet)
    (gives : Does value fun v => v.Shaped ∧ Within Below v.work s) :
    Does (do
      let fut ← Future.pop { fut with source := .none } inCatch
      let v ← value
      call (.set (caught v) v fut)) (Settles (s + stagesWork fut.stages)) := by
  have changed : Shaped { fut with source := .none } := by
    refine shaped.changed (fun set => absurd set unset) trivial ?_ ?_
    · rintro _ _ _ ⟨⟩
    · exact fun _ member => absurd member List.not_mem_nil
  refine assuming_bind (pop_does changed trivial) ?_
  rintro _ ⟨source, done, within, rfl⟩
  refine assuming_bind gives fun v given => set_does done changed.tail given.1 ?_
  exact within_add_add given.2 ((within_add _ within).trans (within_of_eq (zero_add _)))

theorem cancelSource_does (shaped : Shaped fut) : Does (fut.cancelSource inCatch) fun after =>
    Becomes fut after ∧ (fut.token.Bare → fut.source.IsSet → Respends fut after) := by
  have settles (unset : ¬ fut.source.IsSet) {after : Future}
      (settles : Settles (0 + stagesWork fut.stages) after) :
      Becomes fut after ∧ (fut.token.Bare → fut.source.IsSet → Respends fut after) := by
    refine ⟨settles.becomes (shaped.waiting_of_not_set unset) (within_of_le ?_),
      fun _ set => absurd set unset⟩
    exact (zero_add _).le.trans stages_le_work
  have pops (unset : ¬ fut.source.IsSet) :
      Does (Future.pop { fut with source := .none } inCatch >>= fun fut =>
          call (.set inCatch canceled fut))
        fun after => Becomes fut after ∧
          (fut.token.Bare → fut.source.IsSet → Respends fut after) :=
    (pop_set_does (fun _ => inCatch) (pure canceled) shaped unset ⟨value_shaped_datum, .refl⟩).mono
      fun _ => settles unset
  have finishes {caught : Bool} (unset : ¬ fut.source.IsSet) :
      Does (fut.finish inCatch caught canceled) fun after =>
      Becomes fut after ∧ (fut.token.Bare → fut.source.IsSet → Respends fut after) :=
    (finish_does (shaped.bare_of_source (shaped.waiting_of_not_set unset)) value_shaped_datum).mono
      fun _ => settles unset
  have cancels {js : List ℕ} : Does (call (.cancelFutures inCatch js fut)) fun after =>
      Becomes fut after ∧ (fut.token.Bare → fut.source.IsSet → Respends fut after) :=
    does_call fun _ meets => ⟨(meets shaped).1, fun _ => (meets shaped).2⟩
  rw [Future.cancelSource]
  split
  · rename_i source
    exact pops (by simp [source, Source.IsSet])
  · rename_i source
    exact pops (by simp [source, Source.IsSet])
  · rename_i source
    exact finishes (by simp [source, Source.IsSet])
  · rename_i awaited body results source
    have awaits : Shaped awaited := by
      cases shaped with
      | mk _ _ _ _ _ _ awaits => exact awaits awaited body results source
    split
    · trivial
    · refine assuming_bind (does_call fun _ meets => meets awaits) fun _ _ => ?_
      exact finishes (by simp [source, Source.IsSet])
  · exact cancels
  · exact cancels
  all_goals exact ⟨⟨shaped, .refl, id⟩, fun _ set => respends_self (shaped.done set)⟩

/-- The inner future is now another one. -/
theorem Shaped.setInner {inner : Future} (shaped : Shaped fut)
    (waiting : fut.waiting = .inner inner) (shaped' : Shaped after) :
    Shaped { fut with waiting := .inner after } := by
  cases shaped with
  | mk set counted bare tail inside value awaited futures =>
    refine .mk (fun _ => set (by simp [waiting])) counted (fun other => absurd rfl (other after))
      tail ?_ ?_ awaited futures
    · rintro _ ⟨⟩
      exact shaped'
    · rintro _ ⟨⟩

theorem Shaped.inside {inner : Future} (shaped : Shaped fut)
    (waiting : fut.waiting = .inner inner) : Shaped inner := by
  cases shaped with
  | mk _ _ _ _ inside => exact inside inner waiting

theorem callTop_meets : Does (fut.callTop inCatch) (Meets (.callTop inCatch fut)) := by
  by_cases shaped : Shaped fut
  · suffices does : Does (fut.callTop inCatch) fun after =>
        Becomes fut after ∧ (fut.token.Bare → fut.source.IsSet → Respends fut after) from
      does.mono fun _ changed _ => changed
    have same : Becomes fut fut ∧ (fut.token.Bare → fut.source.IsSet → Respends fut fut) :=
      ⟨⟨shaped, .refl, id⟩, fun _ set => respends_self (shaped.done set)⟩
    rw [Future.callTop]
    split
    · exact cancelSource_does shaped
    · rename_i stack _ inner top waiting
      split
      · exact same
      · refine assuming_bind (does_call fun _ meets => meets (shaped.inside waiting))
          fun inner' becomes => ?_
        refine (unwrapInner_does rfl (shaped.setInner waiting becomes.shaped)).mono
          fun after settles => ⟨⟨settles.shaped, settles.within.trans ?_, fun ready => ?_⟩, ?_⟩
        · rw [@Future.work_eq fut, Future.work_eq, waiting, add_comm, add_comm fut.rest]
          exact within_add fut.rest becomes.within
        · rw [not_ready_of_inner waiting] at ready
          cases ready
        · rintro (empty | left)
          · cases top.symm.trans empty
          · cases top.symm.trans left
    · exact same
  · exact assuming_of_forall fun _ shaped' => absurd shaped' shaped

theorem Shaped.request (shaped : Shaped fut) :
    Shaped { fut with token := { fut.token with isCancelRequested := true } } := by
  cases shaped with
  | mk set counted bare tail inside value awaited futures =>
    exact .mk set counted bare tail inside value awaited futures

theorem requestCancel_meets :
    Does (fut.requestCancel inCatch) (Meets (.requestCancel inCatch fut)) := by
  by_cases shaped : Shaped fut
  · suffices does : Does (fut.requestCancel inCatch) (Becomes fut) from
      does.mono fun _ becomes _ => becomes
    rw [Future.requestCancel]
    split
    · exact ⟨shaped, .refl, id⟩
    · refine does_call fun after meets => ?_
      obtain ⟨shaped', within, ready⟩ := (meets shaped.request).1
      refine ⟨shaped', ?_, ready⟩
      rw [@Future.work_eq fut]
      rwa [@Future.work_eq { fut with token := _ }] at within
  · exact assuming_of_forall fun _ shaped' => absurd shaped' shaped

end

/-! ## The executor -/

section

variable {after : Future} {results : List Datum}

theorem less_of_lt {s' : Multiset Item} {item : Item} (within : Within Below s' s)
    (below : ∀ item' ∈ s, Below item' item) : Less Below s' {item} :=
  (less_of_puts below).trans_right within

/-- A coroutine goes on. -/
theorem run_meets {body : Body} : Does (fut.run body results) (Meets (.run body results fut)) := by
  by_cases given : fut.waiting = .source ∧ fut.token.Bare
  · obtain ⟨waiting, bare⟩ := given
    suffices does : Does (fut.run body results) fun after => Shaped after ∧
        Less Below after.work ({.body body results} + stagesWork fut.stages) from
      does.mono fun _ ran _ _ => ran
    rw [Future.run]
    cases next : body results with
    | «return» r =>
      refine assuming_bind (apply_does value_shaped_datum) fun v applied => ?_
      refine (finish_does bare applied.1).mono fun after settles => ⟨settles.shaped, ?_⟩
      refine Relation.TransGen.trans_right settles.within (less_add _ ?_)
      refine less_of_lt applied.2 fun item member => .body ?_
      simpa [Rest.work, next, Value.work] using member
    | await e =>
      refine assuming_bind (does_call fun _ meets => meets) fun awaited started => ?_
      have waits : Less Below ({.suspended body results} + awaited.work) {.body body results} := by
        refine less_of_lt (within_add_add .refl started.2) fun item member => .body ?_
        simpa [Rest.work, next] using member
      split
      · refine does_call fun after meets => ?_
        obtain ⟨shaped, less⟩ := meets waiting bare
        refine ⟨shaped, less.trans (less_add _ ?_)⟩
        refine Relation.TransGen.trans_right ?_ waits
        refine Relation.ReflTransGen.trans ?_ (within_of_le (Multiset.le_add_right _ _))
        refine (less_of_puts fun item member => ?_).to_reflTransGen
        rw [Multiset.mem_singleton.mp member]
        exact .resumed
      · refine ⟨.mk (fun set => absurd waiting set) trivial (fun _ => bare) bare.tail ?_ ?_ ?_
          fun _ member => absurd member List.not_mem_nil, ?_⟩
        · exact fun _ inner => absurd (waiting.symm.trans inner) (by simp)
        · exact fun _ ready => absurd (waiting.symm.trans ready) (by simp)
        · rintro _ _ _ ⟨⟩
          exact started.1
        · rw [Future.work_eq, Future.rest, waiting]
          exact .trans_right (within_of_eq (add_zero _)) (less_add _ waits)
  · exact assuming_of_forall fun _ waiting bare => absurd ⟨waiting, bare⟩ given

/-- One item of the future is done. -/
structure Fires (fut after : Future) : Prop where
  becomes : Becomes fut after
  less : Less Below after.work fut.work

theorem fires_of_less (shaped : Shaped fut) (unset : ¬ fut.source.IsSet) (shaped' : Shaped after)
    (less : Less Below after.work (fut.source.work + stagesWork fut.stages)) :
    Fires fut after := by
  have waiting := shaped.waiting_of_not_set unset
  have eq : fut.work = fut.source.work + stagesWork fut.stages := by
    rw [Future.work_eq, waiting]
    exact add_zero _
  refine ⟨⟨shaped', ?_, fun ready => ?_⟩, ?_⟩
  · rw [eq]
    exact less.to_reflTransGen
  · rw [not_ready_of_source waiting] at ready
    cases ready
  · rwa [eq]

theorem fire_does (shaped : Shaped fut) : Does fut.fire (Fires fut) := by
  have runs {body : Body} {results : List Datum} (unset : ¬ fut.source.IsSet)
      (less : Within Below {.body body results} fut.source.work) :
      Does (call (.run body results fut)) (Fires fut) := by
    have waiting := shaped.waiting_of_not_set unset
    refine does_call fun after meets => ?_
    obtain ⟨shaped', ran⟩ := meets waiting (shaped.bare_of_source waiting)
    exact fires_of_less shaped unset shaped' (ran.trans_left (within_add _ less))
  rw [Future.fire]
  split
  · rename_i f source
    have unset : ¬ fut.source.IsSet := by simp [source, Source.IsSet]
    refine (pop_set_does (s := f.work) Value.isException _ shaped unset ?_).mono
      fun after settles => ?_
    · exact (apply_does value_shaped_datum).mono fun v applied =>
        ⟨applied.1, applied.2.trans (within_of_eq (add_zero _))⟩
    · refine fires_of_less shaped unset settles.shaped (.trans_right settles.within ?_)
      rw [source]
      exact less_add _ (less_of_puts fun _ member => .async member)
  · rename_i source
    have unset : ¬ fut.source.IsSet := by simp [source, Source.IsSet]
    refine (pop_set_does (fun _ => false) (pure (.datum (.value 0))) shaped unset
      ⟨value_shaped_datum, .refl⟩).mono fun after settles => ?_
    refine fires_of_less shaped unset settles.shaped (.trans_right settles.within ?_)
    rw [source]
    exact less_add _ (less_of_puts fun _ member => absurd member (Multiset.notMem_zero _))
  · rename_i body source
    refine runs (by simp [source, Source.IsSet]) ?_
    rw [source]
    exact .refl
  · rename_i awaited body results source
    split
    · refine runs (by simp [source, Source.IsSet]) ?_
      rw [source]
      refine .trans ?_ (within_of_le (Multiset.le_add_right _ _))
      refine (less_of_puts fun item member => ?_).to_reflTransGen
      rw [Multiset.mem_singleton.mp member]
      exact .resumed
    · trivial
  · trivial

theorem Shaped.setHeld (shaped : Shaped fut) (held stackful : Bool) :
    Shaped { fut with held, stackful } := by
  cases shaped with
  | mk set counted bare tail inside value awaited futures =>
    exact .mk set counted bare tail inside value awaited futures

theorem setHeld_work (held stackful : Bool) :
    ({ fut with held, stackful } : Future).work = fut.work := by
  rw [Future.work_eq, Future.work_eq, Future.rest, Future.rest]

theorem drop_does (shaped : Shaped fut) : Does (fut.drop inCatch) (Becomes fut) := by
  have dropped := shaped.setHeld false fut.stackful
  have work := @setHeld_work fut false fut.stackful
  rw [Future.drop]
  split
  · exact (destroy_does dropped).mono fun _ destroyed =>
      ⟨destroyed.1.shaped, destroyed.1.within.trans (within_of_eq work), destroyed.2⟩
  · exact ⟨dropped, within_of_eq work, id⟩
  · trivial

/-- What is done to a part of a future. -/
theorem event_inner_does {path : List Selector} {event : Event} (shaped : Shaped fut) :
    Does (fut.event (.inner :: path) event)
      fun after => Becomes fut after ∧ (event = .fire → Less Below after.work fut.work) := by
  rw [Future.event]
  split
  · rename_i inner waiting
    refine assuming_bind (does_call fun _ meets => meets (shaped.inside waiting))
      fun inner' changed => ?_
    have eq {inner : Future} : ({ fut with waiting := .inner inner } : Future).work =
        inner.work + fut.rest := by
      rw [Future.work_eq, Future.rest, Future.rest]
      exact add_comm _ _
    have eq' : fut.work = inner.work + fut.rest := by
      rw [Future.work_eq, waiting]
      exact add_comm _ _
    refine (unwrapInner_does rfl (shaped.setInner waiting changed.1.shaped)).mono
      fun after settles => ⟨⟨settles.shaped, settles.within.trans ?_, fun ready => ?_⟩,
        fun fires => .trans_right settles.within ?_⟩
    · rw [eq, eq']
      exact within_add _ changed.1.within
    · rw [not_ready_of_inner waiting] at ready
      cases ready
    · rw [eq, eq']
      exact less_add _ (changed.2 fires)
  · trivial

theorem event_value_does {path : List Selector} {event : Event} (shaped : Shaped fut) :
    Does (fut.event (.value :: path) event)
      fun after => Becomes fut after ∧ (event = .fire → Less Below after.work fut.work) := by
  rw [Future.event]
  split
  · rename_i inner waiting
    cases shaped with
    | mk set counted bare tail inside value awaited futures =>
      refine assuming_bind (does_call fun _ meets => meets (value inner waiting))
        fun inner' changed => ?_
      have eq {inner : Future} :
          ({ fut with waiting := .ready (.future inner) } : Future).work =
            inner.work + fut.rest := by
        rw [Future.work_eq, Future.rest, Future.rest]
        exact add_comm _ _
      have eq' : fut.work = inner.work + fut.rest := by
        rw [Future.work_eq, waiting]
        exact add_comm _ _
      refine ⟨⟨.mk (fun _ => set (by simp [waiting])) counted (fun _ => bare (by simp [waiting]))
        tail ?_ ?_ awaited futures, ?_, fun _ => rfl⟩, fun fires => ?_⟩
      · rintro _ ⟨⟩
      · rintro _ ⟨⟩
        exact changed.1.shaped
      · rw [eq, eq']
        exact within_add _ changed.1.within
      · rw [eq, eq']
        exact less_add _ (changed.2 fires)
  · trivial

theorem event_awaited_does {path : List Selector} {event : Event} (shaped : Shaped fut) :
    Does (fut.event (.awaited :: path) event)
      fun after => Becomes fut after ∧ (event = .fire → Less Below after.work fut.work) := by
  rw [Future.event]
  split
  · rename_i awaited body results source
    have awaits : Shaped awaited := by
      cases shaped with
      | mk _ _ _ _ _ _ awaits => exact awaits awaited body results source
    refine assuming_bind (does_call fun _ meets => meets awaits) fun awaited' changed => ?_
    have eq : fut.work = awaited.work +
        ({.suspended body results} + stagesWork fut.stages + fut.waiting.work) := by
      rw [Future.work_eq, Future.rest, source, Source.work]
      abel
    have eq' : ({ fut with source := .awaiting awaited' body results } : Future).work =
        awaited'.work + ({.suspended body results} + stagesWork fut.stages + fut.waiting.work) := by
      rw [Future.work_eq, Future.rest, Source.work]
      abel
    refine ⟨⟨shaped.changed (by simp [source, Source.IsSet]) trivial ?_ ?_, ?_, id⟩,
      fun fires => ?_⟩
    · rintro _ _ _ ⟨⟩
      exact changed.1.shaped
    · exact fun _ member => absurd member List.not_mem_nil
    · rw [eq, eq']
      exact within_add _ changed.1.within
    · rw [eq, eq']
      exact less_add _ (changed.2 fires)
  · trivial

theorem event_future_does {path : List Selector} {event : Event} {j : ℕ} (shaped : Shaped fut) :
    Does (fut.event (.future j :: path) event)
      fun after => Becomes fut after ∧ (event = .fire → Less Below after.work fut.work) := by
  rw [Future.event]
  split
  · rename_i future at_j
    have shaped' := shaped.futures future (List.mem_of_getElem? at_j)
    refine assuming_bind (does_call fun _ meets => meets shaped') fun future' changed => ?_
    have all {after : Future} (becomes : Becomes (fut.setFuture j future') after) :
        Becomes fut after ∧ (event = .fire → Less Below after.work fut.work) := by
      refine ⟨⟨becomes.shaped, ?_, becomes.ready⟩, fun fires => ?_⟩
      · exact becomes.within.trans (setFuture_within at_j changed.1.within)
      · exact .trans_right becomes.within (setFuture_less at_j (changed.2 fires))
    split
    · rename_i ready
      have same := (changed.1.ready ready).trans ready.symm
      exact all (setFuture_becomes shaped at_j changed.1.shaped same).1
    · rename_i pending
      exact (change_does shaped at_j (by simpa using pending) changed.1.shaped).mono
        fun _ changed => all changed.1
  · trivial

theorem event_meets {path : List Selector} {event : Event} :
    Does (fut.event path event) (Meets (.event path event fut)) := by
  by_cases shaped : Shaped fut
  · suffices does : Does (fut.event path event) fun after =>
        Becomes fut after ∧ (event = .fire → Less Below after.work fut.work) from
      does.mono fun _ changed _ => changed
    cases path with
    | nil =>
      cases event with
      | fire => exact (fire_does shaped).mono fun _ fires => ⟨fires.becomes, fun _ => fires.less⟩
      | drop => exact (drop_does shaped).mono fun _ becomes => ⟨becomes, by rintro ⟨⟩⟩
      | requestCancel =>
        exact requestCancel_meets.mono fun _ meets => ⟨meets shaped, by rintro ⟨⟩⟩
    | cons selector path =>
      cases selector with
      | inner => exact event_inner_does shaped
      | value => exact event_value_does shaped
      | awaited => exact event_awaited_does shaped
      | future => exact event_future_does shaped
  · exact assuming_of_forall fun _ shaped' => absurd shaped' shaped

end

/-! ## Expressions -/

section

theorem attach_does {stage : Stage} (shaped : Shaped fut) : Does (fut.attach stage) fun after =>
    Shaped after ∧ Within Below after.work (fut.work + stage.work) := by
  have attached : stagesWork (fut.stages ++ [stage]) = stagesWork fut.stages + stage.work := by
    simp [stagesWork]
  rw [Future.attach]
  cases result : fut.result with
  | some v =>
    have waiting := result_eq_some.mp result
    refine Assuming.mono (?_ : Does _ (Settles (fut.work + stage.work)))
      fun _ settles => ⟨settles.shaped, settles.within⟩
    refine set_does (shaped.done (shaped.set (by simp [waiting])))
      (shaped.bare (by simp [waiting])) (value_shaped shaped result) (within_of_eq ?_)
    rw [@Future.work_eq fut, waiting, Waiting.work, Future.rest, Future.rest, attached]
    abel
  | none =>
    refine ⟨?_, within_of_eq ?_⟩
    · cases shaped with
      | mk set counted bare tail inside value awaited futures =>
        exact .mk set counted bare tail inside value awaited futures
    · rw [Future.work_eq, Future.work_eq, Future.rest, Future.rest, attached]
      abel

theorem waitFor_shaped {source : Source} (counted : source.Counted)
    (awaited : ∀ awaited body results, source = .awaiting awaited body results → Shaped awaited)
    (futures : ∀ future ∈ source.futures, Shaped future) : Shaped (waitFor source) := by
  refine .mk (fun set => absurd rfl set) counted (fun _ => .inr rfl) (.inl rfl) ?_ ?_ awaited
    futures
  · rintro _ ⟨⟩
  · rintro _ ⟨⟩

theorem waitFor_does {source : Source} (counted : source.Counted)
    (awaited : ∀ awaited body results, source ≠ .awaiting awaited body results)
    (futures : ∀ future ∈ source.futures, Shaped future) :
    Shaped (waitFor source) ∧ Within Below (waitFor source).work source.work := by
  refine ⟨waitFor_shaped counted (fun _ _ _ eq => absurd eq (awaited _ _ _)) futures, ?_⟩
  rw [Future.work_eq, Future.rest]
  exact within_of_eq ((add_zero _).trans (add_zero _))

theorem callAll_does {es : List Expr} : Does (Code.callAll (es.map .start)) fun futures =>
    (∀ future ∈ futures, Shaped future) ∧ Within Below (futuresWork futures) (exprsWork es) := by
  refine assuming_callAll.mono fun futures started => ?_
  induction es generalizing futures with
  | nil =>
    cases started
    exact ⟨fun _ member => absurd member List.not_mem_nil, .refl⟩
  | cons e es ih =>
    cases started with
    | cons first started =>
      obtain ⟨all, within⟩ := ih _ started
      exact ⟨List.forall_mem_cons.mpr ⟨first.2.1, all⟩, within_add_add first.2.2 within⟩

theorem ready_shaped {d : Datum} : Shaped { source := .none, waiting := .ready (.datum d) } := by
  refine .mk (fun _ => trivial) trivial (fun _ => .inl rfl) (.inl rfl) ?_ ?_ ?_ ?_
  · rintro _ ⟨⟩
  · rintro _ ⟨⟩
  · rintro _ _ _ ⟨⟩
  · exact fun _ member => absurd member List.not_mem_nil

theorem start_meets {e : Expr} : Does (start e) (Meets (.start e)) := by
  have ready {e : Expr} {d : Datum} :
      Meets (.start e) { source := .none, waiting := .ready (.datum d) } :=
    ⟨ready_shaped, within_of_le (Multiset.zero_le _)⟩
  cases e with
  | ready d => exact ready
  | async f => exact waitFor_does trivial (by simp) (by simp [Source.futures])
  | asyncWait => exact waitFor_does trivial (by simp) (by simp [Source.futures])
  | asyncResumable body kept stackful =>
    have waits := @waitFor_does (.unstarted body) trivial (by simp) (by simp [Source.futures])
    exact ⟨waits.1.setHeld kept stackful,
      (within_of_eq (setHeld_work kept stackful)).trans waits.2⟩
  | «then» e f | andThen e f =>
    refine assuming_bind (does_call fun _ meets => meets) fun fut started => ?_
    exact (attach_does started.1).mono fun after attached =>
      ⟨attached.1, attached.2.trans (within_add _ started.2)⟩
  | unwrap e =>
    refine assuming_bind (does_call fun _ meets => meets) fun fut started => ?_
    exact (attach_does started.1).mono fun after attached =>
      ⟨attached.1, (attached.2.trans (within_of_eq (add_zero _))).trans started.2⟩
  | whenAll es =>
    refine assuming_bind callAll_does fun futures all => ?_
    have waits := @waitFor_does (.whenAll futures _) rfl (by simp) all.1
    have rests {count : ℕ} :
        0 + (waitFor (.whenAll futures count)).rest = futuresWork futures :=
      (zero_add _).trans (add_zero _)
    dsimp only
    split
    · exact ready
    · split
      · rename_i complete
        refine Assuming.mono (set_does ⟨complete, rfl, all.1⟩ (.inr rfl) value_shaped_datum .refl)
          fun after settles => ⟨settles.shaped, settles.within.trans ?_⟩
        exact (within_of_eq rests).trans all.2
      · exact ⟨waits.1, waits.2.trans all.2⟩
  | whenAny es autoCancel =>
    refine assuming_bind callAll_does fun futures all => ?_
    have waits := @waitFor_does (.whenAny futures autoCancel false) trivial (by simp) all.1
    dsimp only
    split
    · exact ready
    · split
      · refine (callback_whenAny_does waits.1 rfl).mono fun after settles =>
          ⟨settles.shaped, settles.within.trans ?_⟩
        exact (within_of_eq (add_zero _)).trans all.2
      · exact ⟨waits.1, waits.2.trans all.2⟩

theorem meets (op : Op) : Does (body op) (Meets op) := by
  cases op with
  | start => exact start_meets
  | requestCancel => exact requestCancel_meets
  | callTop => exact callTop_meets
  | set => exact set_meets
  | cancelFutures => exact cancelFutures_meets
  | run => exact run_meets
  | event => exact event_meets

/-- **Nothing adds to the work**, and what the executor runs is done with. -/
theorem returns_meets {op : Op} {after : Future} (returns : Returns body (body op) after) :
    Meets op after :=
  always_recursive meets op after returns

end

/-! ## Runs -/

/-- A coroutine that has awaited these results returns, whatever it is given. -/
inductive Ending (body : Body) : List Datum → Prop
  | mk {results : List Datum}
      (next : ∀ e, body results = .await e → ∀ d, Ending body (results ++ [d])) :
      Ending body results

mutual

/-- No coroutine in it goes on forever. -/
def Expr.Terminates : Expr → Prop
  | .ready _ | .asyncWait => True
  | .async f => f.Terminates
  | .asyncResumable body _ _ => Ending body [] ∧ ∀ results, (body results).Terminates
  | .then e f | .andThen e f => e.Terminates ∧ ∀ d, (f d).Terminates
  | .unwrap e => e.Terminates
  | .whenAll es | .whenAny es _ => exprsTerminate es

def Ret.Terminates : Ret → Prop
  | .future e => e.Terminates
  | .value _ | .throws _ | .arg => True

def Rest.Terminates : Rest → Prop
  | .await e => e.Terminates
  | .return r => r.Terminates

def exprsTerminate : List Expr → Prop
  | [] => True
  | e :: es => e.Terminates ∧ exprsTerminate es

end

abbrev AllAcc (s : Multiset Item) : Prop := ∀ item ∈ s, Acc Below item

theorem allAcc_add {s' : Multiset Item} (first : AllAcc s) (last : AllAcc s') :
    AllAcc (s + s') :=
  fun item member => (Multiset.mem_add.mp member).elim (first item) (last item)

theorem allAcc_singleton {item : Item} (acc : Acc Below item) : AllAcc {item} :=
  fun _ member => Multiset.mem_singleton.mp member ▸ acc

theorem allAcc_zero : AllAcc 0 := fun _ member => absurd member (Multiset.notMem_zero _)

theorem acc_function {f : Datum → Ret} (acc : ∀ d, AllAcc (f d).work) :
    Acc Below (.function f) := by
  refine .intro _ fun item below => ?_
  cases below with
  | function member => exact acc _ item member

theorem acc_async {f : Ret} (acc : AllAcc f.work) : Acc Below (.async f) := by
  refine .intro _ fun item below => ?_
  cases below with
  | async member => exact acc item member

/-- What a coroutine awaits or returns next. -/
def Rest.inside : Rest → Multiset Item
  | .await e => e.work
  | .return r => r.work

theorem acc_body {body : Body} {results : List Datum} (ending : Ending body results)
    (acc : ∀ results, AllAcc (body results).inside) : Acc Below (.body body results) := by
  induction ending with
  | @mk results _ ih =>
    refine .intro _ fun item below => ?_
    cases below with
    | body member =>
      have inside := acc results
      unfold Rest.work at member
      cases next : body results with
      | await e =>
        rw [next] at inside
        simp only [next] at member
        refine allAcc_add (allAcc_singleton (.intro _ fun item below => ?_)) inside item member
        cases below with
        | resumed => exact ih e next _
      | «return» r =>
        rw [next] at inside
        simp only [next] at member
        exact inside item member

mutual

theorem Expr.acc : (e : Expr) → e.Terminates → AllAcc e.work
  | .ready _, _ => allAcc_zero
  | .async f, terminates => allAcc_singleton (acc_async (f.acc terminates))
  | .asyncWait, _ => allAcc_singleton (.intro _ fun item below => by cases below)
  | .asyncResumable body _ _, terminates =>
    allAcc_singleton
      (acc_body terminates.1 fun results => (body results).acc (terminates.2 results))
  | .then e f, terminates =>
    allAcc_add (e.acc terminates.1)
      (allAcc_singleton (acc_function fun d => (f d).acc (terminates.2 d)))
  | .andThen e f, terminates =>
    allAcc_add (e.acc terminates.1)
      (allAcc_singleton (acc_function fun d => (f d).acc (terminates.2 d)))
  | .unwrap e, terminates => e.acc terminates
  | .whenAll es, terminates => exprs_acc es terminates
  | .whenAny es _, terminates => exprs_acc es terminates

theorem Ret.acc : (r : Ret) → r.Terminates → AllAcc r.work
  | .value _, _ => allAcc_zero
  | .throws _, _ => allAcc_zero
  | .future e, terminates => e.acc terminates
  | .arg, _ => allAcc_zero

theorem Rest.acc : (rest : Rest) → rest.Terminates → AllAcc rest.inside
  | .await e, terminates => e.acc terminates
  | .return r, terminates => r.acc terminates

theorem exprs_acc : (es : List Expr) → exprsTerminate es → AllAcc (exprsWork es)
  | [], _ => allAcc_zero
  | e :: es, terminates => allAcc_add (e.acc terminates.1) (exprs_acc es terminates.2)

end

/-- **The executor comes to rest**: in every run of an expression it runs finitely many things. -/
theorem fires_finitely {e : Expr} {states : ℕ → Future} {events : ℕ → List Selector × Event}
    (terminates : e.Terminates) (starts : Returns body (start e) (states 0))
    (steps : ∀ n, Returns body ((states n).event (events n).1 (events n).2) (states (n + 1))) :
    ∃ n, ∀ m ≥ n, (events m).2 ≠ .fire := by
  have started : Meets (.start e) (states 0) := @returns_meets (.start e) _ starts
  have meets (n : ℕ) : Meets (.event (events n).1 (events n).2 (states n)) (states (n + 1)) :=
    @returns_meets (.event _ _ _) _ (steps n)
  have shaped (n : ℕ) : Shaped (states n) := by
    induction n with
    | zero => exact started.1
    | succ n ih => exact (meets n ih).1.shaped
  obtain ⟨n, rests⟩ := @finitely_often _ _ _ (fun n => (states n).work) (e.acc terminates)
    started.2 fun n => (meets n (shaped n)).1.within
  exact ⟨n, fun m later fires => rests m later ((meets m (shaped m)).2 fires)⟩

theorem waitAfterCoroutine_terminates (kept : Bool) : (waitAfterCoroutine kept).Terminates := by
  refine ⟨⟨⟨?_⟩, fun _ => trivial⟩, fun _ => trivial⟩
  rintro _ ⟨⟩

/-- The coroutine has ended, and the timer after it has fired. -/
def timerFired : Future :=
  { token := { doCancels := [.source] }, source := .ended, waiting := .ready (.datum (.value 0)) }

def timerStates : ℕ → Future
  | 0 => unstarted true
  | 1 => firedKept
  | _ => timerFired

/-- In the end the user cancels what is ready, over and over. -/
def timerEvents : ℕ → List Selector × Event
  | 0 => ([], .fire)
  | 1 => ([.inner], .fire)
  | _ => ([], .requestCancel false)

theorem timerEvents_fire_finitely : ∃ n, ∀ m ≥ n, (timerEvents m).2 ≠ .fire := by
  refine @fires_finitely _ timerStates _ (waitAfterCoroutine_terminates true)
    (start_waitAfterCoroutine true) ?_
  rintro (_ | _ | n)
  · exact fire_kept_handle
  · exact returns_of_exec 6 (Op.event [.inner] .fire firedKept) rfl
  · exact returns_of_exec 6 (Op.event [] (.requestCancel false) timerFired) rfl

end Tconcurrent.SynchronousCancel
