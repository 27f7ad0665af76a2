import Sylar.Hook.Steps
import Sylar.Schedule.Empty

/-!
# What has happened to a call

The steps that have brought a copy of the callback of a call to the scheduler, the
steps that have finished one, and the steps that have taken its timer out of the set,
read from the history of a run.

* `pending_step`: the copies that stand in a slot or with a worker are those
  brought and not finished.
* `timers_envStep`: the calls on the manager that the runtime makes, and which of them
  take the timer out.
-/

namespace Sylar

namespace World

variable {call : IoCall} {w w' : World} {a : IoAct}

/-- `triggerEvent` stores a copy of the callback that clears `flag`. -/
def delivers : World × IoAct → Bool
  | (w, .deliver i) => decide (w.copies[i]? = some (.ready, true))
  | _ => false

/-- A worker has run a job that writes `flag`, and finishes it. -/
def finishes : World × IoAct → Bool
  | (w, .complete i) => (w.running[i]?).any fun p => writesFlag p.1
  | _ => false

/-- Every copy of the callback that was stored has been run. -/
def AllRun (log : List (World × IoAct)) : Prop := log.countP finishes = log.countP delivers

instance (log : List (World × IoAct)) : Decidable (AllRun log) :=
  inferInstanceAs (Decidable (_ = _))

/-- A step that takes the conditional timer of the call out of the set, or does not put
it in: its insertion is refused, a pass has come to its deadline, another task calls a
function on a timer that has its deadline, or the call cancels it. -/
def TakesOut : World × IoAct → Prop
  | (w, .arm now) => ∃ x ∈ w.mgr.mTimers, (w.mgr.timers x).mNext = now + w.toMs
  | (w, .expire now _) => ∃ t, w.condtionTimer = some t ∧ (w.mgr.timers t).mNext ≤ now
  | (w, .timers c) => ∃ t, w.condtionTimer = some t ∧ TimerManager.Leaves w.mgr t c
  | (w, .cancelTimer) => w.condtionTimer ≠ none
  | _ => False

/-- The conditional timer has been taken out. -/
def TakenOut (log : List (World × IoAct)) : Prop := ∃ q ∈ log, TakesOut q

/-! ## The copies -/

/-- How many jobs in a slot or with a worker write `flag`. -/
def pending (w : World) : ℕ :=
  (occupied w.sched.mTask).countP writesFlag + w.running.countP fun p => writesFlag p.1

theorem pending_eq_zero : w.pending = 0 ↔ ∀ job, Held w job → Harmless job := by
  unfold pending Held Harmless
  rw [Nat.add_eq_zero_iff, List.countP_eq_zero, List.countP_eq_zero]
  constructor
  · rintro ⟨slots, workers⟩ job (slot | ⟨returned, running⟩)
    · exact Bool.eq_false_iff.mpr (slots job slot)
    · exact Bool.eq_false_iff.mpr (workers (job, returned) running)
  · intro harmless
    refine ⟨fun job slot => ?_, fun p running => ?_⟩
    · exact Bool.eq_false_iff.mp (harmless job (.inl slot))
    · exact Bool.eq_false_iff.mp (harmless p.1 (.inr ⟨p.2, running⟩))

theorem pending_congr (slots : w'.sched.mTask = w.sched.mTask) (running : w'.running = w.running) :
    w'.pending = w.pending := by
  unfold pending
  rw [slots, running]

/-- Of the steps of the call, one arms its timer and one cancels it, and none touches the
slots or the workers. -/
theorem frame_ioStep (edge : w.ioStep call a = some w') :
    (w'.sched = w.sched ∧ w'.running = w.running) ∧
      ((w'.mgr = w.mgr ∧ w'.condtionTimer = w.condtionTimer ∧ ¬ TakesOut (w, a)) ∨
        (∃ now, a = .arm now ∧ w.pc = .arm ∧ w' = w.arm now) ∨
        (a = .cancelTimer ∧ w' = w.cancelTimer)) := by
  cases a with
  | enter =>
    obtain ⟨-, after⟩ := Option.ite_none_right_eq_some.mp edge
    obtain rfl := Option.some.inj after
    unfold enter
    split
    · exact ⟨⟨rfl, rfl⟩, .inl ⟨rfl, rfl, id⟩⟩
    · exact ⟨⟨rfl, rfl⟩, .inl ⟨rfl, rfl, id⟩⟩
    · split
      · exact ⟨⟨rfl, rfl⟩, .inl ⟨rfl, rfl, id⟩⟩
      · split <;> exact ⟨⟨rfl, rfl⟩, .inl ⟨rfl, rfl, id⟩⟩
  | syscall r =>
    have edge : w.syscall r = some w' := edge
    unfold syscall at edge
    cases here : w.pc <;> rw [here] at edge <;> dsimp only at edge
    case firstCall =>
      split at edge
      · cases edge
        exact ⟨⟨rfl, rfl⟩, .inl ⟨rfl, rfl, id⟩⟩
      · split at edge <;> cases edge <;> exact ⟨⟨rfl, rfl⟩, .inl ⟨rfl, rfl, id⟩⟩
    all_goals cases edge <;> exact ⟨⟨rfl, rfl⟩, .inl ⟨rfl, rfl, id⟩⟩
  | arm now =>
    obtain ⟨here, after⟩ := Option.ite_none_right_eq_some.mp edge
    obtain rfl := Option.some.inj after
    exact ⟨⟨rfl, rfl⟩, .inr (.inl ⟨now, rfl, here, rfl⟩)⟩
  | cancelTimer =>
    obtain ⟨-, after⟩ := Option.ite_none_right_eq_some.mp edge
    obtain rfl := Option.some.inj after
    exact ⟨⟨rfl, rfl⟩, .inr (.inr ⟨rfl, rfl⟩)⟩
  | loopHead =>
    obtain ⟨-, after⟩ := Option.ite_none_right_eq_some.mp edge
    obtain rfl := Option.some.inj after
    unfold loopHead
    split <;> exact ⟨⟨rfl, rfl⟩, .inl ⟨rfl, rfl, id⟩⟩
  | register alloc refuse | wake | cleanup refuse =>
    obtain ⟨-, after⟩ := Option.ite_none_right_eq_some.mp edge
    obtain rfl := Option.some.inj after
    exact ⟨⟨rfl, rfl⟩, .inl ⟨rfl, rfl, id⟩⟩
  | _ => cases edge

/-- The callbacks of a pass do not write `flag`. -/
theorem pending_flush {i : ℕ} (edge : w.envStep call (.flush i) = some w')
    (harmless : ∀ batch ∈ w.obs, ∀ job, some job ∈ batch → Harmless job) :
    w'.pending = w.pending := by
  unfold envStep at edge
  dsimp only at edge
  split at edge
  · next batch found =>
    obtain rfl := Option.some.inj edge
    have none_new : batch.reduceOption.countP writesFlag = 0 := by
      rw [List.countP_eq_zero]
      intro job inside
      exact Bool.eq_false_iff.mp
        (harmless batch (List.mem_of_getElem? found) job (List.reduceOption_mem_iff.mp inside))
    show (occupied (w.sched.scheduleRange batch).mTask).countP writesFlag + _ = _
    rw [(w.sched.occupied_scheduleRange_option batch).countP_eq, List.countP_append, none_new,
      Nat.zero_add]
    rfl
  · cases edge

theorem pending_deliver {i : ℕ} (edge : w.envStep call (.deliver i) = some w') :
    w'.pending = w.pending + (delivers (w, .deliver i)).toNat := by
  unfold envStep at edge
  dsimp only at edge
  split at edge
  · next task found =>
    obtain rfl := Option.some.inj edge
    have stored := Schedule.occupied_placeFirst (TimerFn.fn task : Job) (-1) w.sched.mTask
    have brought : delivers (w, .deliver i) =
        decide (some (task, true) = some (.ready, true)) := by
      rw [← found]
      rfl
    show (occupied (Schedule.placeFirst _ _ _)).countP writesFlag + _ = _ + _ + _
    rw [stored.countP_eq, List.countP_cons, brought]
    cases task with
    | ready => exact Nat.add_right_comm _ 1 _
    | _ => rfl
  · cases edge

/-- A job leaves its slot for a worker. -/
theorem pending_dequeue {tid : Int} (edge : w.envStep call (.dequeue tid) = some w') :
    w'.pending = w.pending := by
  obtain ⟨slots, -, -⟩ := w.sched.dequeue_spec tid
  unfold envStep at edge
  dsimp only at edge
  unfold pending
  split at edge
  · next sched job taken =>
    obtain rfl := Option.some.inj edge
    rw [taken] at slots
    dsimp only at slots ⊢
    rw [slots, List.countP_append, List.countP_append]
    show _ + (_ + [job].countP writesFlag) = [job].countP writesFlag + _ + _
    omega
  · next sched taken =>
    obtain rfl := Option.some.inj edge
    rw [taken] at slots
    rw [slots]
    rfl

/-- A job that has been executed is still with its worker. -/
theorem pending_execute {i : ℕ} {refuse : Option Errno}
    (edge : w.envStep call (.execute i refuse) = some w') : w'.pending = w.pending := by
  unfold envStep at edge
  dsimp only at edge
  split at edge
  · next job found =>
    obtain rfl := Option.some.inj edge
    obtain ⟨inside, here⟩ := List.getElem?_eq_some_iff.mp found
    have before := List.getElem_cons_eraseIdx_perm inside
    have after := List.set_perm_cons_eraseIdx inside (job, true)
    rw [here] at before
    unfold pending
    dsimp only
    rw [(ran_execute call w refuse job).sched, after.countP_eq, ← before.countP_eq]
    rfl
  · cases edge

theorem pending_complete {i : ℕ} (edge : w.envStep call (.complete i) = some w') :
    w'.pending + (finishes (w, .complete i)).toNat = w.pending := by
  unfold envStep at edge
  dsimp only at edge
  split at edge
  · next job found =>
    obtain rfl := Option.some.inj edge
    obtain ⟨inside, here⟩ := List.getElem?_eq_some_iff.mp found
    have before := List.getElem_cons_eraseIdx_perm inside
    rw [here] at before
    have finished : finishes (w, .complete i) =
        (some (job, true)).any fun p => writesFlag p.1 := by
      rw [← found]
      rfl
    unfold pending
    rw [← before.countP_eq, List.countP_cons, finished]
    show _ + _ + (writesFlag job).toNat = _
    cases writesFlag job with
    | true => exact Nat.add_assoc ..
    | false => rfl
  · cases edge

/-- The callbacks of other tasks do not write `flag`. -/
theorem pending_schedule {k : ℕ} {threadId : Int}
    (edge : w.envStep call (.schedule k threadId) = some w') : w'.pending = w.pending := by
  obtain rfl := Option.some.inj edge
  have stored := Schedule.occupied_placeFirst (TimerFn.fn (Task.other k) : Job) threadId
    w.sched.mTask
  show (occupied (Schedule.placeFirst _ _ _)).countP writesFlag + _ = _
  rw [stored.countP_eq]
  rfl

/-- What the runtime does to the copies: it brings one or finishes one. -/
theorem pending_envStep (edge : w.envStep call a = some w')
    (harmless : ∀ batch ∈ w.obs, ∀ job, some job ∈ batch → Harmless job) :
    w'.pending + (finishes (w, a)).toNat = w.pending + (delivers (w, a)).toNat := by
  cases a with
  | flush i => exact pending_flush edge harmless
  | deliver i => exact pending_deliver edge
  | dequeue tid => exact pending_dequeue edge
  | execute i refuse => exact pending_execute edge
  | complete i => exact pending_complete edge
  | schedule k threadId => exact pending_schedule edge
  | expire now clock | setStopping =>
    cases edge
    rfl
  | report fd events =>
    unfold envStep at edge
    dsimp only at edge
    split at edge
    · obtain ⟨-, -, rfl⟩ := Option.map_eq_some_iff.mp edge
      rfl
    · cases edge
  | test i =>
    unfold envStep at edge
    dsimp only at edge
    split at edge <;> cases edge
    rfl
  | events c refuse =>
    obtain ⟨-, after⟩ := Option.ite_none_right_eq_some.mp edge
    cases after
    rfl
  | timers c =>
    obtain ⟨-, after⟩ := Option.ite_none_right_eq_some.mp edge
    obtain ⟨-, -, rfl⟩ := Option.map_eq_some_iff.mp after
    rfl
  | _ => cases edge

/-- The copies pending are those stored and not run. -/
theorem pending_step (edge : w.step call a = some w')
    (harmless : ∀ batch ∈ w.obs, ∀ job, some job ∈ batch → Harmless job) :
    w'.pending + (finishes (w, a)).toNat = w.pending + (delivers (w, a)).toNat := by
  rcases step_cases edge with own | around
  · rw [pending_congr (congrArg Schedule.mTask (frame_ioStep own).1.1) (frame_ioStep own).1.2]
    cases a with
    | deliver i | complete i => cases own
    | _ => rfl
  · exact pending_envStep around harmless

/-! ## The timer -/

theorem leaves_map (m : TimerManager Job) (t : ℕ) (c : TimerCall ℕ ℕ) :
    TimerManager.Leaves m t (c.map Task.other Cond.other) ↔ TimerManager.Leaves m t c := by
  cases c <;> exact Iff.rfl

/-- A step of the runtime makes at most one call on the manager, and not on the timer of
the call. -/
theorem timers_envStep (edge : w.envStep call a = some w') :
    (w'.mgr = w.mgr ∧ ¬ TakesOut (w, a)) ∨ ∃ c : TimerCall Task Cond, w.mgr.step c = some w'.mgr ∧
      (c.target = none ∨ c.target ≠ w.condtionTimer) ∧
      (TakesOut (w, a) ↔ ∃ t, w.condtionTimer = some t ∧ TimerManager.Leaves w.mgr t c) := by
  cases a with
  | expire now clock =>
    obtain rfl := Option.some.inj edge
    exact .inr ⟨.getExpiredCb now clock, rfl, .inl rfl, Iff.rfl⟩
  | timers c =>
    obtain ⟨allowed, after⟩ := Option.ite_none_right_eq_some.mp edge
    obtain ⟨mgr, inner, rfl⟩ := Option.map_eq_some_iff.mp after
    have same : (c.map Task.other Cond.other).target = c.target := by cases c <;> rfl
    refine .inr ⟨_, inner, same ▸ allowed.2, ?_⟩
    exact exists_congr fun t => and_congr_right fun _ => (leaves_map w.mgr t c).symm
  | flush i | test i | deliver i | dequeue tid | execute i refuse | complete i =>
    refine .inl ⟨?_, id⟩
    unfold envStep at edge
    dsimp only at edge
    split at edge <;> cases edge
    all_goals first | rfl | exact (ran_execute ..).mgr
  | report fd events =>
    unfold envStep at edge
    dsimp only at edge
    split at edge
    · obtain ⟨-, -, rfl⟩ := Option.map_eq_some_iff.mp edge
      exact .inl ⟨rfl, id⟩
    · cases edge
  | events c refuse =>
    obtain ⟨-, after⟩ := Option.ite_none_right_eq_some.mp edge
    cases after
    exact .inl ⟨rfl, id⟩
  | schedule k threadId | setStopping =>
    cases edge
    exact .inl ⟨rfl, id⟩
  | _ => cases edge

end World

end Sylar
