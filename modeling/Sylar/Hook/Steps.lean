import Sylar.Hook.Model
import Sylar.IOmanager.Callbacks
import Sylar.Schedule.Conservation
import Sylar.Timer.Callbacks

/-!
# What the runtime can do to a call

Between two steps of `do_io` the idle loops, the workers and the other tasks
take steps of their own. `Around` says once what such a step can do: to the
timers, to the table, and to the places where a callback can wait to be run. The
local variables of the call stay, but for `flag` and `cancelled`.

* `around_envStep`: every step of the runtime is one.
* `step_cases`: every step is one of the call or one of the runtime.
-/

namespace Sylar

/-- The jobs that write to the local variable `flag`. -/
def writesFlag : Job → Bool
  | .fn .ready | .onTimer _ (some .ready) => true
  | _ => false

/-- The jobs that do not. -/
def Harmless (job : Job) : Prop := writesFlag job = false

/-- The points of the call that can follow a point. -/
def IoPc.next : IoPc → List IoPc
  | .enter => [.direct, .returned, .firstCall]
  | .direct => [.returned]
  | .firstCall => [.firstCall, .arm, .returned]
  | .arm => [.register]
  | .register => [.loopHead]
  | .loopHead => [.waiting, .cleanup]
  | .waiting => [.retry]
  | .retry => [.loopHead]
  | .cleanup => [.cancelTimer, .returned]
  | .cancelTimer => [.returned]
  | .returned => []

namespace World

variable {call : IoCall} {w w' : World} {a : IoAct}

/-- The variables of the call that only its own steps assign. -/
structure Locals where
  hookEnable : Bool
  ctx : Option FdCtx
  pc : IoPc
  n : Int
  errno : Errno
  toMs : UInt64
  condtionTimer : Option ℕ
  first : Option IoResult

def locals (w : World) : Locals :=
  ⟨w.hookEnable, w.ctx, w.pc, w.n, w.errno, w.toMs, w.condtionTimer, w.first⟩

/-- A job stands in a slot or with a worker. -/
def Held (w : World) (job : Job) : Prop :=
  job ∈ occupied w.sched.mTask ∨ ∃ returned, (job, returned) ∈ w.running

/-- What a step does to the timers: the manager stays good, no callback and no
timer comes in but those of other tasks. -/
structure TimersKept (w w' : World) : Prop where
  good : w.mgr.Good → w'.mgr.Good
  created : w.mgr.created ≤ w'.mgr.created
  callbacks : w.mgr.Callbacks Harmless → w'.mgr.Callbacks Harmless
  out : w.mgr.Good → ∀ t, w.condtionTimer = some t → t < w.mgr.created →
    t ∉ w.mgr.mTimers → t ∉ w'.mgr.mTimers

/-- What a step does to the table: `ready` comes to wait nowhere, and the
context of the call's descriptor stays or goes. -/
structure TableKept (call : IoCall) (w w' : World) : Prop where
  waits : ∀ fd d, w'.io.Waits fd d .ready → w.io.Waits fd d .ready
  own : w'.io.mEvents.lookup call.fd = none ∨
    w'.io.mEvents.lookup call.fd = w.io.mEvents.lookup call.fd

/-- What a step does to the places where jobs wait: batches come from timers,
copies of `ready` from the table, and a job that writes `flag` comes to be held
only by the delivery of a copy. -/
structure JobsKept (w w' : World) (a : IoAct) : Prop where
  obs : ∀ batch ∈ w'.obs, ∀ job, some job ∈ batch →
    (∃ old ∈ w.obs, some job ∈ old) ∨ ∃ t, (w.mgr.timers t).mCb = some job
  copies : ∀ p ∈ w'.copies, p.1 = Task.ready →
    (∃ q ∈ w.copies, q.1 = Task.ready) ∨ ∃ fd d, w.io.Waits fd d .ready
  held : ∀ job, Held w' job → Harmless job ∨ Held w job ∨ (∃ batch ∈ w.obs, some job ∈ batch) ∨
    ∃ i, a = .deliver i ∧ w.copies[i]? = some (.ready, true)

/-- What a step does that does not run the timeout: `flag` is not set, what the
timeout writes stays, and so does the context of the call's descriptor. -/
structure Calm (call : IoCall) (w w' : World) : Prop where
  flag : w'.flag = true → w.flag = true
  cancelled : w'.cancelled = w.cancelled
  timedOut : w'.timedOut = w.timedOut
  own : w'.io.mEvents.lookup call.fd = w.io.mEvents.lookup call.fd

/-- A step of the runtime. -/
structure Around (call : IoCall) (w w' : World) (a : IoAct) : Prop where
  locals : w'.locals = w.locals
  calm : (∃ i refuse, a = .execute i refuse) ∨ Calm call w w'
  timers : TimersKept w w'
  table : TableKept call w w'
  jobs : JobsKept w w' a

theorem Around.pc (env : Around call w w' a) : w'.pc = w.pc := congrArg Locals.pc env.locals

theorem Around.condtionTimer (env : Around call w w' a) : w'.condtionTimer = w.condtionTimer :=
  congrArg Locals.condtionTimer env.locals

theorem Calm.same (flag : w'.flag = w.flag) (cancelled : w'.cancelled = w.cancelled)
    (timedOut : w'.timedOut = w.timedOut) (io : w'.io = w.io) : Calm call w w' :=
  ⟨fun set => flag ▸ set, cancelled, timedOut, by rw [io]⟩

theorem TimersKept.same (mgr : w'.mgr = w.mgr) : TimersKept w w' := by
  constructor
  · rw [mgr]
    exact id
  · rw [mgr]
  · rw [mgr]
    exact id
  · intro _ t _ _ out
    rwa [mgr]

theorem TableKept.same (io : w'.io = w.io) : TableKept call w w' := by
  constructor
  · rw [io]
    exact fun fd d waits => waits
  · rw [io]
    exact .inr rfl

/-- The jobs stay where they are, or are taken out. -/
theorem JobsKept.fewer (obs : ∀ batch ∈ w'.obs, batch ∈ w.obs)
    (copies : ∀ p ∈ w'.copies, ∃ q ∈ w.copies, q.1 = p.1)
    (held : ∀ job, Held w' job → Harmless job ∨ Held w job) : JobsKept w w' a := by
  constructor
  · intro batch member job inside
    exact .inl ⟨batch, obs batch member, inside⟩
  · intro p member ready
    obtain ⟨q, old, same⟩ := copies p member
    exact .inl ⟨q, old, same.trans ready⟩
  · intro job here
    exact (held job here).imp_right .inl

/-- Only the jobs held differ. -/
theorem JobsKept.of_held (obs : w'.obs = w.obs) (copies : w'.copies = w.copies)
    (held : ∀ job, Held w' job → Harmless job ∨ Held w job) : JobsKept w w' a := by
  refine JobsKept.fewer ?_ ?_ held
  · rw [obs]
    exact fun batch member => member
  · rw [copies]
    exact fun p member => ⟨p, member, rfl⟩

theorem JobsKept.same (obs : w'.obs = w.obs) (copies : w'.copies = w.copies)
    (slots : w'.sched.mTask = w.sched.mTask) (running : w'.running = w.running) :
    JobsKept w w' a := by
  refine JobsKept.of_held obs copies ?_
  unfold Held
  rw [slots, running]
  exact fun job here => .inr here

/-- A step that only moves jobs between the places where they wait. -/
theorem Around.of_jobs (locals : w'.locals = w.locals) (io : w'.io = w.io) (mgr : w'.mgr = w.mgr)
    (flag : w'.flag = w.flag) (cancelled : w'.cancelled = w.cancelled)
    (timedOut : w'.timedOut = w.timedOut) (jobs : JobsKept w w' a) : Around call w w' a :=
  ⟨locals, .inr (Calm.same flag cancelled timedOut io), TimersKept.same mgr, TableKept.same io,
    jobs⟩

/-! ## Idle loops -/

theorem timersKept_step {c : TimerCall Task Cond} (edge : w.mgr.step c = some w'.mgr)
    (brings : TimerManager.CallBrings Harmless c)
    (other : c.target = none ∨ c.target ≠ w.condtionTimer) : TimersKept w w' := by
  constructor
  · exact fun good => good.next edge
  · obtain ⟨-, after⟩ := TimerManager.step_eq_some.mp edge
    rw [after]
    exact TimerManager.created_edits_le _ _
  · exact fun before => TimerManager.callbacks_step before edge brings
  · intro good t own old out
    apply TimerManager.not_mem_step good edge old out
    rcases other with none | apart
    · rw [none]
      exact Option.some_ne_none t ∘ Eq.symm
    · rwa [← own]

theorem around_expire (now : UInt64) (clock : ℕ → UInt64)
    (edge : w.envStep call (.expire now clock) = some w') :
    Around call w w' (.expire now clock) := by
  obtain rfl := Option.some.inj edge
  refine ⟨rfl, .inr (Calm.same rfl rfl rfl rfl), ?_, TableKept.same rfl, ?_⟩
  · exact timersKept_step (c := .getExpiredCb now clock) rfl trivial (.inl rfl)
  · constructor
    · intro batch member job inside
      dsimp only at member
      split at member
      · exact .inl ⟨batch, member, inside⟩
      · rcases List.mem_append.mp member with old | new
        · exact .inl ⟨batch, old, inside⟩
        · cases List.mem_singleton.mp new
          obtain ⟨t, -, stored⟩ := List.mem_map.mp inside
          exact .inr ⟨t, stored⟩
    · intro p member ready
      exact .inl ⟨p, member, ready⟩
    · intro job held
      exact .inr (.inl held)

theorem around_flush (i : ℕ) (edge : w.envStep call (.flush i) = some w') :
    Around call w w' (.flush i) := by
  cases found : w.obs[i]? with
  | none => simp only [envStep, found, reduceCtorEq] at edge
  | some batch =>
    simp only [envStep, found, Option.some.injEq] at edge
    subst edge
    refine Around.of_jobs rfl rfl rfl rfl rfl rfl ?_
    constructor
    · intro old member job inside
      exact .inl ⟨old, List.mem_of_mem_eraseIdx member, inside⟩
    · intro p member ready
      exact .inl ⟨p, member, ready⟩
    · intro job held
      rcases held with slot | running
      · rcases Schedule.mem_scheduleRange slot with new | old
        · exact .inr (.inr (.inl ⟨batch, List.mem_of_getElem? found, new⟩))
        · exact .inr (.inl (.inl old))
      · exact .inr (.inl (.inr running))

theorem around_report (fd : Int32) (events : BitVec 32)
    (edge : w.envStep call (.report fd events) = some w') :
    Around call w w' (.report fd events) := by
  cases found : w.io.epoll fd with
  | none => simp only [envStep, found, reduceCtorEq] at edge
  | some entry =>
    simp only [envStep, found] at edge
    obtain ⟨⟨io, cbs⟩, reported, rfl⟩ := Option.map_eq_some_iff.mp edge
    have table := (w.io.report_frame reported).1
    refine ⟨rfl, .inr ⟨id, rfl, rfl, by rw [table]⟩, TimersKept.same rfl, ⟨?_, ?_⟩, ⟨?_, ?_, ?_⟩⟩
    · exact fun fd d => (IOmanager.waits_congr table).mp
    · exact .inr (by rw [table])
    · intro batch member job inside
      exact .inl ⟨batch, member, inside⟩
    · intro p member ready
      rcases List.mem_append.mp member with old | new
      · exact .inl ⟨p, old, ready⟩
      · obtain ⟨cb, passed, rfl⟩ := List.mem_map.mp new
        exact .inr (IOmanager.waits_report reported (ready ▸ passed))
    · intro job held
      exact .inr (.inl held)

theorem around_test (i : ℕ) (edge : w.envStep call (.test i) = some w') :
    Around call w w' (.test i) := by
  unfold envStep at edge
  dsimp only at edge
  split at edge
  · next task found =>
    obtain rfl := Option.some.inj edge
    refine Around.of_jobs rfl rfl rfl rfl rfl rfl ?_
    apply JobsKept.fewer
    · exact fun batch member => member
    · intro p member
      dsimp only at member
      split at member
      · exact ⟨p, List.mem_of_mem_eraseIdx member, rfl⟩
      · rcases List.mem_or_eq_of_mem_set member with old | new
        · exact ⟨p, old, rfl⟩
        · exact ⟨(task, false), List.mem_of_getElem? found, by rw [new]⟩
    · exact fun job held => .inr held
  · cases edge

theorem around_deliver (i : ℕ) (edge : w.envStep call (.deliver i) = some w') :
    Around call w w' (.deliver i) := by
  unfold envStep at edge
  dsimp only at edge
  split at edge
  · next task found =>
    obtain rfl := Option.some.inj edge
    refine Around.of_jobs rfl rfl rfl rfl rfl rfl ?_
    constructor
    · intro batch member job inside
      exact .inl ⟨batch, member, inside⟩
    · intro p member ready
      exact .inl ⟨p, List.mem_of_mem_eraseIdx member, ready⟩
    · intro job held
      rcases held with slot | running
      · have stored := (Schedule.occupied_placeFirst (TimerFn.fn task : Job) (-1)
          w.sched.mTask).mem_iff.mp slot
        rcases List.mem_cons.mp stored with same | old
        · cases task with
          | ready => exact .inr (.inr (.inr ⟨i, rfl, found⟩))
          | timeout => exact .inl (same ▸ rfl)
          | other k => exact .inl (same ▸ rfl)
        · exact .inr (.inl (.inl old))
      · exact .inr (.inl (.inr running))
  · cases edge

/-! ## Workers -/

theorem around_dequeue (tid : Int) (edge : w.envStep call (.dequeue tid) = some w') :
    Around call w w' (.dequeue tid) := by
  obtain ⟨slots, -, -⟩ := w.sched.dequeue_spec tid
  unfold envStep at edge
  dsimp only at edge
  split at edge
  · next sched job taken =>
    obtain rfl := Option.some.inj edge
    rw [taken] at slots
    refine Around.of_jobs rfl rfl rfl rfl rfl rfl ?_
    refine JobsKept.of_held rfl rfl fun other held => ?_
    rcases held with slot | ⟨returned, running⟩
    · refine .inr (.inl ?_)
      rw [slots]
      exact List.mem_append_right _ slot
    · rcases List.mem_append.mp running with old | new
      · exact .inr (.inr ⟨returned, old⟩)
      · cases List.mem_singleton.mp new
        refine .inr (.inl ?_)
        rw [slots]
        exact List.mem_append_left _ (List.mem_singleton_self _)
  · next sched taken =>
    obtain rfl := Option.some.inj edge
    rw [taken] at slots
    refine Around.of_jobs rfl rfl rfl rfl rfl rfl ?_
    refine JobsKept.of_held rfl rfl fun other held => ?_
    rcases held with slot | running
    · refine .inr (.inl ?_)
      rw [slots]
      exact slot
    · exact .inr (.inr running)

/-- What a job can do: nothing to the timers and the queues, and to the table
what `delEvent` does. -/
structure Ran (call : IoCall) (w w' : World) : Prop where
  locals : w'.locals = w.locals
  mgr : w'.mgr = w.mgr
  sched : w'.sched = w.sched
  obs : w'.obs = w.obs
  copies : w'.copies = w.copies
  table : TableKept call w w'

theorem ran_same : Ran call w w := ⟨rfl, rfl, rfl, rfl, rfl, TableKept.same rfl⟩

theorem lookup_delEvent (event : Event) (activate : Bool) (refuse : Option Errno) :
    (w.io.delEvent call.fd event activate refuse).1.mEvents.lookup call.fd = none ∨
      (w.io.delEvent call.fd event activate refuse).1.mEvents.lookup call.fd =
        w.io.mEvents.lookup call.fd := by
  cases found : w.io.mEvents.lookup call.fd with
  | none =>
    rw [w.io.delEvent_absent found]
    exact .inl found
  | some ctx =>
    rcases w.io.delEvent_cases found event activate refuse with ⟨-, after, -⟩ | ⟨-, after, -⟩
    · rw [after]
      exact .inr found
    · rw [after]
      dsimp only
      split
      · exact .inr found
      · exact .inl (AList.lookup_erase _ _)

theorem ran_timeout (refuse : Option Errno) : Ran call w (w.timeout call refuse) := by
  refine ⟨rfl, rfl, rfl, rfl, rfl, ⟨?_, ?_⟩⟩
  · exact fun fd d waits => IOmanager.waits_delEvent waits
  · exact lookup_delEvent _ _ _

theorem ran_effect (refuse : Option Errno) (task : Task) :
    Ran call w (w.effect call refuse task) := by
  cases task with
  | ready => exact ⟨rfl, rfl, rfl, rfl, rfl, TableKept.same rfl⟩
  | timeout =>
    unfold effect
    dsimp only
    split
    · exact ran_timeout refuse
    · exact ran_same
  | other k => exact ran_same

theorem ran_execute (call : IoCall) (w : World) (refuse : Option Errno) (job : Job) :
    Ran call w (w.execute call refuse job) := by
  unfold execute
  cases job with
  | fn task => exact ran_effect refuse task
  | onTimer weakCond cb =>
    dsimp only
    split
    · exact ran_effect refuse _
    · exact ran_same

theorem around_execute (i : ℕ) (refuse : Option Errno)
    (edge : w.envStep call (.execute i refuse) = some w') :
    Around call w w' (.execute i refuse) := by
  unfold envStep at edge
  dsimp only at edge
  split at edge
  · next job found =>
    obtain rfl := Option.some.inj edge
    have ran := ran_execute call w refuse job
    refine ⟨ran.locals, .inl ⟨i, refuse, rfl⟩, TimersKept.same ran.mgr,
      ⟨ran.table.waits, ran.table.own⟩, ?_⟩
    apply JobsKept.fewer
    · exact fun batch member => ran.obs ▸ member
    · exact fun p member => ⟨p, ran.copies ▸ member, rfl⟩
    · intro other held
      rcases held with slot | ⟨returned, running⟩
      · refine .inr (.inl ?_)
        rwa [← ran.sched]
      · rcases List.mem_or_eq_of_mem_set running with old | new
        · exact .inr (.inr ⟨returned, old⟩)
        · cases new
          exact .inr (.inr ⟨false, List.mem_of_getElem? found⟩)
  · cases edge

theorem around_complete (i : ℕ) (edge : w.envStep call (.complete i) = some w') :
    Around call w w' (.complete i) := by
  unfold envStep at edge
  dsimp only at edge
  split at edge
  · obtain rfl := Option.some.inj edge
    refine Around.of_jobs rfl rfl rfl rfl rfl rfl ?_
    refine JobsKept.of_held rfl rfl fun job held => ?_
    rcases held with slot | ⟨returned, running⟩
    · exact .inr (.inl slot)
    · exact .inr (.inr ⟨returned, List.mem_of_mem_eraseIdx running⟩)
  · cases edge

/-! ## Other tasks -/

theorem around_events (c : EventCall ℕ) (refuse : Option Errno)
    (edge : w.envStep call (.events c refuse) = some w') :
    Around call w w' (.events c refuse) := by
  unfold envStep at edge
  dsimp only at edge
  split at edge
  · next allowed =>
    obtain rfl := Option.some.inj edge
    have other : call.fd ≠ (c.map Task.other).fd := by
      have same : (c.map Task.other).fd = c.fd := by cases c <;> rfl
      rw [same]
      exact allowed.1.symm
    have own := IOmanager.lookup_apply (s := w.io) refuse other
    refine ⟨rfl, .inr ⟨id, rfl, rfl, own⟩, TimersKept.same rfl, ⟨?_, .inr own⟩,
      JobsKept.same rfl rfl rfl rfl⟩
    intro fd d waits
    rcases IOmanager.waits_apply waits with old | ⟨k, new⟩
    · exact old
    · cases new
  · cases edge

theorem around_timers (c : TimerCall ℕ ℕ) (edge : w.envStep call (.timers c) = some w') :
    Around call w w' (.timers c) := by
  unfold envStep at edge
  dsimp only at edge
  split at edge
  · next allowed =>
    obtain ⟨mgr, inner, rfl⟩ := Option.map_eq_some_iff.mp edge
    refine ⟨rfl, .inr (Calm.same rfl rfl rfl rfl), ?_, TableKept.same rfl,
      JobsKept.same rfl rfl rfl rfl⟩
    apply timersKept_step (c := c.map Task.other Cond.other) inner
    · cases c with
      | addTimer ms cb recurring now =>
        intro f given
        obtain ⟨k, -, rfl⟩ := Option.map_eq_some_iff.mp given
        rfl
      | addCondtionTimer ms cb weakCond recurring now => cases cb <;> rfl
      | _ => trivial
    · have same : (c.map Task.other Cond.other).target = c.target := by cases c <;> rfl
      rw [same]
      exact allowed.2
  · cases edge

theorem around_schedule (k : ℕ) (threadId : Int)
    (edge : w.envStep call (.schedule k threadId) = some w') :
    Around call w w' (.schedule k threadId) := by
  obtain rfl := Option.some.inj edge
  refine Around.of_jobs rfl rfl rfl rfl rfl rfl ?_
  refine JobsKept.of_held rfl rfl fun job held => ?_
  rcases held with slot | running
  · have stored := (Schedule.occupied_placeFirst (TimerFn.fn (Task.other k) : Job) threadId
      w.sched.mTask).mem_iff.mp slot
    rcases List.mem_cons.mp stored with rfl | old
    · exact .inl rfl
    · exact .inr (.inl old)
  · exact .inr (.inr running)

/-! ## All steps -/

/-- Every step of the runtime keeps what `Around` says. -/
theorem around_envStep (edge : w.envStep call a = some w') : Around call w w' a := by
  cases a with
  | expire now clock => exact around_expire now clock edge
  | flush i => exact around_flush i edge
  | report fd events => exact around_report fd events edge
  | test i => exact around_test i edge
  | deliver i => exact around_deliver i edge
  | dequeue tid => exact around_dequeue tid edge
  | execute i refuse => exact around_execute i refuse edge
  | complete i => exact around_complete i edge
  | events c refuse => exact around_events c refuse edge
  | timers c => exact around_timers c edge
  | schedule k threadId => exact around_schedule k threadId edge
  | setStopping =>
    obtain rfl := Option.some.inj edge
    exact Around.of_jobs rfl rfl rfl rfl rfl rfl (JobsKept.same rfl rfl rfl rfl)
  | _ => cases edge

/-- A step is one of the call or one of its runtime. -/
theorem step_cases (edge : w.step call a = some w') :
    w.ioStep call a = some w' ∨ w.envStep call a = some w' := by
  unfold step at edge
  rcases Option.or_eq_some_iff.mp edge with own | ⟨-, around⟩
  · exact .inl own
  · exact .inr around

theorem pc_enter (call : IoCall) (w : World) :
    (w.enter call).pc = .direct ∨ (w.enter call).pc = .returned ∨
      (w.enter call).pc = .firstCall := by
  unfold enter
  split
  · exact .inl rfl
  · exact .inl rfl
  · split
    · exact .inr (.inl rfl)
    · split
      · exact .inl rfl
      · exact .inr (.inr rfl)

theorem pc_cleanup (call : IoCall) (w : World) (refuse : Option Errno) :
    (w.cleanup call refuse).pc = .cancelTimer ∨ (w.cleanup call refuse).pc = .returned := by
  unfold cleanup
  exact ite_eq_or_eq _ _ _

/-- Where a step of the call takes it. -/
theorem pc_ioStep (edge : w.ioStep call a = some w') : w'.pc ∈ w.pc.next := by
  cases a with
  | enter =>
    obtain ⟨here, after⟩ := Option.ite_none_right_eq_some.mp edge
    obtain rfl := Option.some.inj after
    rcases pc_enter call w with pc | pc | pc
    · rw [here, pc]
      decide
    · rw [here, pc]
      decide
    · rw [here, pc]
      decide
  | syscall r =>
    have edge : w.syscall r = some w' := edge
    unfold syscall at edge
    cases here : w.pc <;> rw [here] at edge <;> dsimp only at edge
    case direct =>
      obtain rfl := Option.some.inj edge
      exact List.mem_cons_self
    case firstCall =>
      split at edge
      · obtain rfl := Option.some.inj edge
        show w.pc ∈ _
        rw [here]
        decide
      · split at edge
        · obtain rfl := Option.some.inj edge
          dsimp only
          split
          · decide
          · decide
        · obtain rfl := Option.some.inj edge
          dsimp only
          decide
    case retry =>
      obtain rfl := Option.some.inj edge
      exact List.mem_cons_self
    all_goals cases edge
  | arm now =>
    obtain ⟨here, after⟩ := Option.ite_none_right_eq_some.mp edge
    obtain rfl := Option.some.inj after
    rw [here]
    exact List.mem_cons_self
  | register alloc refuse =>
    obtain ⟨⟨here, -⟩, after⟩ := Option.ite_none_right_eq_some.mp edge
    obtain rfl := Option.some.inj after
    rw [here]
    exact List.mem_cons_self
  | loopHead =>
    obtain ⟨here, after⟩ := Option.ite_none_right_eq_some.mp edge
    obtain rfl := Option.some.inj after
    rw [here]
    unfold loopHead
    split
    · exact List.mem_cons_self
    · exact List.mem_cons_of_mem _ List.mem_cons_self
  | wake =>
    obtain ⟨⟨here, -⟩, after⟩ := Option.ite_none_right_eq_some.mp edge
    obtain rfl := Option.some.inj after
    rw [here]
    exact List.mem_cons_self
  | cleanup refuse =>
    obtain ⟨here, after⟩ := Option.ite_none_right_eq_some.mp edge
    obtain rfl := Option.some.inj after
    rcases pc_cleanup call w refuse with pc | pc
    · rw [here, pc]
      decide
    · rw [here, pc]
      decide
  | cancelTimer =>
    obtain ⟨here, after⟩ := Option.ite_none_right_eq_some.mp edge
    obtain rfl := Option.some.inj after
    rw [here]
    exact List.mem_cons_self
  | _ => cases edge

/-- After the registration, the context of the descriptor holds `ready`. -/
theorem lookup_register (call : IoCall) (w : World) (alloc : BitVec 64) (refuse : Option Errno) :
    ∃ ctx, (w.register call alloc refuse).io.mEvents.lookup call.fd = some ctx ∧
      (ctx.waiter call.event).mCb = some .ready := by
  refine ⟨w.io.addedContext call.fd (some .ready) call.event.event false alloc, ?_, ?_⟩
  · show (w.io.addEvent call.fd (some .ready) call.event.event false alloc
      refuse).1.mEvents.lookup call.fd = _
    rcases w.io.addEvent_cases call.fd (some .ready) call.event.event false alloc refuse with
      ⟨none, -⟩ | ⟨-, -, after, -⟩ | ⟨-, -, after, -⟩
    · exact absurd none call.event.event_ne_none
    · rw [after]
      exact AList.lookup_insert _
    · rw [after]
      exact AList.lookup_insert _
  · rw [IOmanager.waiter_addedContext, if_pos rfl]

end World

end Sylar
