import Sylar.Hook.Readiness
import Sylar.Schedule.Progress

/-!
# A registration taken away from a call

The hooked `close` and `cancelRead`, `cancelWrite`, `cancelAccept` and `cancelAll` of a
socket call `IOmanager::cancel`, which takes the registration out of the table and calls
nobody. A call of `do_io` that waits on the descriptor keeps waiting: its own timeout
calls `delEvent`, which no longer finds the registration, or finds the one of whoever
has been given the number since.

* `fdStep`: the steps around the call with these calls and the later use of the number.
* `conveyed_envStep`: where the copies of the readiness callback can come from.
* `Silent.next`: a call that has lost its registration stays as it is, whatever is done.
* `hangs_iff`: a call waits for ever afterwards if and only if `flag` is set then and
  its callback is not on its way to a worker already.
-/

namespace Sylar

open Runs

/-- The steps around a call whose descriptor is used by others. `close` comes from a
thread with the hooks enabled or not, inside the `IOmanager` of the call or not;
`last` says that no other descriptor refers to the file, so that the kernel takes
the entry out of the interest set. `cancelAll` stands for the four calls of a socket
that are `IOmanager::cancel`. `opened` and `events` are what other tasks do with the
number. -/
inductive FdAct where
  | run (a : IoAct)
  | close (hookEnable inIOmanager : Bool) (refuse : Option Errno) (last : Bool)
  | cancelAll (refuse : Option Errno)
  | opened (ctx : FdCtx)
  | events (c : EventCall ℕ) (refuse : Option Errno)

namespace World

variable {call : IoCall} {w w' : World} {a : IoAct} {job : Job}

/-- `close_f`, as the `IOmanager` sees it. -/
def closeF (w : World) (fd : Int32) (last : Bool) : World :=
  { w with io := { w.io with
    epoll := if last then Function.update w.io.epoll fd none else w.io.epoll } }

/-- `close` of the hooks. `ctx` is what the descriptor manager has for the number. -/
def close (w : World) (fd : Int32) (hookEnable inIOmanager : Bool) (refuse : Option Errno)
    (last : Bool) : World :=
  match hookEnable, w.ctx with
  | false, _ | _, none => w.closeF fd last
  | true, some _ =>
    { w with
      io := if inIOmanager then (w.io.cancel fd refuse).1 else w.io
      ctx := none }.closeF fd last

/-- `Socket::cancelRead`, `cancelWrite`, `cancelAccept` and `cancelAll`, on the socket
`fd`. -/
def cancelAll (w : World) (fd : Int32) (refuse : Option Errno) : World :=
  { w with io := (w.io.cancel fd refuse).1 }

/-- One step, with the descriptor in use by others. -/
def fdStep (call : IoCall) (w : World) : FdAct → Option World
  | .run a => w.step call a
  | .close hookEnable inIOmanager refuse last =>
    some (w.close call.fd hookEnable inIOmanager refuse last)
  | .cancelAll refuse => some (w.cancelAll call.fd refuse)
  | .opened ctx => some { w with ctx := some ctx }
  | .events c refuse =>
    if w.io.enabled (c.map Task.other) then
      some { w with io := (w.io.apply (c.map Task.other) refuse).1 }
    else none

/-! ## On its way -/

/-- A job that a worker has not begun to run. -/
def Pending (w : World) (job : Job) : Prop :=
  job ∈ occupied w.sched.mTask ∨ (job, false) ∈ w.running

/-- The readiness callback is on its way to a worker: in a call of `schedule(cb)`
that is past the test of `m_stopping` or will pass it, in a slot, or with a worker
that is about to run it. -/
def Coming (w : World) : Prop :=
  (∃ p ∈ w.copies, p.1 = Task.ready ∧ (p.2 = true ∨ w.sched.mStopping = false)) ∨
    ∃ job, Pending w job ∧ ¬ Harmless job

/-- What a step does to the places on the way. A copy of `ready` comes from the
table or has passed the test; a job that writes `flag` comes from a copy or a
collected batch. -/
structure Conveyed (call : IoCall) (w w' : World) : Prop where
  stopping : w.sched.mStopping = true → w'.sched.mStopping = true
  copies : ∀ p ∈ w'.copies, p.1 = Task.ready → p ∈ w.copies ∨
    (∃ fd d, w.io.Waits fd d .ready) ∨ ((Task.ready, false) ∈ w.copies ∧ w.sched.mStopping = false)
  pending : ∀ job, Pending w' job → Harmless job ∨ Pending w job ∨
    (∃ batch ∈ w.obs, some job ∈ batch) ∨ (Task.ready, true) ∈ w.copies
  flag : w'.flag = w.flag ∨
    ∃ job refuse, (job, false) ∈ w.running ∧ Readies call w refuse job

/-- Jobs move, and no copy comes in. -/
theorem Conveyed.of_pending (stopping : w'.sched.mStopping = w.sched.mStopping)
    (copies : ∀ p ∈ w'.copies, p ∈ w.copies) (flag : w'.flag = w.flag)
    (pending : ∀ job, Pending w' job → Harmless job ∨ Pending w job ∨
      (∃ batch ∈ w.obs, some job ∈ batch) ∨ (Task.ready, true) ∈ w.copies) :
    Conveyed call w w' :=
  ⟨fun set => stopping.trans set, fun p member _ => .inl (copies p member), pending, .inl flag⟩

/-- Nothing moves. -/
theorem Conveyed.of_same (sched : w'.sched = w.sched) (copies : w'.copies = w.copies)
    (running : w'.running = w.running) (flag : w'.flag = w.flag) : Conveyed call w w' := by
  refine .of_pending (by rw [sched]) (fun p member => copies ▸ member) flag ?_
  unfold Pending
  rw [sched, running]
  exact fun job pending => .inr (.inl pending)

/-- After `schedule`, the slots hold one job more. -/
theorem mem_schedule {added : Job} {threadId : Int} :
    job ∈ occupied (w.sched.schedule (some added) threadId).mTask ↔
      job = added ∨ job ∈ occupied w.sched.mTask := by
  rw [← List.mem_cons]
  exact (Schedule.occupied_placeFirst added threadId w.sched.mTask).mem_iff

theorem conveyed_flush (i : ℕ) (edge : w.envStep call (.flush i) = some w') :
    Conveyed call w w' := by
  cases found : w.obs[i]? with
  | none => simp only [envStep, found, reduceCtorEq] at edge
  | some batch =>
    simp only [envStep, found, Option.some.injEq] at edge
    subst edge
    refine .of_pending rfl (fun p member => member) rfl fun job pending => ?_
    rcases pending with slot | running
    · rcases Schedule.mem_scheduleRange slot with new | old
      · exact .inr (.inr (.inl ⟨batch, List.mem_of_getElem? found, new⟩))
      · exact .inr (.inl (.inl old))
    · exact .inr (.inl (.inr running))

theorem conveyed_report (fd : Int32) (events : BitVec 32)
    (edge : w.envStep call (.report fd events) = some w') : Conveyed call w w' := by
  cases found : w.io.epoll fd with
  | none => simp only [envStep, found, reduceCtorEq] at edge
  | some entry =>
    simp only [envStep, found] at edge
    obtain ⟨⟨io, cbs⟩, reported, rfl⟩ := Option.map_eq_some_iff.mp edge
    refine ⟨id, fun p member ready => ?_, fun job pending => .inr (.inl pending), .inl rfl⟩
    rcases List.mem_append.mp member with old | new
    · exact .inl old
    · obtain ⟨cb, passed, rfl⟩ := List.mem_map.mp new
      exact .inr (.inl (IOmanager.waits_report reported (ready ▸ passed)))

theorem conveyed_test (i : ℕ) (edge : w.envStep call (.test i) = some w') :
    Conveyed call w w' := by
  unfold envStep at edge
  dsimp only at edge
  split at edge
  · next task found =>
    obtain rfl := Option.some.inj edge
    refine ⟨id, fun p member ready => ?_, fun job pending => .inr (.inl pending), .inl rfl⟩
    dsimp only at member
    split at member
    · exact .inl (List.mem_of_mem_eraseIdx member)
    · next unset =>
      rcases List.mem_or_eq_of_mem_set member with old | new
      · exact .inl old
      · have ready : task = .ready := by rw [new] at ready; exact ready
        subst ready
        exact .inr (.inr ⟨List.mem_of_getElem? found, Bool.eq_false_of_not_eq_true unset⟩)
  · cases edge

theorem conveyed_deliver (i : ℕ) (edge : w.envStep call (.deliver i) = some w') :
    Conveyed call w w' := by
  unfold envStep at edge
  dsimp only at edge
  split at edge
  · next task found =>
    obtain rfl := Option.some.inj edge
    refine .of_pending rfl (fun p member => List.mem_of_mem_eraseIdx member) rfl
      fun job pending => ?_
    rcases pending with slot | running
    · rcases mem_schedule.mp slot with same | old
      · cases task with
        | ready => exact .inr (.inr (.inr (List.mem_of_getElem? found)))
        | timeout => exact .inl (same ▸ rfl)
        | other k => exact .inl (same ▸ rfl)
      · exact .inr (.inl (.inl old))
    · exact .inr (.inl (.inr running))
  · cases edge

theorem conveyed_dequeue (tid : Int) (edge : w.envStep call (.dequeue tid) = some w') :
    Conveyed call w w' := by
  obtain ⟨slots, -, stopping⟩ := w.sched.dequeue_spec tid
  unfold envStep at edge
  dsimp only at edge
  split at edge
  · next sched job taken =>
    obtain rfl := Option.some.inj edge
    rw [taken] at slots stopping
    refine .of_pending stopping (fun p member => member) rfl fun other pending => .inr (.inl ?_)
    rcases pending with slot | running
    · refine .inl ?_
      rw [slots]
      exact List.mem_append_right _ slot
    · rcases List.mem_append.mp running with old | new
      · exact .inr old
      · cases List.mem_singleton.mp new
        refine .inl ?_
        rw [slots]
        exact List.mem_append_left _ (List.mem_singleton_self _)
  · next sched taken =>
    obtain rfl := Option.some.inj edge
    rw [taken] at slots stopping
    refine .of_pending stopping (fun p member => member) rfl fun other pending => .inr (.inl ?_)
    rcases pending with slot | running
    · refine .inl ?_
      rw [slots]
      exact slot
    · exact .inr running

theorem conveyed_execute (i : ℕ) (refuse : Option Errno)
    (edge : w.envStep call (.execute i refuse) = some w') : Conveyed call w w' := by
  unfold envStep at edge
  dsimp only at edge
  split at edge
  · next job found =>
    obtain rfl := Option.some.inj edge
    have ran := ran_execute call w refuse job
    refine ⟨?_, ?_, ?_, ?_⟩
    · intro set
      show (w.execute call refuse job).sched.mStopping = true
      rwa [ran.sched]
    · intro p member _
      exact .inl (ran.copies ▸ member)
    · intro other pending
      refine .inr (.inl ?_)
      rcases pending with slot | running
      · exact .inl (ran.sched ▸ slot)
      · rcases List.mem_or_eq_of_mem_set running with old | new
        · exact .inr old
        · cases new
    · by_cases readies : Readies call w refuse job
      · exact .inr ⟨job, refuse, List.mem_of_getElem? found, readies⟩
      · exact .inl ((Watched.flag_execute call w refuse job).trans (if_neg readies))
  · cases edge

/-- Every step of the runtime moves the callback along its way only. -/
theorem conveyed_envStep (edge : w.envStep call a = some w') : Conveyed call w w' := by
  cases a with
  | expire now clock =>
    obtain rfl := Option.some.inj edge
    exact .of_same rfl rfl rfl rfl
  | flush i => exact conveyed_flush i edge
  | report fd events => exact conveyed_report fd events edge
  | test i => exact conveyed_test i edge
  | deliver i => exact conveyed_deliver i edge
  | dequeue tid => exact conveyed_dequeue tid edge
  | execute i refuse => exact conveyed_execute i refuse edge
  | complete i =>
    unfold envStep at edge
    dsimp only at edge
    split at edge
    · obtain rfl := Option.some.inj edge
      refine .of_pending rfl (fun p member => member) rfl fun job pending => .inr (.inl ?_)
      exact pending.imp_right List.mem_of_mem_eraseIdx
    · cases edge
  | events c refuse =>
    unfold envStep at edge
    dsimp only at edge
    split at edge
    · obtain rfl := Option.some.inj edge
      exact .of_same rfl rfl rfl rfl
    · cases edge
  | timers c =>
    unfold envStep at edge
    dsimp only at edge
    split at edge
    · obtain ⟨mgr, -, rfl⟩ := Option.map_eq_some_iff.mp edge
      exact .of_same rfl rfl rfl rfl
    · cases edge
  | schedule k threadId =>
    obtain rfl := Option.some.inj edge
    refine .of_pending rfl (fun p member => member) rfl fun job pending => ?_
    rcases pending with slot | running
    · rcases mem_schedule.mp slot with rfl | old
      · exact .inl rfl
      · exact .inr (.inl (.inl old))
    · exact .inr (.inl (.inr running))
  | setStopping =>
    obtain rfl := Option.some.inj edge
    exact ⟨fun _ => rfl, fun p member _ => .inl member, fun job pending => .inr (.inl pending),
      .inl rfl⟩
  | _ => cases edge

/-! ## Silence -/

/-- A call that waits with `flag` set, and whose callback is nowhere any more. -/
structure Silent (w : World) : Prop where
  waiting : w.pc = .waiting
  flag : w.flag = true
  callbacks : w.mgr.Callbacks Harmless
  obs : ∀ batch ∈ w.obs, ∀ job, some job ∈ batch → Harmless job
  unregistered : Unregistered w
  coming : ¬ Coming w

theorem not_harmless_of_task (runs : w.task job = some .ready) : ¬ Harmless job := by
  intro harmless
  cases job with
  | fn task =>
    cases Option.some.inj runs
    cases harmless
  | onTimer weakCond cb =>
    have given : cb = some .ready := by
      unfold task onTimer at runs
      dsimp only at runs
      split at runs
      · exact runs
      · cases runs
    rw [given] at harmless
    cases harmless

/-- While `flag` is set the call takes no step of its own out of its wait. -/
theorem ioStep_of_waiting (waiting : w.pc = .waiting) (set : w.flag = true) :
    w.ioStep call a = none := by
  cases a <;> simp only [ioStep, syscall, waiting, set, reduceCtorEq, and_false, false_and,
    if_false]

theorem Silent.conveyed (silent : Silent w) (env : Around call w w' a)
    (moved : Conveyed call w w') : Silent w' := by
  refine ⟨env.pc.trans silent.waiting, ?_, env.timers.callbacks silent.callbacks, ?_, ?_, ?_⟩
  · rcases moved.flag with same | ⟨job, refuse, running, runs | ⟨-, called⟩⟩
    · exact same.trans silent.flag
    · exact absurd (.inr ⟨job, .inr running, not_harmless_of_task runs⟩) silent.coming
    · exact absurd (IOmanager.waits_of_called called) (silent.unregistered _ _)
  · intro batch member job inside
    rcases env.jobs.obs batch member job inside with ⟨old, stood, inside⟩ | ⟨t, stored⟩
    · exact silent.obs old stood job inside
    · exact silent.callbacks t job stored
  · exact fun fd d waits => silent.unregistered fd d (env.table.waits fd d waits)
  · rintro (⟨p, member, ready, goes⟩ | ⟨job, pending, writes⟩)
    · rcases moved.copies p member ready with old | ⟨fd, d, waits⟩ | ⟨old, unset⟩
      · refine silent.coming (.inl ⟨p, old, ready, goes.imp_right fun running => ?_⟩)
        exact Bool.eq_false_of_not_eq_true fun set => by
          rw [moved.stopping set] at running
          cases running
      · exact silent.unregistered fd d waits
      · exact silent.coming (.inl ⟨_, old, rfl, .inr unset⟩)
    · rcases moved.pending job pending with harmless | old | ⟨batch, member, inside⟩ | copy
      · exact writes harmless
      · exact silent.coming (.inr ⟨job, old, writes⟩)
      · exact writes (silent.obs batch member job inside)
      · exact silent.coming (.inl ⟨_, copy, rfl, .inl rfl⟩)

/-- Calls for the number leave a call alone that the table knows nothing of. -/
theorem Silent.table (silent : Silent w) (rest : { w with io := w'.io, ctx := w'.ctx } = w')
    (waits : ∀ fd d, w'.io.Waits fd d .ready → w.io.Waits fd d .ready) : Silent w' := by
  rw [← rest]
  exact ⟨silent.waiting, silent.flag, silent.callbacks, silent.obs,
    fun fd d there => silent.unregistered fd d (waits fd d (rest ▸ there)), silent.coming⟩

theorem waits_closeF {fd x : Int32} {last : Bool} {d : Direction} :
    (w.closeF fd last).io.Waits x d .ready ↔ w.io.Waits x d .ready :=
  IOmanager.waits_congr rfl

theorem close_rest (w : World) (fd : Int32) (hookEnable inIOmanager : Bool)
    (refuse : Option Errno) (last : Bool) :
    { w with
      io := (w.close fd hookEnable inIOmanager refuse last).io
      ctx := (w.close fd hookEnable inIOmanager refuse last).ctx } =
      w.close fd hookEnable inIOmanager refuse last := by
  unfold close
  split <;> rfl

theorem waits_close {fd x : Int32} {hookEnable inIOmanager last : Bool} {refuse : Option Errno}
    {d : Direction} (waits : (w.close fd hookEnable inIOmanager refuse last).io.Waits x d .ready) :
    w.io.Waits x d .ready := by
  unfold close at waits
  split at waits
  · exact waits_closeF.mp waits
  · exact waits_closeF.mp waits
  · have waits := waits_closeF.mp waits
    cases inIOmanager with
    | false => exact waits
    | true => exact IOmanager.waits_cancel waits

/-- Whatever is done next, a silent call stays one. -/
theorem Silent.next {a : FdAct} (silent : Silent w) (edge : fdStep call w a = some w') :
    Silent w' := by
  cases a with
  | run a =>
    rcases step_cases edge with own | around
    · rw [ioStep_of_waiting silent.waiting silent.flag] at own
      cases own
    · exact silent.conveyed (around_envStep around) (conveyed_envStep around)
  | close hookEnable inIOmanager refuse last =>
    obtain rfl := Option.some.inj edge
    exact silent.table (close_rest w _ _ _ _ _) fun _ _ => waits_close
  | cancelAll refuse =>
    obtain rfl := Option.some.inj edge
    exact silent.table rfl fun _ _ => IOmanager.waits_cancel
  | opened ctx =>
    obtain rfl := Option.some.inj edge
    exact silent.table rfl fun _ _ => id
  | events c refuse =>
    obtain ⟨-, after⟩ := Option.ite_none_right_eq_some.mp edge
    obtain rfl := Option.some.inj after
    refine silent.table rfl fun fd d waits => ?_
    rcases IOmanager.waits_apply waits with old | ⟨k, new⟩
    · exact old
    · cases new

/-! ## The close -/

/-- The descriptor manager knows the descriptor of a call that is past its head. -/
def Known (w : World) : Prop := w.alive .tinfo = true → w.ctx ≠ none

theorem alive_tinfo (w : World) :
    w.alive .tinfo = true ↔ w.pc ≠ .enter ∧ w.pc ≠ .direct ∧ w.pc ≠ .returned := by
  unfold alive
  cases w.pc <;> simp only [ne_eq, reduceCtorEq, not_true_eq_false, not_false_eq_true,
    Bool.false_eq_true, and_false, false_and, and_self]

theorem ctx_enter (call : IoCall) (w : World) :
    (w.enter call).pc = .direct ∨ (w.enter call).pc = .returned ∨ (w.enter call).ctx ≠ none := by
  unfold enter
  split
  · exact .inl rfl
  · exact .inl rfl
  · split
    · exact .inr (.inl rfl)
    · split
      · exact .inl rfl
      · exact .inr (.inr (Option.some_ne_none _))

/-- Only the first step of a call looks at the context of the descriptor. -/
theorem ctx_ioStep (own : w.ioStep call a = some w') :
    w' = w.enter call ∨ (w.pc ≠ .enter ∧ w'.ctx = w.ctx) := by
  cases a with
  | enter =>
    obtain ⟨-, after⟩ := Option.ite_none_right_eq_some.mp own
    exact .inl (Option.some.inj after).symm
  | syscall r =>
    have own : w.syscall r = some w' := own
    refine .inr ?_
    unfold syscall at own
    cases here : w.pc <;> rw [here] at own <;> dsimp only at own
    case direct | retry =>
      rw [← Option.some.inj own]
      exact ⟨nofun, rfl⟩
    case firstCall =>
      refine ⟨nofun, ?_⟩
      split at own
      · rw [← Option.some.inj own]
        rfl
      · split at own <;> rw [← Option.some.inj own] <;> rfl
    all_goals cases own
  | loopHead =>
    obtain ⟨here, after⟩ := Option.ite_none_right_eq_some.mp own
    rw [← Option.some.inj after, here]
    refine .inr ⟨nofun, ?_⟩
    unfold loopHead
    split <;> rfl
  | register alloc refuse | wake =>
    obtain ⟨⟨here, -⟩, after⟩ := Option.ite_none_right_eq_some.mp own
    rw [← Option.some.inj after, here]
    exact .inr ⟨nofun, rfl⟩
  | arm now | cleanup refuse | cancelTimer =>
    obtain ⟨here, after⟩ := Option.ite_none_right_eq_some.mp own
    rw [← Option.some.inj after, here]
    exact .inr ⟨nofun, rfl⟩
  | _ => cases own

theorem Known.next (known : Known w) (edge : w.step call a = some w') : Known w' := by
  intro alive
  obtain ⟨enter, direct, returned⟩ := (alive_tinfo w').mp alive
  rcases step_cases edge with own | around
  · rcases ctx_ioStep own with rfl | ⟨entered, same⟩
    · rcases ctx_enter call w with pc | pc | stored
      · exact absurd pc direct
      · exact absurd pc returned
      · exact stored
    · rw [same]
      have next := pc_ioStep own
      refine known ((alive_tinfo w).mpr ⟨entered, fun here => ?_, fun here => ?_⟩)
      · rw [here] at next
        exact returned (List.mem_singleton.mp next)
      · rw [here] at next
        cases next
  · have locals := (around_envStep around).locals
    rw [show w'.ctx = w.ctx from congrArg Locals.ctx locals]
    apply known
    rw [alive_tinfo, ← show w'.pc = w.pc from congrArg Locals.pc locals]
    exact ⟨enter, direct, returned⟩

/-- The calls that take the registration away: `close` with the hooks enabled inside
the `IOmanager`, and those of a socket. -/
inductive Taken (call : IoCall) (w : World) : World → Prop where
  | close (refuse : Option Errno) (last : Bool) :
    Taken call w (w.close call.fd true true refuse last)
  | cancelAll (refuse : Option Errno) : Taken call w (w.cancelAll call.fd refuse)

theorem Taken.rest (taken : Taken call w w') : { w with io := w'.io, ctx := w'.ctx } = w' := by
  cases taken with
  | close refuse last => exact close_rest w _ _ _ _ _
  | cancelAll refuse => rfl

theorem not_waits_cancel (w : World) (fd : Int32) (refuse : Option Errno) (d : Direction) :
    ¬ (w.io.cancel fd refuse).1.Waits fd d .ready := by
  intro waits
  cases found : w.io.mEvents.lookup fd with
  | none => exact IOmanager.not_waits_of_none found (IOmanager.waits_cancel waits)
  | some ctx =>
    rcases w.io.cancel_cases found refuse with ⟨-, after, -⟩ | ⟨-, after, -⟩
    · exact ((IOmanager.waits_erase (by rw [after])).mp waits).1 rfl
    · exact ((IOmanager.waits_erase (by rw [after])).mp waits).1 rfl

/-- The callback waits nowhere then. -/
theorem Taken.unregistered (taken : Taken call w w') (inv : Inv call w) (managed : w.ctx ≠ none) :
    Unregistered w' := by
  intro x d waits
  have cancelled : (∃ refuse, (w.io.cancel call.fd refuse).1.Waits x d .ready) ∧
      w.io.Waits x d .ready := by
    cases taken with
    | close refuse last =>
      obtain ⟨ctx, stored⟩ := Option.ne_none_iff_exists'.mp managed
      refine ⟨⟨refuse, ?_⟩, waits_close waits⟩
      unfold World.close at waits
      rw [stored] at waits
      exact waits_closeF.mp waits
    | cancelAll refuse => exact ⟨⟨refuse, waits⟩, IOmanager.waits_cancel waits⟩
  obtain ⟨⟨refuse, there⟩, before⟩ := cancelled
  rw [(inv.waits x d before).1] at there
  exact not_waits_cancel w call.fd refuse d there

theorem Taken.silent (taken : Taken call w w') (inv : Inv call w) (managed : w.ctx ≠ none)
    (waiting : w.pc = .waiting) (flag : w.flag = true) (coming : ¬ Coming w) : Silent w' := by
  have unregistered := taken.unregistered inv managed
  rw [← taken.rest] at unregistered ⊢
  exact ⟨waiting, flag, inv.callbacks, inv.obs, unregistered, coming⟩

/-! ## The way to the wake -/

/-- Some run takes the call out of its wait. -/
def Wakes (call : IoCall) (w : World) : Prop :=
  ∃ later w', exec (fdStep call) w later = some w' ∧ w'.pc ≠ .waiting

theorem Wakes.before (edge : w.step call a = some w') (wakes : Wakes call w') : Wakes call w := by
  obtain ⟨later, last, run, pc⟩ := wakes
  exact ⟨.run a :: later, last, exec_cons_eq_some.mpr ⟨w', edge, run⟩, pc⟩

theorem step_of_envStep (own : w.ioStep call a = none) (edge : w.envStep call a = some w') :
    w.step call a = some w' := by
  unfold step
  rw [own]
  exact edge

theorem wakes_of_clear (waiting : w.pc = .waiting) (clear : w.flag = false) : Wakes call w := by
  refine ⟨[.run .wake], { w with pc := .retry }, ?_, nofun⟩
  refine exec_cons_eq_some.mpr ⟨_, ?_, rfl⟩
  show (w.ioStep call .wake).or _ = _
  rw [ioStep, if_pos ⟨waiting, clear⟩]
  rfl

/-- While the call waits every condition is alive, and a job that writes `flag`
runs the callback. -/
theorem task_of_not_harmless (waiting : w.pc = .waiting) (writes : ¬ Harmless job) :
    w.task job = some .ready := by
  have alive : ∀ c, w.alive c = true := by
    intro c
    unfold alive
    rw [waiting]
    cases c <;> rfl
  cases job with
  | fn task =>
    cases task with
    | ready => rfl
    | timeout | other k => exact absurd rfl writes
  | onTimer weakCond cb =>
    cases cb with
    | none => exact absurd rfl writes
    | some task =>
      cases task with
      | ready => exact if_pos (alive weakCond)
      | timeout | other k => exact absurd rfl writes

theorem wakes_of_running (waiting : w.pc = .waiting) (running : (job, false) ∈ w.running)
    (writes : ¬ Harmless job) : Wakes call w := by
  obtain ⟨i, found⟩ := List.mem_iff_getElem?.mp running
  have edge : w.envStep call (.execute i none) =
      some { (w.execute call none job) with running := w.running.set i (job, true) } := by
    simp only [envStep, found]
  refine .before (step_of_envStep rfl edge) (wakes_of_clear ?_ ?_)
  · exact (around_envStep edge).pc.trans waiting
  · show (w.execute call none job).flag = false
    rw [Watched.flag_execute, if_pos (.inl (task_of_not_harmless waiting writes))]

/-- The slots before the one of the job are emptied one by one. -/
theorem wakes_of_slot (waiting : w.pc = .waiting) (slot : job ∈ occupied w.sched.mTask)
    (writes : ¬ Harmless job) : Wakes call w := by
  induction left : occupied w.sched.mTask generalizing w with
  | nil =>
    rw [left] at slot
    cases slot
  | cons first rest ih =>
    have taken : (w.sched.dequeue 0).2 = some first := by
      rw [Schedule.dequeue_head, left]
      rfl
    have slots := (w.sched.dequeue_spec 0).1
    have edge : w.envStep call (.dequeue 0) = some { w with
        sched := (w.sched.dequeue 0).1, running := w.running ++ [(first, false)] } := by
      unfold envStep
      dsimp only
      split
      · next sched task found =>
        rw [found] at taken ⊢
        rw [Option.some.inj taken]
      · next sched found =>
        rw [found] at taken
        cases taken
    refine .before (step_of_envStep rfl edge) ?_
    rw [left] at slot
    rcases List.mem_cons.mp slot with rfl | later
    · exact wakes_of_running waiting (List.mem_append_right _ (List.mem_singleton_self _)) writes
    · have behind : occupied (w.sched.dequeue 0).1.mTask = rest := by
        rw [left, taken] at slots
        exact (List.cons.inj slots).2.symm
      exact ih waiting (behind ▸ later) behind

theorem wakes_of_tested (waiting : w.pc = .waiting) (copy : (Task.ready, true) ∈ w.copies) :
    Wakes call w := by
  obtain ⟨i, found⟩ := List.mem_iff_getElem?.mp copy
  have edge : w.envStep call (.deliver i) = some { w with
      sched := w.sched.schedule (some (.fn .ready)) (-1), copies := w.copies.eraseIdx i } := by
    simp only [envStep, found]
  have writes : ¬ Harmless (.fn .ready) := by
    intro harmless
    cases harmless
  refine .before (step_of_envStep rfl edge) (wakes_of_slot waiting ?_ writes)
  exact mem_schedule.mpr (.inl rfl)

theorem wakes_of_coming (waiting : w.pc = .waiting) (coming : Coming w) : Wakes call w := by
  rcases coming with ⟨⟨task, tested⟩, copy, ready, goes⟩ | ⟨job, slot | running, writes⟩
  · obtain rfl : task = .ready := ready
    cases tested with
    | true => exact wakes_of_tested waiting copy
    | false =>
      have unset : w.sched.mStopping = false := goes.resolve_left nofun
      obtain ⟨i, found⟩ := List.mem_iff_getElem?.mp copy
      have edge : w.envStep call (.test i) =
          some { w with copies := w.copies.set i (.ready, true) } := by
        simp only [envStep, found, unset, Bool.false_eq_true, if_false]
      refine .before (step_of_envStep rfl edge) (wakes_of_tested waiting ?_)
      exact List.mem_set (List.getElem?_eq_some_iff.mp found).1 _
  · exact wakes_of_slot waiting slot writes
  · exact wakes_of_running waiting running writes

/-! ## Runs -/

/-- A call that waits when its registration is taken away: no later run, whatever
timers expire in it and whoever is given the number, takes the call out of its wait, if
and only if `flag` is set then and the callback is not on its way to a worker. -/
theorem hangs_iff {w₀ : World} (fresh : Fresh w₀) {acts : List IoAct}
    (run : exec (step call) w₀ acts = some w) (waiting : w.pc = .waiting)
    (taken : Taken call w w') :
    (∀ later last, exec (fdStep call) w' later = some last → last.pc = .waiting) ↔
      w.flag = true ∧ ¬ Coming w := by
  have inv : Inv call w := exec_inv (fun inv edge => (step_left inv edge).1) fresh.inv run
  have known : Known w := by
    refine exec_inv Known.next (fun alive => ?_) run
    exact absurd fresh.pc ((alive_tinfo w₀).mp alive).1
  have managed : w.ctx ≠ none := by
    refine known ((alive_tinfo w).mpr ?_)
    rw [waiting]
    exact ⟨nofun, nofun, nofun⟩
  have rest := taken.rest
  constructor
  · intro hangs
    have stays : ¬ Wakes call w' := by
      rintro ⟨later, last, run, pc⟩
      exact pc (hangs later last run)
    have here : w'.pc = .waiting := hangs [] w' rfl
    refine ⟨?_, fun coming => ?_⟩
    · refine Bool.eq_true_of_not_eq_false fun clear => stays (wakes_of_clear here ?_)
      rw [← rest]
      exact clear
    · refine stays (wakes_of_coming here ?_)
      rw [← rest]
      exact coming
  · rintro ⟨flag, coming⟩ later last run
    have start := taken.silent inv managed waiting flag coming
    exact (exec_inv Silent.next start run).waiting

/-- A call that has just begun to wait: its timer is armed, and expires in vain. -/
theorem hangs_iff_waiting : ∃ w, exec (step readCall) (init socketCtx (3, 4) 0)
      [.enter, .syscall (.fail .EAGAIN), .arm 100, .register 0x7f5500001000#64 none, .loopHead] =
        some w ∧
    ∀ later last, exec (fdStep readCall) (w.close 5 true true none true) later = some last →
      last.pc = .waiting := by
  have start := fresh_init socketCtx (3, 4) 0
  refine ⟨_, rfl, (hangs_iff start (show exec (step readCall) _ [.enter, .syscall (.fail .EAGAIN),
    .arm 100, .register 0x7f5500001000#64 none, .loopHead] = some _ from rfl) rfl
    (.close none true)).mpr ⟨rfl, ?_⟩⟩
  rintro (⟨p, copy, -⟩ | ⟨job, slot | running, -⟩)
  · cases copy
  · cases slot
  · cases running

end World

end Sylar
