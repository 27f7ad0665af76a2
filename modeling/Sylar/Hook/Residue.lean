import Sylar.Hook.History

/-!
# What a call leaves behind

A call of `do_io` that has to wait creates a timer, a registration and, through
`triggerEvent`, copies of a callback that writes to one of its local variables.
The timer is cancelled on the error path only, and nobody takes back the copies.

* `Inv`: where the timer, the registration and the copies can be at each point of
  the call.
* `step_left`: which steps leave nothing behind, in terms of the state.
* `Booked.step`: what the history says of the timer and the copies in the state.
* `nothing_left_iff`: the runs that never leave anything behind are those whose
  steps are all `Clean`, in terms of what has happened before.
* `nothing_left_fails`: a call that succeeds after one wait leaves its timer.
-/

namespace Sylar

open Epoll

namespace IoPc

/-- Before the registration: no copy of the callback exists. -/
def early : IoPc → Bool
  | .enter | .direct | .firstCall | .arm | .register => true
  | _ => false

/-- Before the timer is armed. -/
def unarmed : IoPc → Bool
  | .enter | .direct | .firstCall | .arm => true
  | _ => false

/-- From the arming of the timer to the return. -/
def armed : IoPc → Bool
  | .register | .loopHead | .waiting | .retry | .cleanup | .cancelTimer => true
  | _ => false

/-- From the registration to its removal. -/
def registered : IoPc → Bool
  | .loopHead | .waiting | .retry | .cleanup => true
  | _ => false

end IoPc

namespace World

variable {call : IoCall} {w w' : World} {a : IoAct}

/-- `ready` waits nowhere in `m_events`. -/
def Unregistered (w : World) : Prop := ∀ fd d, ¬ w.io.Waits fd d .ready

/-- The conditional timer has left `m_timers`. -/
def Collected (w : World) : Prop := ∀ t, w.condtionTimer = some t → t ∉ w.mgr.mTimers

/-- No job in a slot or with a worker writes to `flag`. -/
def Unheld (w : World) : Prop := ∀ job, Held w job → Harmless job

/-- Once the call has returned, its registration, its timer and the copies of its
callback are gone. -/
def NothingLeft (w : World) : Prop :=
  w.pc = .returned → Unregistered w ∧ Collected w ∧ Unheld w

/-- The kernel takes the deletion that ends the call. -/
def Deletable (call : IoCall) (w : World) (refuse : Option Errno) : Prop :=
  w.io.mEvents.lookup call.fd ≠ none ∧ Epoll.Accepts w.io.epoll .del call.fd refuse

/-- The steps after which nothing is left, given the history of the run. At its end the
call either reports an error with its registration in the table and deletable, and goes
on to cancel the timer; or it has its registration deleted (if it is in the table still),
and an earlier step has taken its timer out, and every copy of its callback that was
stored has been run. They have been run also when it goes on to cancel the timer. After
the return no copy is stored. -/
def Clean (call : IoCall) (p : World × List (World × IoAct)) : IoAct → Prop
  | .cleanup refuse =>
    (p.1.n = -1 ∧ Deletable call p.1 refuse) ∨
      ((p.1.io.mEvents.lookup call.fd ≠ none → Epoll.Accepts p.1.io.epoll .del call.fd refuse) ∧
        TakenOut p.2 ∧ AllRun p.2)
  | .cancelTimer => AllRun p.2
  | .deliver i => p.1.pc = .returned → p.1.copies[i]? ≠ some (.ready, true)
  | _ => True

/-- The same in terms of what the step meets. -/
def Tidy (call : IoCall) (w : World) : IoAct → Prop
  | .cleanup refuse =>
    (w.n = -1 ∧ Deletable call w refuse) ∨
      ((w.io.mEvents.lookup call.fd ≠ none → Epoll.Accepts w.io.epoll .del call.fd refuse) ∧
        Collected w ∧ Unheld w)
  | .cancelTimer => Unheld w
  | .deliver i => w.pc = .returned → w.copies[i]? ≠ some (.ready, true)
  | _ => True

/-! ## The invariant -/

/-- Where the timer, the registration and the copies can be. -/
structure Inv (call : IoCall) (w : World) : Prop where
  good : w.mgr.Good
  callbacks : w.mgr.Callbacks Harmless
  obs : ∀ batch ∈ w.obs, ∀ job, some job ∈ batch → Harmless job
  waits : ∀ fd d, w.io.Waits fd d .ready →
    fd = call.fd ∧ (w.pc.registered = true ∨ w.pc = .returned)
  own : w.pc.registered = true → ∀ ctx, w.io.mEvents.lookup call.fd = some ctx →
    (ctx.waiter call.event).mCb = some .ready
  early : w.pc.early = true → Unheld w ∧ ∀ p ∈ w.copies, p.1 ≠ Task.ready
  timer : ∀ t, w.condtionTimer = some t → t < w.mgr.created
  unarmed : w.pc.unarmed = true → w.condtionTimer = none

/-- A world before the call: its callbacks are nowhere yet. -/
structure Fresh (w : World) : Prop where
  pc : w.pc = .enter
  condtionTimer : w.condtionTimer = none
  good : w.mgr.Good
  callbacks : w.mgr.Callbacks Harmless
  obs : ∀ batch ∈ w.obs, ∀ job, some job ∈ batch → Harmless job
  waits : Unregistered w
  held : Unheld w
  copies : ∀ p ∈ w.copies, p.1 ≠ Task.ready

theorem Fresh.inv (fresh : Fresh w) : Inv call w where
  good := fresh.good
  callbacks := fresh.callbacks
  obs := fresh.obs
  waits := fun fd d waits => absurd waits (fresh.waits fd d)
  own := by
    rw [fresh.pc]
    exact fun registered => nomatch registered
  early := fun _ => ⟨fresh.held, fresh.copies⟩
  timer := by
    rw [fresh.condtionTimer]
    exact fun t stored => nomatch stored
  unarmed := fun _ => fresh.condtionTimer

/-- The callback of the registration waits nowhere before the call has registered it
and after the call has deleted it. -/
theorem Inv.unregistered (inv : Inv call w) (out : w.pc.registered = false)
    (running : w.pc ≠ .returned) : Unregistered w := by
  intro fd d waits
  rcases (inv.waits fd d waits).2 with registered | returned
  · rw [out] at registered
    cases registered
  · exact running returned

/-- The runtime keeps the invariant. -/
theorem Inv.around (inv : Inv call w) (env : Around call w w' a) : Inv call w' where
  good := env.timers.good inv.good
  callbacks := env.timers.callbacks inv.callbacks
  obs := by
    intro batch member job inside
    rcases env.jobs.obs batch member job inside with ⟨old, stood, inside⟩ | ⟨t, stored⟩
    · exact inv.obs old stood job inside
    · exact inv.callbacks t job stored
  waits := by
    intro fd d waits
    rw [env.pc]
    exact inv.waits fd d (env.table.waits fd d waits)
  own := by
    rw [env.pc]
    intro registered ctx found
    rcases env.table.own with gone | same
    · rw [gone] at found
      cases found
    · exact inv.own registered ctx (same ▸ found)
  early := by
    rw [env.pc]
    intro early
    obtain ⟨unheld, copies⟩ := inv.early early
    refine ⟨fun job held => ?_, fun p member ready => ?_⟩
    · rcases env.jobs.held job held with harmless | old | ⟨batch, member, inside⟩ | ⟨i, -, found⟩
      · exact harmless
      · exact unheld job old
      · exact inv.obs batch member job inside
      · exact absurd rfl (copies _ (List.mem_of_getElem? found))
    · rcases env.jobs.copies p member ready with ⟨q, old, same⟩ | ⟨fd, d, waits⟩
      · exact copies q old same
      · rcases (inv.waits fd d waits).2 with registered | returned
        · cases pc : w.pc <;> rw [pc] at early registered <;> cases early <;> cases registered
        · rw [returned] at early
          cases early
  timer := by
    rw [env.condtionTimer]
    intro t stored
    exact (inv.timer t stored).trans_le env.timers.created
  unarmed := by
    rw [env.pc, env.condtionTimer]
    exact inv.unarmed

/-- What the call shares with its runtime, and its timer. -/
structure Shared where
  io : IOmanager Task
  mgr : TimerManager Job
  sched : Schedule Job
  obs : List (List (Option Job))
  copies : List (Task × Bool)
  running : List (Job × Bool)
  condtionTimer : Option ℕ

def shared (w : World) : Shared :=
  ⟨w.io, w.mgr, w.sched, w.obs, w.copies, w.running, w.condtionTimer⟩

theorem unheld_of_shared (same : w'.shared = w.shared) : Unheld w' ↔ Unheld w := by
  have sched : w'.sched = w.sched := congrArg Shared.sched same
  have running : w'.running = w.running := congrArg Shared.running same
  unfold Unheld Held
  rw [sched, running]

/-- The points the call can go to without touching the runtime. -/
def Follows (pc pc' : IoPc) : Prop :=
  (pc.registered = true → pc'.registered = true) ∧ (pc'.registered = true → pc.registered = true) ∧
    (pc'.early = true → pc.early = true) ∧ (pc'.unarmed = true → pc.unarmed = true) ∧
    (pc = .returned → pc' = .returned)

instance (pc pc' : IoPc) : Decidable (Follows pc pc') := inferInstanceAs (Decidable (_ ∧ _))

theorem early_of_next (pc : IoPc) : ∀ pc' ∈ pc.next, pc'.early = true → pc.early = true := by
  cases pc <;> decide

/-- The call does not go back to before its registration. -/
theorem early_ioStep (edge : w.ioStep call a = some w') (early : w'.pc.early = true) :
    w.pc.early = true :=
  early_of_next w.pc w'.pc (pc_ioStep edge) early

/-- A step of the call alone keeps the invariant. -/
theorem Inv.moved (inv : Inv call w) (pc pc' : IoPc) (same : w'.shared = w.shared)
    (here : w.pc = pc) (there : w'.pc = pc') (follows : Follows pc pc') : Inv call w' := by
  subst here there
  have io : w'.io = w.io := congrArg Shared.io same
  have mgr : w'.mgr = w.mgr := congrArg Shared.mgr same
  have obs : w'.obs = w.obs := congrArg Shared.obs same
  have copies : w'.copies = w.copies := congrArg Shared.copies same
  have condtionTimer : w'.condtionTimer = w.condtionTimer := congrArg Shared.condtionTimer same
  obtain ⟨stays, back, early, unarmed, final⟩ := follows
  constructor
  · exact mgr ▸ inv.good
  · exact mgr ▸ inv.callbacks
  · exact obs ▸ inv.obs
  · intro fd d waits
    rw [io] at waits
    obtain ⟨own, place⟩ := inv.waits fd d waits
    exact ⟨own, place.imp stays final⟩
  · intro registered ctx found
    rw [io] at found
    exact inv.own (back registered) ctx found
  · intro before
    obtain ⟨unheld, none_ready⟩ := inv.early (early before)
    exact ⟨(unheld_of_shared same).mpr unheld, copies ▸ none_ready⟩
  · rw [condtionTimer, mgr]
    exact inv.timer
  · intro before
    rw [condtionTimer]
    exact inv.unarmed (unarmed before)

/-- A call that returns before it has armed its timer leaves nothing. -/
theorem Inv.left_of_unarmed (inv : Inv call w) (same : w'.shared = w.shared)
    (unarmed : w.pc.unarmed = true) : NothingLeft w' := by
  have io : w'.io = w.io := congrArg Shared.io same
  have condtionTimer : w'.condtionTimer = w.condtionTimer := congrArg Shared.condtionTimer same
  have early : w.pc.early = true := by
    cases pc : w.pc <;> rw [pc] at unarmed <;> first | rfl | cases unarmed
  intro _
  refine ⟨fun fd d waits => ?_, fun t stored => ?_, (unheld_of_shared same).mpr (inv.early early).1⟩
  · rw [io] at waits
    rcases (inv.waits fd d waits).2 with registered | returned
    · cases pc : w.pc <;> rw [pc] at unarmed registered <;> cases unarmed <;> cases registered
    · rw [returned] at unarmed
      cases unarmed
  · rw [condtionTimer, inv.unarmed unarmed] at stored
    cases stored

/-! ## The steps of the call -/

theorem inv_enter (inv : Inv call w) (edge : w.ioStep call .enter = some w') :
    Inv call w' ∧ NothingLeft w' := by
  obtain ⟨here, after⟩ := Option.ite_none_right_eq_some.mp edge
  obtain rfl := Option.some.inj after
  have unarmed : w.pc.unarmed = true := by rw [here]; rfl
  have same : (w.enter call).shared = w.shared := by
    unfold enter
    split
    · rfl
    · rfl
    · split
      · rfl
      · split <;> rfl
  refine ⟨?_, inv.left_of_unarmed same unarmed⟩
  rcases pc_enter call w with there | there | there <;>
    exact inv.moved _ _ same here there (by decide)

theorem inv_syscall (r : IoResult) (inv : Inv call w)
    (edge : w.ioStep call (.syscall r) = some w') :
    Inv call w' ∧ NothingLeft w' := by
  have edge : w.syscall r = some w' := edge
  unfold syscall at edge
  cases here : w.pc <;> rw [here] at edge <;> try cases edge
  case direct =>
    have unarmed : w.pc.unarmed = true := by rw [here]; rfl
    exact ⟨inv.moved .direct .returned rfl here rfl (by decide), inv.left_of_unarmed rfl unarmed⟩
  case firstCall =>
    have unarmed : w.pc.unarmed = true := by rw [here]; rfl
    dsimp only at edge
    split at edge
    · obtain rfl := Option.some.inj edge
      exact ⟨inv.moved .firstCall .firstCall rfl here here (by decide),
        inv.left_of_unarmed rfl unarmed⟩
    · split at edge
      · obtain rfl := Option.some.inj edge
        refine ⟨?_, inv.left_of_unarmed rfl unarmed⟩
        by_cases armed : w.toMs ≠ -1
        · exact inv.moved .firstCall .arm rfl here (if_pos armed) (by decide)
        · exact inv.moved .firstCall .returned rfl here (if_neg armed) (by decide)
      · obtain rfl := Option.some.inj edge
        exact ⟨inv.moved .firstCall .returned rfl here rfl (by decide),
          inv.left_of_unarmed rfl unarmed⟩
  case retry =>
    exact ⟨inv.moved .retry .loopHead rfl here rfl (by decide), fun returned => nomatch returned⟩

theorem inv_arm (now : UInt64) (inv : Inv call w) (edge : w.ioStep call (.arm now) = some w') :
    Inv call w' ∧ NothingLeft w' := by
  obtain ⟨here, after⟩ := Option.ite_none_right_eq_some.mp edge
  obtain rfl := Option.some.inj after
  have step : w.mgr.step (.addCondtionTimer w.toMs (some .timeout) Cond.tinfo false now) =
      some (w.arm now).mgr := rfl
  have early := inv.early (by rw [here]; rfl)
  refine ⟨?_, fun returned => nomatch returned⟩
  constructor
  · exact inv.good.next step
  · exact TimerManager.callbacks_step inv.callbacks step rfl
  · exact inv.obs
  · have nowhere : Unregistered w :=
      inv.unregistered (by rw [here]; rfl) fun same => nomatch here.symm.trans same
    exact fun fd d waits => absurd waits (nowhere fd d)
  · exact fun registered => nomatch registered
  · exact fun _ => early
  · intro t stored
    cases stored
    exact Nat.lt_succ_self w.mgr.created
  · exact fun unarmed => nomatch unarmed

theorem inv_register (alloc : BitVec 64) (refuse : Option Errno) (inv : Inv call w)
    (edge : w.ioStep call (.register alloc refuse) = some w') :
    Inv call w' ∧ NothingLeft w' := by
  obtain ⟨-, after⟩ := Option.ite_none_right_eq_some.mp edge
  obtain rfl := Option.some.inj after
  refine ⟨?_, fun returned => nomatch returned⟩
  constructor
  · exact inv.good
  · exact inv.callbacks
  · exact inv.obs
  · intro fd d waits
    rcases IOmanager.waits_addEvent waits with old | ⟨same, -, -⟩
    · exact ⟨(inv.waits fd d old).1, .inl rfl⟩
    · exact ⟨same, .inl rfl⟩
  · intro _ ctx found
    obtain ⟨ctx', written, stored⟩ := lookup_register call w alloc refuse
    rw [found] at written
    cases written
    exact stored
  · exact fun early => nomatch early
  · exact inv.timer
  · exact fun unarmed => nomatch unarmed

theorem inv_loopHead (inv : Inv call w) (edge : w.ioStep call .loopHead = some w') :
    Inv call w' ∧ NothingLeft w' := by
  obtain ⟨here, after⟩ := Option.ite_none_right_eq_some.mp edge
  obtain rfl := Option.some.inj after
  unfold loopHead
  split
  · exact ⟨inv.moved .loopHead .waiting rfl here rfl (by decide), fun returned => nomatch returned⟩
  · exact ⟨inv.moved .loopHead .cleanup rfl here rfl (by decide), fun returned => nomatch returned⟩

theorem inv_wake (inv : Inv call w) (edge : w.ioStep call .wake = some w') :
    Inv call w' ∧ NothingLeft w' := by
  obtain ⟨⟨here, -⟩, after⟩ := Option.ite_none_right_eq_some.mp edge
  obtain rfl := Option.some.inj after
  exact ⟨inv.moved .waiting .retry rfl here rfl (by decide), fun returned => nomatch returned⟩

/-- With the deletion taken, the table holds nothing of the call. -/
theorem unregistered_of_erased (inv : Inv call w)
    (table : w'.io.mEvents = w.io.mEvents.erase call.fd) : Unregistered w' := by
  intro fd d waits
  obtain ⟨other, old⟩ := (IOmanager.waits_erase table).mp waits
  exact other (inv.waits fd d old).1

/-- Where the call goes after the deletion, and whether its registration is gone. -/
theorem cleanup_cases (refuse : Option Errno) (inv : Inv call w)
    (registered : w.pc.registered = true) :
    (w.io.mEvents.lookup call.fd = none ∧ (w.cleanup call refuse).pc = .returned ∧
        Unregistered (w.cleanup call refuse)) ∨
      (Deletable call w refuse ∧
        (w.cleanup call refuse).pc = (if w.n = -1 then .cancelTimer else .returned) ∧
        Unregistered (w.cleanup call refuse)) ∨
      (w.io.mEvents.lookup call.fd ≠ none ∧ ¬ Accepts w.io.epoll .del call.fd refuse ∧
        (w.cleanup call refuse).pc = .returned ∧ ¬ Unregistered (w.cleanup call refuse)) := by
  cases found : w.io.mEvents.lookup call.fd with
  | none =>
    refine .inl ⟨rfl, ?_, fun fd d waits => ?_⟩
    · unfold cleanup
      rw [w.io.delEvent_absent found]
      simp only [Bool.false_eq_true, and_false, if_false]
    · have old := IOmanager.waits_delEvent waits
      rw [(inv.waits fd d old).1] at old
      exact IOmanager.not_waits_of_none found old
  | some ctx =>
    have present : w.io.mEvents.lookup call.fd ≠ none := by
      rw [found]
      exact Option.some_ne_none ctx
    by_cases taken : Accepts w.io.epoll .del call.fd refuse
    · have after := w.io.delEvent_accepted found taken call.event.event
      refine .inr (.inl ⟨⟨present, taken⟩, ?_, ?_⟩)
      · unfold cleanup
        rw [after]
        simp only [and_true]
      · apply unregistered_of_erased inv
        show (w.io.delEvent call.fd call.event.event false refuse).1.mEvents = _
        rw [after]
    · obtain ⟨err, after⟩ := w.io.delEvent_refused found taken call.event.event false
      refine .inr (.inr ⟨Option.some_ne_none ctx, taken, ?_, fun gone => ?_⟩)
      · unfold cleanup
        rw [after]
        simp only [Bool.false_eq_true, and_false, if_false]
      · apply gone call.fd call.event
        refine ⟨ctx, ?_, inv.own registered ctx found⟩
        show (w.io.delEvent call.fd call.event.event false refuse).1.mEvents.lookup call.fd = _
        rw [after]
        exact found

/-- The invariant after the deletion, wherever the call goes. -/
theorem Inv.cleanup {refuse : Option Errno} (inv : Inv call w)
    (goes : (w.cleanup call refuse).pc = .returned ∨
      ((w.cleanup call refuse).pc = .cancelTimer ∧ Unregistered (w.cleanup call refuse))) :
    Inv call (w.cleanup call refuse) := by
  have final : (w.cleanup call refuse).pc = .returned ∨ (w.cleanup call refuse).pc = .cancelTimer :=
    goes.imp_right And.left
  refine ⟨inv.good, inv.callbacks, inv.obs, ?_, ?_, ?_, inv.timer, ?_⟩
  · intro fd d waits
    rcases goes with returned | ⟨-, unregistered⟩
    · exact ⟨(inv.waits fd d (IOmanager.waits_delEvent waits)).1, .inr returned⟩
    · exact absurd waits (unregistered fd d)
  · rcases final with pc | pc <;> rw [pc] <;> exact fun registered => nomatch registered
  · rcases final with pc | pc <;> rw [pc] <;> exact fun early => nomatch early
  · rcases final with pc | pc <;> rw [pc] <;> exact fun unarmed => nomatch unarmed

theorem inv_cleanup (refuse : Option Errno) (inv : Inv call w)
    (edge : w.ioStep call (.cleanup refuse) = some w') :
    Inv call w' ∧ (NothingLeft w' ↔ Tidy call w (.cleanup refuse)) := by
  obtain ⟨here, after⟩ := Option.ite_none_right_eq_some.mp edge
  obtain rfl := Option.some.inj after
  have unheld : Unheld (w.cleanup call refuse) ↔ Unheld w := Iff.rfl
  have collected : Collected (w.cleanup call refuse) ↔ Collected w := Iff.rfl
  have registered : w.pc.registered = true := by rw [here]; rfl
  rcases cleanup_cases refuse inv registered with
    ⟨absent, pc, unregistered⟩ | ⟨deletable, pc, unregistered⟩ | ⟨present, refused, pc, stays⟩
  · refine ⟨inv.cleanup (.inl pc), ?_⟩
    unfold NothingLeft Tidy Deletable
    rw [forall_prop_of_true pc, unheld, collected, and_iff_right unregistered]
    simp only [absent, ne_eq, not_true_eq_false, false_and, and_false, false_or,
      IsEmpty.forall_iff, true_and]
  · obtain ⟨present, taken⟩ := deletable
    by_cases failed : w.n = -1
    · rw [if_pos failed] at pc
      refine ⟨inv.cleanup (.inr ⟨pc, unregistered⟩), iff_of_true ?_ (.inl ⟨failed, present, taken⟩)⟩
      intro returned
      rw [pc] at returned
      cases returned
    · rw [if_neg failed] at pc
      refine ⟨inv.cleanup (.inl pc), ?_⟩
      unfold NothingLeft Tidy
      rw [forall_prop_of_true pc, unheld, collected, and_iff_right unregistered]
      simp only [failed, false_and, false_or, taken, implies_true, true_and]
  · refine ⟨inv.cleanup (.inl pc), iff_of_false (fun left => stays (left pc).1) ?_⟩
    rintro (⟨-, -, accepted⟩ | ⟨accepted, -⟩)
    · exact refused accepted
    · exact refused (accepted present)

theorem inv_cancelTimer (inv : Inv call w) (edge : w.ioStep call .cancelTimer = some w') :
    Inv call w' ∧ (NothingLeft w' ↔ Tidy call w .cancelTimer) := by
  obtain ⟨here, after⟩ := Option.ite_none_right_eq_some.mp edge
  obtain rfl := Option.some.inj after
  have none_waits : Unregistered w :=
    inv.unregistered (by rw [here]; rfl) fun same => nomatch here.symm.trans same
  have timers : w.cancelTimer.mgr.Good ∧ w.cancelTimer.mgr.Callbacks Harmless ∧
      w.mgr.created ≤ w.cancelTimer.mgr.created ∧ Collected w.cancelTimer := by
    unfold cancelTimer Collected
    cases armed : w.condtionTimer with
    | none => exact ⟨inv.good, inv.callbacks, Nat.le_refl _, fun t stored => nomatch stored⟩
    | some t =>
      refine ⟨inv.good.edits (TimerManager.safe_cancel w.mgr t),
        TimerManager.callbacks_edits inv.callbacks (TimerManager.brings_cancel t),
        TimerManager.created_edits_le _ _, fun u stored => ?_⟩
      cases stored
      exact inv.good.not_mem_cancel
  refine ⟨?_, ?_⟩
  · refine ⟨timers.1, timers.2.1, inv.obs, ?_, ?_, ?_, ?_, ?_⟩
    · exact fun fd d waits => absurd waits (none_waits fd d)
    · exact fun registered => nomatch registered
    · exact fun early => nomatch early
    · exact fun t stored => (inv.timer t stored).trans_le timers.2.2.1
    · exact fun unarmed => nomatch unarmed
  · unfold NothingLeft Tidy
    have unheld : Unheld w.cancelTimer ↔ Unheld w := Iff.rfl
    have unregistered : Unregistered w.cancelTimer := none_waits
    have returned : w.cancelTimer.pc = .returned := rfl
    rw [forall_prop_of_true returned, unheld, and_iff_right unregistered,
      and_iff_right timers.2.2.2]

/-! ## Runs -/

/-- After the return, the runtime brings nothing back but by the delivery of a
copy. -/
theorem left_around (inv : Inv call w) (before : NothingLeft w) (env : Around call w w' a)
    (edge : w.envStep call a = some w') : NothingLeft w' ↔ Tidy call w a := by
  by_cases returned : w.pc = .returned
  · obtain ⟨unregistered, collected, unheld⟩ := before returned
    have unregistered' : Unregistered w' :=
      fun fd d waits => unregistered fd d (env.table.waits fd d waits)
    have collected' : Collected w' := by
      intro t stored
      rw [env.condtionTimer] at stored
      exact env.timers.out inv.good t stored (inv.timer t stored) (collected t stored)
    have rule : NothingLeft w' ↔ Unheld w' := by
      unfold NothingLeft
      rw [env.pc, forall_prop_of_true returned, and_iff_right unregistered',
        and_iff_right collected']
    rw [rule]
    constructor
    · intro unheld'
      cases a with
      | deliver i =>
        intro _ found
        have stored : Held w' (.fn .ready) := by
          simp only [envStep, found, Option.some.injEq] at edge
          subst edge
          exact .inl ((Schedule.occupied_placeFirst (TimerFn.fn Task.ready : Job) (-1)
            w.sched.mTask).mem_iff.mpr List.mem_cons_self)
        have harmless : true = false := unheld' _ stored
        cases harmless
      | cleanup refuse => cases edge
      | cancelTimer => cases edge
      | _ => trivial
    · intro clean job held
      rcases env.jobs.held job held with harmless | old | ⟨batch, member, inside⟩ | ⟨i, rfl, found⟩
      · exact harmless
      · exact unheld job old
      · exact inv.obs batch member job inside
      · exact absurd found (clean returned)
  · have inside : NothingLeft w' := by
      intro returned'
      rw [env.pc] at returned'
      exact absurd returned' returned
    refine iff_of_true inside ?_
    cases a with
    | deliver i => exact fun returned' => absurd returned' returned
    | cleanup refuse => cases edge
    | cancelTimer => cases edge
    | _ => trivial

/-- Every step keeps the invariant, and from a world where nothing is left it
leads to one where nothing is left if and only if it is tidy. -/
theorem step_left (inv : Inv call w) (edge : w.step call a = some w') :
    Inv call w' ∧ (NothingLeft w → (NothingLeft w' ↔ Tidy call w a)) := by
  rcases step_cases edge with own | around
  · have clean_of : Inv call w' ∧ NothingLeft w' → Tidy call w a →
        Inv call w' ∧ (NothingLeft w → (NothingLeft w' ↔ Tidy call w a)) :=
      fun both clean => ⟨both.1, fun _ => iff_of_true both.2 clean⟩
    cases a with
    | enter => exact clean_of (inv_enter inv own) trivial
    | syscall r => exact clean_of (inv_syscall r inv own) trivial
    | arm now => exact clean_of (inv_arm now inv own) trivial
    | register alloc refuse => exact clean_of (inv_register alloc refuse inv own) trivial
    | loopHead => exact clean_of (inv_loopHead inv own) trivial
    | wake => exact clean_of (inv_wake inv own) trivial
    | cleanup refuse =>
      obtain ⟨inv', rule⟩ := inv_cleanup refuse inv own
      exact ⟨inv', fun _ => rule⟩
    | cancelTimer =>
      obtain ⟨inv', rule⟩ := inv_cancelTimer inv own
      exact ⟨inv', fun _ => rule⟩
    | _ => cases own
  · have env := around_envStep around
    exact ⟨inv.around env, fun before => left_around inv before env around⟩

theorem fresh_init (ctx : FdCtx) (tickleFds : Int32 × Int32) (stack : BitVec 64) :
    Fresh (init ctx tickleFds stack) where
  pc := rfl
  condtionTimer := rfl
  good := TimerManager.good_empty
  callbacks := fun _ _ stored => nomatch stored
  obs := List.forall_mem_nil _
  waits := fun _ _ waits => by
    obtain ⟨_, found, -⟩ := waits
    cases found
  held := fun _ held => by
    rcases held with slot | ⟨_, running⟩
    · cases slot
    · cases running
  copies := List.forall_mem_nil _

/-! ## The history -/

/-- What the history says of the timer and of the copies. -/
structure Booked (p : World × List (World × IoAct)) : Prop where
  armed : p.1.pc.armed = true → p.1.condtionTimer ≠ none
  before : p.1.condtionTimer = none → ¬ TakenOut p.2
  once : ∀ t, p.1.condtionTimer = some t → (p.1.mgr.timers t).mRecurring = false
  timer : ∀ t, p.1.condtionTimer = some t → (t ∉ p.1.mgr.mTimers ↔ TakenOut p.2)
  copies : p.1.pending + p.2.countP finishes = p.2.countP delivers

theorem Fresh.booked (fresh : Fresh w) : Booked (w, []) where
  armed := by
    rw [fresh.pc]
    exact fun armed => nomatch armed
  before := fun _ ⟨_, member, _⟩ => nomatch member
  once := by
    rw [fresh.condtionTimer]
    exact fun t stored => nomatch stored
  timer := by
    rw [fresh.condtionTimer]
    exact fun t stored => nomatch stored
  copies := pending_eq_zero.mpr fresh.held

theorem takenOut_cons {q : World × IoAct} {log : List (World × IoAct)} :
    TakenOut (q :: log) ↔ TakesOut q ∨ TakenOut log := by
  unfold TakenOut
  rw [List.exists_mem_cons_iff]

/-- The copies are stored and run one at a time. -/
theorem Booked.copies_step {log : List (World × IoAct)} (booked : Booked (w, log))
    (inv : Inv call w) (edge : w.step call a = some w') :
    w'.pending + ((w, a) :: log).countP finishes = ((w, a) :: log).countP delivers := by
  have moved := pending_step edge inv.obs
  have kept := booked.copies
  have one (b : Bool) : (if b = true then 1 else 0) = b.toNat := by cases b <;> rfl
  rw [List.countP_cons, List.countP_cons, one, one]
  dsimp only at kept
  omega

theorem armed_of_next (pc : IoPc) :
    ∀ pc' ∈ pc.next, pc'.armed = true → pc.armed = true ∨ pc = .arm := by
  cases pc <;> decide

/-- The only step at the arming of the timer arms it. -/
theorem arm_of_pc (here : w.pc = .arm) (edge : w.ioStep call a = some w') :
    ∃ now, a = .arm now := by
  cases a with
  | arm now => exact ⟨now, rfl⟩
  | syscall r =>
    have edge : w.syscall r = some w' := edge
    unfold syscall at edge
    rw [here] at edge
    cases edge
  | enter | loopHead | wake | cancelTimer =>
    simp only [ioStep, here, reduceCtorEq, false_and, if_false] at edge
  | register alloc refuse | cleanup refuse =>
    simp only [ioStep, here, reduceCtorEq, false_and, if_false] at edge
  | _ => cases edge

/-- A step after which the timers are as before. -/
theorem Booked.same {log : List (World × IoAct)} (booked : Booked (w, log)) (inv : Inv call w)
    (edge : w.step call a = some w') (armed : w'.pc.armed = true → w.pc.armed = true)
    (mgr : w'.mgr = w.mgr) (condtionTimer : w'.condtionTimer = w.condtionTimer)
    (stays : ¬ TakesOut (w, a)) : Booked (w', (w, a) :: log) := by
  have taken : TakenOut ((w, a) :: log) ↔ TakenOut log :=
    takenOut_cons.trans (or_iff_right stays)
  refine ⟨?_, ?_, ?_, ?_, booked.copies_step inv edge⟩
  · rw [condtionTimer]
    exact fun later => booked.armed (armed later)
  · rw [condtionTimer, taken]
    exact booked.before
  · rw [condtionTimer, mgr]
    exact booked.once
  · rw [condtionTimer, mgr, taken]
    exact booked.timer

/-- The timer is armed: it is in the set unless its deadline is taken there. -/
theorem Booked.arms {log : List (World × IoAct)} {now : UInt64} (booked : Booked (w, log))
    (inv : Inv call w) (here : w.pc = .arm) (edge : w.step call (.arm now) = some (w.arm now)) :
    Booked (w.arm now, (w, .arm now) :: log) := by
  have none_before : ¬ TakenOut log := booked.before (inv.unarmed (by rw [here]; rfl))
  refine ⟨?_, ?_, ?_, ?_, booked.copies_step inv edge⟩
  · exact fun _ => Option.some_ne_none w.mgr.created
  · exact fun missing => nomatch missing
  · intro t stored
    cases stored
    exact congrArg Timer.mRecurring (TimerManager.timers_create_self w.mgr _)
  · intro t stored
    cases stored
    rw [takenOut_cons, or_iff_left none_before]
    refine (inv.good.mem_addTimer w.toMs _ false now).not.trans ?_
    simp only [not_forall, not_not, exists_prop]
    exact Iff.rfl

/-- A call of another task, or a pass. -/
theorem Booked.called {log : List (World × IoAct)} {c : TimerCall Task Cond}
    (booked : Booked (w, log)) (inv : Inv call w) (edge : w.step call a = some w')
    (pc : w'.pc = w.pc) (condtionTimer : w'.condtionTimer = w.condtionTimer)
    (inner : w.mgr.step c = some w'.mgr) (other : c.target = none ∨ c.target ≠ w.condtionTimer)
    (takes : TakesOut (w, a) ↔
      ∃ t, w.condtionTimer = some t ∧ TimerManager.Leaves w.mgr t c) :
    Booked (w', (w, a) :: log) := by
  have apart (t : ℕ) (stored : w.condtionTimer = some t) : c.target ≠ some t := by
    rcases other with none | apart
    · rw [none]
      exact Option.some_ne_none t ∘ Eq.symm
    · rwa [← stored]
  refine ⟨?_, ?_, ?_, ?_, booked.copies_step inv edge⟩
  · rw [pc, condtionTimer]
    exact booked.armed
  · rw [condtionTimer, takenOut_cons, takes]
    rintro missing (⟨t, stored, -⟩ | taken)
    · exact Option.some_ne_none t (stored.symm.trans missing)
    · exact booked.before missing taken
  · rw [condtionTimer]
    intro t stored
    exact (TimerManager.recurring_step inner (inv.timer t stored) (apart t stored)).trans
      (booked.once t stored)
  · rw [condtionTimer, takenOut_cons, takes]
    intro t stored
    by_cases pending : t ∈ w.mgr.mTimers
    · -- the timer is pending, so that nothing has taken it out before
      have none_before : ¬ TakenOut log := mt (booked.timer t stored).mpr (not_not_intro pending)
      rw [inv.good.mem_step inner pending (booked.once t stored), not_not, or_iff_left none_before]
      refine ⟨fun leaves => ⟨t, stored, leaves⟩, ?_⟩
      rintro ⟨u, same, leaves⟩
      cases stored.symm.trans same
      exact leaves
    · refine iff_of_true ?_ (.inr ((booked.timer t stored).mp pending))
      exact TimerManager.not_mem_step inv.good inner (inv.timer t stored) pending (apart t stored)

/-- The call cancels its timer. -/
theorem Booked.cancels {log : List (World × IoAct)} (booked : Booked (w, log))
    (inv : Inv call w) (edge : w.step call .cancelTimer = some w.cancelTimer) :
    Booked (w.cancelTimer, (w, .cancelTimer) :: log) := by
  refine ⟨?_, ?_, ?_, ?_, booked.copies_step inv edge⟩
  · intro armed
    cases armed
  · rw [takenOut_cons]
    rintro missing (armed | taken)
    · exact armed missing
    · exact booked.before missing taken
  · intro t stored
    have stored : w.condtionTimer = some t := stored
    refine Eq.trans ?_ (booked.once t stored)
    unfold cancelTimer
    rw [stored]
    exact TimerManager.recurring_edits (inv.timer t stored) (TimerManager.keepsKind_cancel t)
  · intro t stored
    have stored : w.condtionTimer = some t := stored
    have takes : TakesOut (w, .cancelTimer) := by
      show w.condtionTimer ≠ none
      rw [stored]
      exact Option.some_ne_none t
    refine iff_of_true ?_ (takenOut_cons.mpr (.inl takes))
    unfold cancelTimer
    rw [stored]
    exact inv.good.not_mem_cancel

/-- Every step keeps what the history says. -/
theorem Booked.step {log : List (World × IoAct)} (booked : Booked (w, log)) (inv : Inv call w)
    (edge : w.step call a = some w') : Booked (w', (w, a) :: log) := by
  rcases step_cases edge with own | around
  · rcases (frame_ioStep own).2 with
      ⟨mgr, condtionTimer, stays⟩ | ⟨now, rfl, here, rfl⟩ | ⟨rfl, rfl⟩
    · refine booked.same inv edge (fun armed => ?_) mgr condtionTimer stays
      refine (armed_of_next w.pc w'.pc (pc_ioStep own) armed).resolve_right fun here => ?_
      obtain ⟨now, rfl⟩ := arm_of_pc here own
      obtain ⟨-, after⟩ := Option.ite_none_right_eq_some.mp own
      obtain rfl := Option.some.inj after
      rw [inv.unarmed (by rw [here]; rfl)] at condtionTimer
      cases condtionTimer
    · exact booked.arms inv here edge
    · exact booked.cancels inv edge
  · have env := around_envStep around
    rcases timers_envStep around with ⟨mgr, stays⟩ | ⟨c, inner, other, takes⟩
    · exact booked.same inv edge (by rw [env.pc]; exact id) mgr env.condtionTimer stays
    · exact booked.called inv edge env.pc env.condtionTimer inner other takes

/-- A step is clean by the history if and only if it is tidy in the state. -/
theorem Booked.clean_iff {log : List (World × IoAct)} (booked : Booked (w, log))
    (edge : w.step call a = some w') : Clean call (w, log) a ↔ Tidy call w a := by
  have allRun : AllRun log ↔ Unheld w := by
    unfold Unheld
    rw [← pending_eq_zero]
    unfold AllRun
    have kept := booked.copies
    dsimp only at kept
    omega
  cases a with
  | cleanup refuse =>
    have here : w.pc = .cleanup := by
      rcases step_cases edge with own | around
      · exact (Option.ite_none_right_eq_some.mp own).1
      · cases around
    have takenOut : TakenOut log ↔ Collected w := by
      cases stored : w.condtionTimer with
      | none => exact absurd stored (booked.armed (by rw [here]; rfl))
      | some t =>
        refine (booked.timer t stored).symm.trans ⟨fun out u same => ?_, fun out => out t stored⟩
        cases stored.symm.trans same
        exact out
    show _ ∨ _ ∧ TakenOut log ∧ AllRun log ↔ _
    rw [takenOut, allRun]
    exact Iff.rfl
  | cancelTimer => exact allRun
  | _ => exact Iff.rfl

/-! ## Whole runs -/

/-- Over every interleaving of a call with its runtime: in every state after the
return its registration, its timer and the copies of its callback are gone, if
and only if every step of the run is clean. -/
theorem nothing_left_iff (call : IoCall) (fresh : Fresh w) (acts : List IoAct) :
    Runs.Always (step call) NothingLeft w acts ↔
      Runs.Along (Runs.logged (step call)) (Clean call) (w, []) acts := by
  have start : NothingLeft w := by
    intro returned
    rw [fresh.pc] at returned
    cases returned
  have tidy : Runs.Always (step call) NothingLeft w acts ↔
      Runs.Along (step call) (Tidy call) w acts := by
    refine Runs.always_iff_along (I := Inv call) (fun inv edge => (step_left inv edge).1) ?_
      fresh.inv start
    intro w a w' inv before edge
    exact (step_left inv edge).2 before
  rw [tidy, ← Runs.along_logged []]
  refine Runs.along_congr_inv (I := fun p => Inv call p.1 ∧ Booked p) ?_ ?_
    ⟨fresh.inv, fresh.booked⟩
  · rintro ⟨w, log⟩ a q ⟨inv, booked⟩ next
    obtain ⟨t, edge, rfl⟩ := Runs.logged_eq_some.mp next
    exact ⟨(step_left inv edge).1, booked.step inv edge⟩
  · rintro ⟨w, log⟩ a q ⟨-, booked⟩ next
    obtain ⟨t, edge, rfl⟩ := Runs.logged_eq_some.mp next
    exact (booked.clean_iff edge).symm

theorem nothing_left_iff_reset :
    (∃ w, Runs.exec (step readCall) (init socketCtx (3, 4) 0)
        (waitOnce (.fail (.other 104)) ++ [.cleanup none, .cancelTimer]) = some w ∧
        w.pc = .returned) ∧
      Runs.Always (step readCall) NothingLeft (init socketCtx (3, 4) 0)
        (waitOnce (.fail (.other 104)) ++ [.cleanup none, .cancelTimer]) := by
  refine ⟨⟨_, rfl, rfl⟩, ?_⟩
  apply (nothing_left_iff readCall (fresh_init _ _ _) _).mpr
  -- up to the deletion, only the delivery has a condition, and the call is waiting there
  iterate 14
    apply Runs.along_cons (by first | trivial | exact (fun returned => nomatch returned)) rfl
  apply Runs.along_cons (.inl ⟨rfl, (fun absent => nomatch absent), by decide⟩) rfl
  exact Runs.along_cons (C := Clean readCall) (by decide : AllRun _) rfl trivial

/-- A call that succeeds after one wait leaves its timer; and when two reports are
passed to the scheduler before it resumes, it also leaves the second copy. -/
theorem nothing_left_fails :
    (∃ w, Runs.exec (step readCall) (init socketCtx (3, 4) 0)
        (waitOnce (.done 1) ++ [.cleanup none]) = some w ∧
        w.pc = .returned ∧ ¬ Collected w ∧ ¬ NothingLeft w) ∧
      ∃ w, Runs.exec (step readCall) (init socketCtx (3, 4) 0)
        [.enter, .syscall (.fail .EAGAIN), .arm 100, .register 0x7f5500001000#64 none, .loopHead,
          .report 5 EPOLLIN, .test 0, .deliver 0, .report 5 (EPOLLIN ||| EPOLLHUP), .test 0,
          .deliver 0, .dequeue 7, .execute 0 none, .complete 0, .wake, .syscall (.done 1),
          .loopHead, .cleanup none] = some w ∧
        w.pc = .returned ∧ ¬ Unheld w ∧ ¬ NothingLeft w := by
  refine ⟨⟨_, rfl, rfl, ?_⟩, ⟨_, rfl, rfl, ?_⟩⟩
  · refine (fun stays => ⟨stays, fun left => stays (left rfl).2.1⟩) fun collected => ?_
    exact collected 0 rfl List.mem_cons_self
  · refine (fun stays => ⟨stays, fun left => stays (left rfl).2.2⟩) fun unheld => ?_
    exact nomatch (unheld (.fn .ready) (.inl List.mem_cons_self) : true = false)

end World

end Sylar
