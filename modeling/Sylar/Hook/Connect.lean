import Sylar.Hook.Model

/-!
# A hooked connect

`connect_with_timeout` of `hook.cpp` is to wait until a connection in progress has
been made or its timer fires. Its test for that is turned around: with `EINPROGRESS`
it returns 0 at once, and the timer, the registration and the late query of
`SO_ERROR` are for the other errors. Of the two callbacks, the one for readiness
clears the pointer to the timer and then has `delEvent` call it again.

`Connecting` is one such call inside the runtime that serves it. The two callbacks
are run by workers in any order and at any point; other tasks use the table for their
own descriptors and the manager for their own timers.

* `answers_step`: which steps end the call with the answer it should give.
* `answers_along_iff`: the runs that end so are those whose steps are all `Sound`.
* `answers_in_progress`: with `EINPROGRESS` the call returns 0 at once.
-/

namespace Sylar

open Epoll Runs

def EINPROGRESS : Errno := .other 115

/-- The arguments of `connect_with_timeout` that its body looks at. -/
structure ConnectCall where
  fd : Int32
  timeoutMs : UInt64

/-- Where the call is. -/
inductive ConnectPc where
  | enter
  | direct
  | connect
  | test
  | arm
  | register
  | loop
  | cancelTimer
  | check
  | query
  | returned
  deriving DecidableEq

/-- One call in its runtime. `locked` is whether a worker holds `schedule_mutex` and
waits for itself; `copies` and `expired` are the callbacks passed to the scheduler and
not run yet; `writable` and `soError` what the kernel has for the descriptor. The local
variables follow, with the value returned and whether a null pointer has been used, and
last the result of `connect_f` and whether the timeout callback took effect before the
other had run. -/
structure Connecting where
  hookEnable : Bool
  ctx : Option FdCtx
  io : IOmanager Task
  mgr : TimerManager Job
  mStopping : Bool
  locked : Bool
  copies : ℕ
  expired : ℕ
  writable : Bool
  soError : Option Errno
  pc : ConnectPc
  n : Int
  errno : Errno
  timer : Option ℕ
  cancelled : Option Errno
  flag : Bool
  rt : Bool
  ret : Option Int
  broken : Bool
  connectF : Option IoResult
  timedOut : Bool

/-- The steps: those of the call; then those of the kernel, of idle loops and of
workers; and last those of other tasks. -/
inductive ConnectAct where
  | enter
  | connectF (r : IoResult)
  | test
  | arm (now : UInt64)
  | register (alloc : BitVec 64) (refuse : Option Errno)
  | leaveLoop
  | cancelTimer
  | check
  | query (refuse : Option Errno)
  | settle (so : Option Errno)
  | report (fd : Int32) (events : BitVec 32)
  | expire (now : UInt64) (clock : ℕ → UInt64)
  | ready (refuse : Option Errno)
  | timeout (refuse : Option Errno)
  | events (c : EventCall ℕ) (refuse : Option Errno)
  | timers (c : TimerCall ℕ ℕ)
  | setStopping

namespace Connecting

variable (call : ConnectCall) (w : Connecting)

/-! ## The call -/

/-- The call returns. -/
def returns (v : Int) : Connecting := { w with ret := some v, pc := .returned }

/-- The checks at the head. -/
def enter : Connecting :=
  match w.hookEnable, w.ctx with
  | false, _ | _, none => { w with pc := .direct }
  | true, some ctx =>
    if ctx.mIsClose then { w with errno := .EBADF }.returns (-1)
    else if ctx.mUserNonblock then { w with pc := .direct }
    else { w with pc := .connect }

/-- `n` and `errno` after `connect_f`. -/
def record (r : IoResult) : Connecting :=
  { w with
    n := match r with
      | .done n => n
      | .fail _ => -1
    errno := match r with
      | .done _ => w.errno
      | .fail e => e
    connectF := some r }

/-- The two tests of the result: `n == 0`, and `n != -1 or errno == EINPROGRESS`. -/
def test : Connecting :=
  if w.n = 0 then w.returns 0
  else if w.n ≠ -1 ∨ w.errno = EINPROGRESS then w.returns 0
  else { w with flag := true, pc := .arm }

/-- `iom->addCondtionTimer(timeout_ms, …, winfo)`, unless there is no timeout. -/
def arm (now : UInt64) : Connecting :=
  if call.timeoutMs ≠ -1 then
    let (es, t) := w.mgr.addCondtionTimer call.timeoutMs (some .timeout) Cond.tinfo false now
    { w with mgr := w.mgr.edits es, timer := some t, pc := .register }
  else { w with pc := .register }

/-- `iom->addEvent(fd, …, WRITE)`. -/
def register (alloc : BitVec 64) (refuse : Option Errno) : Connecting :=
  let (io, reply) := w.io.addEvent call.fd (some .ready) Event.WRITE false alloc refuse
  let rt : Bool := match reply.ret with
    | .ok b => b
    | .error _ => false
  { w with
    io := io
    errno := reply.errno.getD w.errno
    rt := rt
    pc := if rt then .loop else .cancelTimer }

/-- `timer->cancel()` of the timer `t`. -/
def cancel (t : ℕ) : Connecting := { w with mgr := w.mgr.edits (Timer.cancel w.mgr t).1 }

/-- `if(timer) timer->cancel()`, after the loop or after a refused registration. -/
def cancelTimer : Connecting :=
  let w' := match w.timer with
    | some t => w.cancel t
    | none => w
  { w' with pc := if w.rt then .check else .query }

/-- `if(tinfo->cancelled)`. -/
def check : Connecting :=
  match w.cancelled with
  | some err => { w with errno := err }.returns (-1)
  | none => { w with pc := .query }

/-- `getsockopt(fd, SOL_SOCKET, SO_ERROR, …)`, and the tests of what it gives. -/
def query (refuse : Option Errno) : Connecting :=
  match refuse, w.soError with
  | some err, _ | none, some err => { w with errno := err }.returns (-1)
  | none, none => w.returns 0

/-! ## Callbacks -/

/-- `iom->delEvent(fd, WRITE, true)`. -/
def delEvent (refuse : Option Errno) : IOmanager Task × Reply Task :=
  w.io.delEvent call.fd Event.WRITE true refuse

/-- The readiness callback. When its `delEvent` calls it again, it finds the pointer to
the timer null, as it does where no timer is armed. -/
def ready (refuse : Option Errno) : Connecting :=
  match w.timer with
  | none => { w with flag := false, broken := true }
  | some t =>
    let (io, reply) := w.delEvent call refuse
    { w.cancel t with
      io := io, timer := none, flag := false, broken := reply.called == some .ready }

/-- Whether `tinfo` exists. -/
def alive : Bool :=
  match w.pc with
  | .enter | .direct | .connect | .test | .returned => false
  | _ => true

/-- The timeout callback. Its `delEvent` calls the other callback with `schedule_mutex`
held, and that one asks for it again. -/
def timeout (refuse : Option Errno) : Connecting :=
  if w.alive = true ∧ w.cancelled = none then
    let (io, reply) := w.delEvent call refuse
    let w' := { w with
      io := io, flag := false, cancelled := some .ETIMEDOUT, timedOut := w.timedOut || w.flag }
    if reply.called = some .ready then
      match w.timer with
      | none => { w' with broken := true }
      | some t => { w'.cancel t with timer := none, locked := true }
    else w'
  else w

/-! ## Steps -/

/-- The steps of the call. -/
def callStep : ConnectAct → Option Connecting
  | .enter => if w.pc = .enter then some w.enter else none
  | .connectF r => match w.pc with
    | .direct => some ((w.record r).returns (w.record r).n)
    | .connect => some { w.record r with pc := .test }
    | _ => none
  | .test => if w.pc = .test then some w.test else none
  | .arm now => if w.pc = .arm then some (w.arm call now) else none
  | .register alloc refuse =>
    if w.pc = .register ∧ w.locked = false ∧ (w.io.contextAt alloc).isNone then
      some (w.register call alloc refuse)
    else none
  | .leaveLoop =>
    if w.pc = .loop ∧ ¬ (w.flag = true ∧ w.mStopping = true) then
      some { w with pc := .cancelTimer }
    else none
  | .cancelTimer => if w.pc = .cancelTimer then some w.cancelTimer else none
  | .check => if w.pc = .check then some w.check else none
  | .query refuse => if w.pc = .query then some (w.query refuse) else none
  | _ => none

/-- A callback that is the timeout of the call. -/
def isTimeout : Option Job → Bool
  | some (.onTimer .tinfo (some .timeout)) => true
  | _ => false

/-- The steps of the runtime. When a connection is made or has failed, the descriptor is
writable and has its `SO_ERROR`. -/
def envStep : ConnectAct → Option Connecting
  | .settle so =>
    if w.connectF.isSome then some { w with writable := true, soError := so } else none
  | .report fd events => match w.io.epoll fd, w.locked with
    | some entry, false => (w.io.report events entry.data).map fun (io, cbs) =>
      { w with
        io := io
        copies := w.copies + cbs.count .ready
        writable := w.writable || (fd = call.fd && events &&& EPOLLOUT ≠ 0#32) }
    | _, _ => none
  | .expire now clock =>
    let (es, obs) := w.mgr.getExpiredCb now clock
    some { w with mgr := w.mgr.edits es, expired := w.expired + obs.countP isTimeout }
  | .ready refuse =>
    if 0 < w.copies then some { w.ready call refuse with copies := w.copies - 1 } else none
  | .timeout refuse =>
    if 0 < w.expired then some { w.timeout call refuse with expired := w.expired - 1 } else none
  | .events c refuse =>
    if c.fd ≠ call.fd ∧ w.locked = false ∧ w.io.enabled (c.map Task.other) then
      some { w with io := (w.io.apply (c.map Task.other) refuse).1 }
    else none
  | .timers c =>
    if c.collects = false ∧ (c.target = none ∨ c.target ≠ w.timer) then
      (w.mgr.step (c.map Task.other Cond.other)).map fun mgr => { w with mgr := mgr }
    else none
  | .setStopping => some { w with mStopping := true }
  | _ => none

/-- The call has returned, or has used a null pointer. -/
def ended : Bool := w.ret.isSome || w.broken

/-- One step, until the call is over. -/
def step (a : ConnectAct) : Option Connecting :=
  if w.ended then none else (w.callStep call a).or (w.envStep call a)

/-! ## The answer -/

/-- The connection has been made. -/
def Connected : Prop := w.writable = true ∧ w.soError = none

/-- An error that the call can answer with: that of `connect_f`, or `SO_ERROR`. -/
def Explains (err : Errno) : Prop := w.connectF = some (.fail err) ∨ w.soError = some err

/-- The answer of a call that is over. It is 0 only when `connect_f` has returned 0 or
the connection has been made; -1 with `ETIMEDOUT` when a connection in progress has
timed out; and else -1 with an error that explains it. -/
structure Right (w : Connecting) : Prop where
  sound : w.broken = false
  zero : w.ret = some 0 → w.connectF = some (.done 0) ∨ w.Connected
  timeout : w.connectF = some (.fail EINPROGRESS) → w.timedOut = true →
    w.ret = some (-1) ∧ w.errno = .ETIMEDOUT
  error : w.ret ≠ some 0 → ¬ (w.connectF = some (.fail EINPROGRESS) ∧ w.timedOut = true) →
    w.ret = some (-1) ∧ w.Explains w.errno

/-- When the call is over, its answer is right. -/
def Answers (w : Connecting) : Prop := w.ended = true → w.Right

/-- A call on a managed descriptor in user-blocking mode, with the hook enabled, before
it begins. -/
structure Start (w : Connecting) : Prop where
  pc : w.pc = .enter
  hookEnable : w.hookEnable = true
  ctx : ∃ ctx, w.ctx = some ctx ∧ ctx.mIsClose = false ∧ ctx.mUserNonblock = false
  ret : w.ret = none
  broken : w.broken = false
  timedOut : w.timedOut = false

/-- The steps that end the call with the right answer, or do not end it. At the test,
`connect_f` has returned 0 or an error other than `EINPROGRESS`, or the connection has
been made already. The readiness callback finds a timer, and its `delEvent` does not
call it again; nor does that of the timeout without a timer. After the timeout, or a
refused query, the error is one that explains the answer; and where the query finds no
error, the descriptor is writable. -/
def Sound (w : Connecting) : ConnectAct → Prop
  | .test => w.n = 0 ∨ (w.n = -1 ∧ w.errno ≠ EINPROGRESS) ∨ w.Connected
  | .ready refuse => w.timer ≠ none ∧ (w.delEvent call refuse).2.called ≠ some .ready
  | .timeout refuse => w.alive = true → w.cancelled = none →
    (w.delEvent call refuse).2.called = some .ready → w.timer ≠ none
  | .check => ∀ err, w.cancelled = some err → w.Explains err
  | .query refuse => match refuse with
    | some err => w.Explains err
    | none => w.soError = none → w.writable = true
  | _ => True

/-! ## Where the call is -/

variable {call w} {w' : Connecting} {a : ConnectAct}

/-- The result that `n` and `errno` stand for. -/
def result (w : Connecting) : IoResult := if w.n = -1 then .fail w.errno else .done w.n.toNat

/-- What is known at each point of a call that goes on: before its test no timeout has
been, and after it `connect_f` has reported an error other than `EINPROGRESS`. -/
def Known (w : Connecting) : Prop :=
  match w.pc with
  | .enter | .connect => w.timedOut = false
  | .test => w.timedOut = false ∧ -1 ≤ w.n ∧ w.connectF = some w.result
  | .direct | .returned => False
  | _ => ∃ e, e ≠ EINPROGRESS ∧ w.connectF = some (.fail e)

/-- The descriptor is managed, and so is the call until it is over. -/
structure Inv (w : Connecting) : Prop where
  hookEnable : w.hookEnable = true
  ctx : ∃ ctx, w.ctx = some ctx ∧ ctx.mIsClose = false ∧ ctx.mUserNonblock = false
  known : w.ended = false → Known w

theorem ended_eq_false : w.ended = false ↔ w.ret = none ∧ w.broken = false := by
  unfold ended
  rw [Bool.or_eq_false_iff, Option.isSome_eq_false_iff, Option.isNone_iff_eq_none]

theorem Start.inv (start : Start w) : Inv w where
  hookEnable := start.hookEnable
  ctx := start.ctx
  known _ := by
    unfold Known
    rw [start.pc]
    exact start.timedOut

theorem answers_of_going (ret : w.ret = none) (broken : w.broken = false) : Answers w := by
  intro ended
  rw [ended_eq_false.mpr ⟨ret, broken⟩] at ended
  cases ended

/-- Of a call that has returned, the answer is to be looked at. -/
theorem answers_of_returned {v : Int} (ret : w.ret = some v) : Answers w ↔ Right w := by
  have ended : w.ended = true := by
    unfold Connecting.ended
    rw [ret]
    rfl
  exact forall_prop_of_true ended

/-- A call that has not returned answers unless it has used a null pointer. -/
theorem answers_of_silent (ret : w.ret = none) : Answers w ↔ w.broken = false := by
  constructor
  · intro answers
    cases broken : w.broken with
    | false => rfl
    | true =>
      have ended : w.ended = true := by
        unfold Connecting.ended
        rw [broken, Bool.or_true]
      exact broken.symm.trans (answers ended).sound
  · exact answers_of_going ret

theorem step_eq_some : w.step call a = some w' ↔
    (w.ret = none ∧ w.broken = false) ∧
      (w.callStep call a = some w' ∨ (w.callStep call a = none ∧ w.envStep call a = some w')) := by
  unfold step
  rw [Option.ite_none_left_eq_some, Bool.not_eq_true, ended_eq_false, Option.or_eq_some_iff]

/-! ## The steps of the runtime -/

/-- The variables of the call that only its own steps assign. -/
structure Locals where
  hookEnable : Bool
  ctx : Option FdCtx
  pc : ConnectPc
  n : Int
  errno : Errno
  ret : Option Int
  connectF : Option IoResult

def locals (w : Connecting) : Locals :=
  ⟨w.hookEnable, w.ctx, w.pc, w.n, w.errno, w.ret, w.connectF⟩

/-- A step of the runtime leaves them alone, and no timeout is before `tinfo`. -/
structure Kept (w w' : Connecting) : Prop where
  locals : w'.locals = w.locals
  timedOut : w.alive = false → w'.timedOut = w.timedOut

theorem Kept.inv (kept : Kept w w') (inv : Inv w) (ended : w.ended = false) : Inv w' where
  hookEnable := (congrArg Locals.hookEnable kept.locals).trans inv.hookEnable
  ctx := by
    have ctx : w'.ctx = w.ctx := congrArg Locals.ctx kept.locals
    rw [ctx]
    exact inv.ctx
  known _ := by
    have known := inv.known ended
    have timedOut := kept.timedOut
    have pc : w'.pc = w.pc := congrArg Locals.pc kept.locals
    have connectF : w'.connectF = w.connectF := congrArg Locals.connectF kept.locals
    have n : w'.n = w.n := congrArg Locals.n kept.locals
    have result : w'.result = w.result := by
      unfold Connecting.result
      rw [n, show w'.errno = w.errno from congrArg Locals.errno kept.locals]
    unfold alive at timedOut
    unfold Known at known ⊢
    rw [pc, connectF, result, n]
    cases here : w.pc <;> rw [here] at known timedOut <;> dsimp only at known ⊢
    case enter => rw [timedOut rfl, known]
    case connect => rw [timedOut rfl, known]
    case test =>
      rw [timedOut rfl]
      exact known
    all_goals exact known

theorem kept_ready (refuse : Option Errno) : Kept w (w.ready call refuse) := by
  unfold ready
  split
  · exact ⟨rfl, fun _ => rfl⟩
  · exact ⟨rfl, fun _ => rfl⟩

theorem kept_timeout (refuse : Option Errno) : Kept w (w.timeout call refuse) := by
  unfold timeout
  split
  · next effective =>
    have asleep {b : Bool} (quiet : w.alive = false) : b = w.timedOut :=
      absurd (quiet.symm.trans effective.1) Bool.false_ne_true
    dsimp only
    split
    · split
      · exact ⟨rfl, asleep⟩
      · exact ⟨rfl, asleep⟩
    · exact ⟨rfl, asleep⟩
  · exact ⟨rfl, fun _ => rfl⟩

theorem broken_ready (refuse : Option Errno) : (w.ready call refuse).broken = false ↔
    w.timer ≠ none ∧ (w.delEvent call refuse).2.called ≠ some .ready := by
  unfold ready
  cases armed : w.timer with
  | none => exact iff_of_false (fun same => nomatch same) fun both => both.1 rfl
  | some t =>
    rw [and_iff_right (Option.some_ne_none t)]
    exact beq_eq_false_iff_ne

theorem broken_timeout (going : w.broken = false) (refuse : Option Errno) :
    (w.timeout call refuse).broken = false ↔ (w.alive = true → w.cancelled = none →
      (w.delEvent call refuse).2.called = some .ready → w.timer ≠ none) := by
  unfold timeout
  by_cases effective : w.alive = true ∧ w.cancelled = none
  · rw [if_pos effective, forall_prop_of_true effective.1, forall_prop_of_true effective.2]
    dsimp only
    by_cases called : (w.delEvent call refuse).2.called = some .ready
    · rw [if_pos called, forall_prop_of_true called]
      cases armed : w.timer with
      | none => exact iff_of_false (fun same => nomatch same) fun apart => apart rfl
      | some t => exact iff_of_true going (Option.some_ne_none t)
    · rw [if_neg called]
      exact iff_of_true going (absurd · called)
  · rw [if_neg effective]
    exact iff_of_true going fun alive cancelled => absurd ⟨alive, cancelled⟩ effective

/-- A step of the runtime leaves the call where it is, and keeps off null pointers
exactly when it is sound. -/
theorem kept_envStep (going : w.broken = false) (edge : w.envStep call a = some w') :
    Kept w w' ∧ (w'.broken = false ↔ Sound call w a) := by
  have same (sound : Sound call w a) (locals : w'.locals = w.locals)
      (timedOut : w'.timedOut = w.timedOut) (broken : w'.broken = w.broken) :
      Kept w w' ∧ (w'.broken = false ↔ Sound call w a) :=
    ⟨⟨locals, fun _ => timedOut⟩, iff_of_true (broken.trans going) sound⟩
  cases a with
  | settle so =>
    obtain ⟨-, after⟩ := Option.ite_none_right_eq_some.mp edge
    obtain rfl := Option.some.inj after
    exact same trivial rfl rfl rfl
  | report fd events =>
    unfold envStep at edge
    dsimp only at edge
    split at edge
    · obtain ⟨⟨io, cbs⟩, -, rfl⟩ := Option.map_eq_some_iff.mp edge
      exact same trivial rfl rfl rfl
    · cases edge
  | expire now clock =>
    obtain rfl := Option.some.inj edge
    exact same trivial rfl rfl rfl
  | ready refuse =>
    obtain ⟨-, after⟩ := Option.ite_none_right_eq_some.mp edge
    obtain rfl := Option.some.inj after
    have kept : Kept w (w.ready call refuse) := kept_ready refuse
    exact ⟨⟨kept.locals, kept.timedOut⟩, broken_ready refuse⟩
  | timeout refuse =>
    obtain ⟨-, after⟩ := Option.ite_none_right_eq_some.mp edge
    obtain rfl := Option.some.inj after
    have kept : Kept w (w.timeout call refuse) := kept_timeout refuse
    exact ⟨⟨kept.locals, kept.timedOut⟩, broken_timeout going refuse⟩
  | events c refuse =>
    obtain ⟨-, after⟩ := Option.ite_none_right_eq_some.mp edge
    obtain rfl := Option.some.inj after
    exact same trivial rfl rfl rfl
  | timers c =>
    obtain ⟨-, after⟩ := Option.ite_none_right_eq_some.mp edge
    obtain ⟨mgr, -, rfl⟩ := Option.map_eq_some_iff.mp after
    exact same trivial rfl rfl rfl
  | setStopping =>
    obtain rfl := Option.some.inj edge
    exact same trivial rfl rfl rfl
  | _ => cases edge

/-! ## The steps of the call -/

/-- A step of the call after which it goes on. -/
theorem going_callStep {C : Prop} (inv : Inv w) (hook : w'.hookEnable = w.hookEnable)
    (ctx : w'.ctx = w.ctx) (ret : w'.ret = none) (broken : w'.broken = false) (known : Known w')
    (sound : C) : Inv w' ∧ (Answers w' ↔ C) :=
  ⟨⟨hook.trans inv.hookEnable, ctx ▸ inv.ctx, fun _ => known⟩,
    iff_of_true (answers_of_going ret broken) sound⟩

/-- A step of the call with which it returns. -/
theorem returned_callStep {C : Prop} {v : Int} (inv : Inv w) (hook : w'.hookEnable = w.hookEnable)
    (ctx : w'.ctx = w.ctx) (ret : w'.ret = some v) (right : Right w' ↔ C) :
    Inv w' ∧ (Answers w' ↔ C) := by
  refine ⟨⟨hook.trans inv.hookEnable, ctx ▸ inv.ctx, fun going => ?_⟩, ?_⟩
  · rw [ended_eq_false, ret] at going
    cases going.1
  · rw [answers_of_returned ret]
    exact right

theorem pc_register (call : ConnectCall) (w : Connecting) (alloc : BitVec 64)
    (refuse : Option Errno) : (w.register call alloc refuse).pc = .loop ∨
      (w.register call alloc refuse).pc = .cancelTimer := ite_eq_or_eq _ _ _

theorem pc_cancelTimer (w : Connecting) :
    w.cancelTimer.pc = .check ∨ w.cancelTimer.pc = .query := ite_eq_or_eq _ _ _

/-- Cancelling the timer changes none of the variables but where the call is. -/
theorem kept_cancelTimer (w : Connecting) :
    w.cancelTimer.locals = { w.locals with pc := w.cancelTimer.pc } ∧
      w.cancelTimer.broken = w.broken := by
  unfold cancelTimer
  cases w.timer with
  | none => exact ⟨rfl, rfl⟩
  | some t => exact ⟨rfl, rfl⟩

theorem result_record (r : IoResult) : -1 ≤ (w.record r).n ∧ (w.record r).result = r := by
  cases r with
  | done n =>
    have positive : ¬ (n : Int) = -1 := by omega
    refine ⟨by show -1 ≤ (n : Int); omega, ?_⟩
    show (if (n : Int) = -1 then _ else IoResult.done (n : Int).toNat) = _
    rw [if_neg positive, Int.toNat_natCast]
  | fail e => exact ⟨Int.le_refl (-1), rfl⟩

/-- The answer 0 is right when `connect_f` has returned 0, or the connection is made. -/
theorem right_zero (ret : w.ret = some 0) (broken : w.broken = false)
    (timedOut : w.connectF = some (.fail EINPROGRESS) → w.timedOut = false) :
    Right w ↔ w.connectF = some (.done 0) ∨ w.Connected := by
  constructor
  · intro right
    exact right.zero ret
  · intro known
    refine ⟨broken, fun _ => known, fun failed late => ?_, fun other => absurd ret other⟩
    rw [timedOut failed] at late
    cases late

/-- The answer -1 is right when it is explained. -/
theorem right_error {e : Errno} (ret : w.ret = some (-1)) (broken : w.broken = false)
    (failed : w.connectF = some (.fail e)) (other : e ≠ EINPROGRESS) :
    Right w ↔ w.Explains w.errno := by
  have apart : w.connectF ≠ some (.fail EINPROGRESS) := by
    rw [failed]
    intro same
    cases same
    exact other rfl
  constructor
  · intro right
    refine (right.error ?_ fun both => apart both.1).2
    rw [ret]
    nofun
  · intro explained
    refine ⟨broken, fun zero => ?_, fun same => absurd same apart, fun _ _ => ⟨ret, explained⟩⟩
    rw [ret] at zero
    cases zero

theorem answers_test (inv : Inv w) (ret : w.ret = none) (broken : w.broken = false)
    (here : w.pc = .test) : Inv w.test ∧
      (Answers w.test ↔ w.n = 0 ∨ (w.n = -1 ∧ w.errno ≠ EINPROGRESS) ∨ w.Connected) := by
  have known := inv.known (ended_eq_false.mpr ⟨ret, broken⟩)
  unfold Known at known
  rw [here] at known
  obtain ⟨early, low, reported⟩ := known
  have zero : Right (w.returns 0) ↔ w.connectF = some (.done 0) ∨ w.Connected :=
    right_zero rfl broken fun _ => early
  unfold test
  unfold result at reported
  by_cases done : w.n = 0
  · rw [if_pos done]
    refine returned_callStep inv rfl rfl rfl (iff_of_true (zero.mpr (.inl ?_)) (.inl done))
    rw [reported, done]
    rfl
  · rw [if_neg done, or_iff_right done]
    by_cases failed : w.n = -1 ∧ w.errno ≠ EINPROGRESS
    · rw [if_pos failed.1] at reported
      rw [if_neg fun other => other.elim (absurd failed.1) (absurd · failed.2)]
      exact going_callStep inv rfl rfl ret broken ⟨w.errno, failed.2, reported⟩ (.inl failed)
    · have pending : w.n ≠ -1 ∨ w.errno = EINPROGRESS := by
        rwa [not_and_or, not_not] at failed
      rw [if_pos pending, or_iff_right failed]
      refine returned_callStep inv rfl rfl rfl (zero.trans (or_iff_right fun same => ?_))
      -- `connect_f` has returned neither 0 nor an error that is waited for
      rw [reported] at same
      split at same
      · cases same
      · have zero : w.n.toNat = 0 := IoResult.done.inj (Option.some.inj same)
        omega

theorem answers_check {e : Errno} (inv : Inv w) (ret : w.ret = none) (broken : w.broken = false)
    (failed : w.connectF = some (.fail e)) (other : e ≠ EINPROGRESS) :
    Inv w.check ∧ (Answers w.check ↔ ∀ err, w.cancelled = some err → w.Explains err) := by
  unfold check
  split
  · next err cancelled =>
    have answer : Right ({ w with errno := err }.returns (-1)) ↔ w.Explains err :=
      right_error rfl broken failed other
    refine returned_callStep inv rfl rfl rfl (answer.trans ?_)
    rw [cancelled]
    constructor
    · intro explained err' same
      cases same
      exact explained
    · intro all
      exact all err rfl
  · next cancelled =>
    refine going_callStep inv rfl rfl ret broken ⟨e, other, failed⟩ fun err same => ?_
    rw [cancelled] at same
    cases same

theorem answers_query {e : Errno} (inv : Inv w) (broken : w.broken = false)
    (failed : w.connectF = some (.fail e)) (other : e ≠ EINPROGRESS) (refuse : Option Errno) :
    Inv (w.query refuse) ∧ (Answers (w.query refuse) ↔ Sound call w (.query refuse)) := by
  unfold query
  split
  · next err _ => exact returned_callStep inv rfl rfl rfl (right_error rfl broken failed other)
  · next err found =>
    have answer : Right ({ w with errno := err }.returns (-1)) ↔ w.Explains err :=
      right_error rfl broken failed other
    refine returned_callStep inv rfl rfl rfl (iff_of_true (answer.mpr (.inr found)) ?_)
    intro absent
    rw [found] at absent
    cases absent
  · next found =>
    refine returned_callStep inv rfl rfl rfl ?_
    have late : w.connectF = some (.fail EINPROGRESS) → w.timedOut = false := by
      rw [failed]
      intro same
      cases same
      exact absurd rfl other
    have apart : w.connectF ≠ some (.done 0) := by
      rw [failed]
      nofun
    have answer : Right (w.returns 0) ↔ w.connectF = some (.done 0) ∨ w.Connected :=
      right_zero rfl broken late
    rw [answer, or_iff_right apart]
    show w.writable = true ∧ w.soError = none ↔ (w.soError = none → w.writable = true)
    rw [and_iff_left found, forall_prop_of_true found]

/-- A step of the call ends it with the right answer, or goes on, exactly when it is
sound. -/
theorem answers_callStep (inv : Inv w) (ret : w.ret = none) (broken : w.broken = false)
    (edge : w.callStep call a = some w') : Inv w' ∧ (Answers w' ↔ Sound call w a) := by
  have known := inv.known (ended_eq_false.mpr ⟨ret, broken⟩)
  unfold Known at known
  cases a with
  | enter =>
    obtain ⟨here, after⟩ := Option.ite_none_right_eq_some.mp edge
    rw [here] at known
    obtain ⟨ctx, stored, opened, blocking⟩ := inv.ctx
    have goes : w.enter = { w with pc := .connect } := by
      unfold enter
      rw [inv.hookEnable, stored]
      dsimp only
      rw [opened, blocking, if_neg Bool.false_ne_true, if_neg Bool.false_ne_true]
    rw [goes] at after
    obtain rfl := Option.some.inj after
    exact going_callStep inv rfl rfl ret broken known trivial
  | connectF r =>
    unfold callStep at edge
    dsimp only at edge
    cases here : w.pc <;> rw [here] at edge known <;> dsimp only at edge known
    case connect =>
      obtain rfl := Option.some.inj edge
      obtain ⟨low, same⟩ := result_record (w := w) r
      exact going_callStep inv rfl rfl ret broken ⟨known, low, congrArg some same.symm⟩ trivial
    all_goals cases edge
  | test =>
    obtain ⟨here, after⟩ := Option.ite_none_right_eq_some.mp edge
    obtain rfl := Option.some.inj after
    exact answers_test inv ret broken here
  | arm now =>
    obtain ⟨here, after⟩ := Option.ite_none_right_eq_some.mp edge
    rw [here] at known
    obtain rfl := Option.some.inj after
    unfold arm
    split
    · exact going_callStep inv rfl rfl ret broken known trivial
    · exact going_callStep inv rfl rfl ret broken known trivial
  | register alloc refuse =>
    obtain ⟨⟨here, -⟩, after⟩ := Option.ite_none_right_eq_some.mp edge
    rw [here] at known
    obtain rfl := Option.some.inj after
    refine going_callStep inv rfl rfl ret broken ?_ trivial
    unfold Known
    rcases pc_register call w alloc refuse with pc | pc
    · rw [pc]
      exact known
    · rw [pc]
      exact known
  | leaveLoop =>
    obtain ⟨⟨here, -⟩, after⟩ := Option.ite_none_right_eq_some.mp edge
    rw [here] at known
    obtain rfl := Option.some.inj after
    exact going_callStep inv rfl rfl ret broken known trivial
  | cancelTimer =>
    obtain ⟨here, after⟩ := Option.ite_none_right_eq_some.mp edge
    rw [here] at known
    obtain rfl := Option.some.inj after
    obtain ⟨locals, broken'⟩ := kept_cancelTimer w
    have failed : w.cancelTimer.connectF = w.connectF := congrArg Locals.connectF locals
    refine going_callStep inv (congrArg Locals.hookEnable locals) (congrArg Locals.ctx locals)
      ((congrArg Locals.ret locals).trans ret) (broken'.trans broken) ?_ trivial
    unfold Known
    rw [failed]
    rcases pc_cancelTimer w with pc | pc
    · rw [pc]
      exact known
    · rw [pc]
      exact known
  | check =>
    obtain ⟨here, after⟩ := Option.ite_none_right_eq_some.mp edge
    rw [here] at known
    obtain ⟨e, other, failed⟩ := known
    obtain rfl := Option.some.inj after
    exact answers_check inv ret broken failed other
  | query refuse =>
    obtain ⟨here, after⟩ := Option.ite_none_right_eq_some.mp edge
    rw [here] at known
    obtain ⟨e, other, failed⟩ := known
    obtain rfl := Option.some.inj after
    exact answers_query inv broken failed other refuse
  | _ => cases edge

/-! ## Runs -/

/-- Every step keeps what is known, and leads to a right answer or on exactly when it is
sound. -/
theorem answers_step (inv : Inv w) (edge : w.step call a = some w') :
    Inv w' ∧ (Answers w' ↔ Sound call w a) := by
  obtain ⟨⟨ret, broken⟩, own | ⟨-, around⟩⟩ := step_eq_some.mp edge
  · exact answers_callStep inv ret broken own
  · obtain ⟨kept, rule⟩ := kept_envStep broken around
    refine ⟨kept.inv inv (ended_eq_false.mpr ⟨ret, broken⟩), ?_⟩
    rw [← rule]
    exact answers_of_silent ((congrArg Locals.ret kept.locals).trans ret)

/-- Over every run of a call and its runtime, for every result of `connect_f`, every
order of the two callbacks and every `SO_ERROR`: when the call is over its answer is
right, if and only if every step of the run is sound. -/
theorem answers_along_iff (call : ConnectCall) (start : Start w) (as : List ConnectAct) :
    Always (step call) Answers w as ↔ Along (step call) (Sound call) w as := by
  have first : Answers w := answers_of_going start.ret start.broken
  exact always_iff_along (fun inv edge => (answers_step inv edge).1)
    (fun inv _ edge => (answers_step inv edge).2) start.inv first

/-! ## Two calls -/

/-- A call on a socket, in a runtime without anything else. -/
def init : Connecting where
  hookEnable := true
  ctx := some World.socketCtx
  io := IOmanager.init (3, 4) 0
  mgr := TimerManager.empty
  mStopping := false
  locked := false
  copies := 0
  expired := 0
  writable := false
  soError := none
  pc := .enter
  n := 0
  errno := .other 0
  timer := none
  cancelled := none
  flag := true
  rt := false
  ret := none
  broken := false
  connectF := none
  timedOut := false

theorem start_init : Start init := by
  refine ⟨rfl, rfl, ⟨World.socketCtx, rfl, rfl, rfl⟩, rfl, rfl, rfl⟩

/-- A connection that is refused at once. -/
def refused : List ConnectAct :=
  [.enter, .connectF (.fail (.other 111)), .test, .arm 100, .register 0x7f5500001000#64 none,
    .leaveLoop, .settle (some (.other 111)), .cancelTimer, .check, .query none]

theorem answers_refused : Always (step ⟨5, 5000⟩) Answers init refused := by
  apply (answers_along_iff ⟨5, 5000⟩ start_init _).mpr
  iterate 2 refine along_cons trivial rfl ?_
  refine along_cons (.inr (.inl ⟨rfl, by decide⟩)) rfl ?_
  iterate 5 refine along_cons trivial rfl ?_
  refine along_cons nofun rfl ?_
  exact along_cons (fun absent => nomatch absent) rfl trivial

/-- With the connection in progress, the call returns 0. -/
theorem answers_in_progress : ∃ w, exec (step ⟨5, 5000⟩) init
    [.enter, .connectF (.fail EINPROGRESS), .test] = some w ∧
      w.ret = some 0 ∧ w.writable = false ∧ ¬ Answers w := by
  refine ⟨_, rfl, rfl, rfl, fun answers => ?_⟩
  rcases (answers rfl).zero rfl with done | connected
  · cases done
  · cases connected.1

end Connecting

end Sylar
