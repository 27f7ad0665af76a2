import Sylar.Fd.Model
import Sylar.IOmanager.Model
import Sylar.Schedule.Model
import Sylar.Timer.Model

/-!
# A hooked I/O call

`do_io` of `hook.cpp` makes the system call, and on `EAGAIN` arms a conditional
timer, registers the descriptor with a callback that clears its local variable
`flag`, and runs passes of `idle` until the flag is cleared.

`World` is one such call inside the runtime that serves it: the event table, the
timers and the task slots are the objects of the other modules; the idle loops
and the workers of any number of threads are the steps on them, with what stands
between their sections (callbacks collected, triggered or being run) in lists.
-/

namespace Sylar

open Epoll

/-! ## The call and its runtime -/

/-- The callbacks of the run: the one that clears `flag`, the one of the
conditional timer, and those of everybody else. -/
inductive Task where
  | ready
  | timeout
  | other (k : ℕ)
  deriving DecidableEq

/-- The conditions of conditional timers: the `tinfo` of the call, or others. -/
inductive Cond where
  | tinfo
  | other (k : ℕ)
  deriving DecidableEq

/-- What a slot of the scheduler holds. -/
abbrev Job := TimerFn Task Cond

/-- A result of the system call: the value returned, or -1 with `errno`. -/
inductive IoResult where
  | done (n : ℕ)
  | fail (e : Errno)
  deriving DecidableEq

/-- The results after which the call does not have to wait or to try again. -/
def IoResult.settles : IoResult → Bool
  | .fail .EAGAIN | .fail .EINTR => false
  | _ => true

/-- Where the call is in `do_io`. -/
inductive IoPc where
  | enter
  | direct
  | firstCall
  | arm
  | register
  | loopHead
  | waiting
  | retry
  | cleanup
  | cancelTimer
  | returned
  deriving DecidableEq

/-- The arguments of `do_io` that its body looks at. -/
structure IoCall where
  fd : Int32
  event : Direction
  timeoutSo : Int32

/-- One call of `do_io` in its runtime. `obs` are the batches that idle loops
have collected and not yet scheduled; `copies` the callbacks in calls of
`schedule(cb)` by `triggerEvent`, with whether the test of `m_stopping` is behind
them; `running` the jobs of the workers, with whether the callback has returned.
The local variables of `do_io` follow. `first` is the first result that settles
the call, and `timedOut` whether the timeout callback took effect before there
was one. -/
structure World where
  hookEnable : Bool
  ctx : Option FdCtx
  io : IOmanager Task
  mgr : TimerManager Job
  sched : Schedule Job
  obs : List (List (Option Job))
  copies : List (Task × Bool)
  running : List (Job × Bool)
  pc : IoPc
  n : Int
  errno : Errno
  flag : Bool
  cancelled : Bool
  toMs : UInt64
  condtionTimer : Option ℕ
  first : Option IoResult
  timedOut : Bool

namespace World

/-- A world without anything but a call on a descriptor with the context `ctx`. -/
def init (ctx : FdCtx) (tickleFds : Int32 × Int32) (stack : BitVec 64) : World where
  hookEnable := true
  ctx := some ctx
  io := IOmanager.init tickleFds stack
  mgr := TimerManager.empty
  sched := Schedule.init
  obs := []
  copies := []
  running := []
  pc := .enter
  n := 0
  errno := .other 0
  flag := true
  cancelled := false
  toMs := 0
  condtionTimer := none
  first := none
  timedOut := false

variable (call : IoCall) (w : World)

/-- The result that `n` and `errno` stand for. -/
def result : IoResult := if w.n = -1 then .fail w.errno else .done w.n.toNat

/-- The checks at the head of `do_io`. -/
def enter : World :=
  match w.hookEnable, w.ctx with
  | false, _ | _, none => { w with pc := .direct }
  | true, some ctx =>
    if ctx.mIsClose then { w with n := -1, errno := .EBADF, pc := .returned }
    else if !ctx.mIsScoket || ctx.mUserNonblock then { w with pc := .direct }
    else
      let ctx := ctx.setTimeout call.timeoutSo 1000
      { w with ctx := some ctx, toMs := ctx.getTimeout call.timeoutSo, pc := .firstCall }

/-- `n` and `errno` after a system call. -/
def record (r : IoResult) : World :=
  { w with
    n := match r with
      | .done n => n
      | .fail _ => -1
    errno := match r with
      | .done _ => w.errno
      | .fail e => e
    first := if r.settles then w.first.or (some r) else w.first }

/-- The system call, and the tests that follow it. -/
def syscall (r : IoResult) : Option World :=
  let w' := w.record r
  match w.pc with
  | .direct => some { w' with pc := .returned }
  | .firstCall =>
    if w'.n = -1 ∧ w'.errno = .EINTR then some w'
    else if w'.n = -1 ∧ w'.errno = .EAGAIN then
      some { w' with pc := if w.toMs ≠ -1 then .arm else .returned }
    else some { w' with pc := .returned }
  | .retry => some { w' with pc := .loopHead }
  | _ => none

/-- `iom->addCondtionTimer(to, …, weak_cond)`. -/
def arm (now : UInt64) : World :=
  let (es, t) := w.mgr.addCondtionTimer w.toMs (some .timeout) Cond.tinfo false now
  { w with mgr := w.mgr.edits es, condtionTimer := some t, pc := .register }

/-- The declaration of `flag` and `iom->addEvent(fd, …, event)`. A refused
request overwrites `errno`. -/
def register (alloc : BitVec 64) (refuse : Option Errno) : World :=
  let (io, reply) := w.io.addEvent call.fd (some .ready) call.event.event false alloc refuse
  { w with io := io, flag := true, errno := reply.errno.getD w.errno, pc := .loopHead }

/-- The test of the outer loop, and `flag = true`. -/
def loopHead : World :=
  if w.n = -1 ∧ w.errno = .EAGAIN then { w with flag := true, pc := .waiting }
  else { w with pc := .cleanup }

/-- `iom->delEvent(fd, event)` after the loop, and the tests that follow it. -/
def cleanup (refuse : Option Errno) : World :=
  let (io, reply) := w.io.delEvent call.fd call.event.event false refuse
  let delEventFalg : Bool := match reply.ret with
    | .ok b => b
    | .error _ => false
  { w with
    io := io
    errno := reply.errno.getD w.errno
    pc := if w.n = -1 ∧ delEventFalg = true then .cancelTimer else .returned }

/-- `if(condtionTimer) condtionTimer->cancel()`. -/
def cancelTimer : World :=
  { w with
    mgr := match w.condtionTimer with
      | some t => w.mgr.edits (Timer.cancel w.mgr t).1
      | none => w.mgr
    pc := .returned }

/-! ## Callbacks -/

/-- Which conditions are alive: `tinfo` from its construction to the return. -/
def alive : Cond → Bool
  | .tinfo => match w.pc with
    | .enter | .direct | .returned => false
    | _ => true
  | .other _ => true

/-- The timeout callback, past its own lock of `weak_cond`. -/
def timeout (refuse : Option Errno) : World :=
  let (io, reply) := w.io.delEvent call.fd call.event.event true refuse
  { w with
    io := io
    cancelled := true
    flag := if reply.called = some .ready then false else w.flag
    timedOut := w.timedOut || w.first.isNone }

/-- A callback is run. After the return `flag` is no more, and the write goes to
whatever is on the stack there. -/
def effect (refuse : Option Errno) : Task → World
  | .ready => { w with flag := false }
  | .timeout => if w.alive .tinfo ∧ w.cancelled = false then w.timeout call refuse else w
  | .other _ => w

/-- A job is run: a callback, or `onTimer` with one. -/
def execute (refuse : Option Errno) : Job → World
  | .fn task => w.effect call refuse task
  | .onTimer weakCond cb => match onTimer w.alive weakCond cb with
    | some task => w.effect call refuse task
    | none => w

end World

/-! ## Steps -/

namespace TimerCall

/-- The same call with other callbacks and conditions. -/
def map {C C' W W' : Type} (f : C → C') (g : W → W') : TimerCall C W → TimerCall C' W'
  | .addTimer ms cb recurring now => .addTimer ms (cb.map f) recurring now
  | .addTimerPtr t => .addTimerPtr t
  | .addCondtionTimer ms cb weakCond recurring now =>
    .addCondtionTimer ms (cb.map f) (g weakCond) recurring now
  | .cancel t => .cancel t
  | .refresh t now => .refresh t now
  | .reset t => .reset t
  | .resetGap t gap fromNow now => .resetGap t gap fromNow now
  | .getExpiredCb now clock => .getExpiredCb now clock

/-- Whether a call collects expired timers. -/
def collects {C W : Type} : TimerCall C W → Bool
  | .getExpiredCb _ _ => true
  | _ => false

end TimerCall

/-- The steps. The first group is `do_io` itself, the second the sections of
idle loops (the collection of expired timers, the scheduling of a batch, the
dispatch of a report, the two halves of `schedule(cb)`), the third those of
workers, and the last what other tasks do: call the manager for their own
descriptors and timers, schedule, stop. -/
inductive IoAct where
  | enter
  | syscall (r : IoResult)
  | arm (now : UInt64)
  | register (alloc : BitVec 64) (refuse : Option Errno)
  | loopHead
  | wake
  | cleanup (refuse : Option Errno)
  | cancelTimer
  | expire (now : UInt64) (clock : ℕ → UInt64)
  | flush (i : ℕ)
  | report (fd : Int32) (events : BitVec 32)
  | test (i : ℕ)
  | deliver (i : ℕ)
  | dequeue (tid : Int)
  | execute (i : ℕ) (refuse : Option Errno)
  | complete (i : ℕ)
  | events (c : EventCall ℕ) (refuse : Option Errno)
  | timers (c : TimerCall ℕ ℕ)
  | schedule (k : ℕ) (threadId : Int)
  | setStopping

namespace World

/-- The steps of `do_io`. -/
def ioStep (call : IoCall) (w : World) : IoAct → Option World
  | .enter => if w.pc = .enter then some (w.enter call) else none
  | .syscall r => w.syscall r
  | .arm now => if w.pc = .arm then some (w.arm now) else none
  | .register alloc refuse =>
    if w.pc = .register ∧ (w.io.contextAt alloc).isNone then some (w.register call alloc refuse)
    else none
  | .loopHead => if w.pc = .loopHead then some w.loopHead else none
  | .wake => if w.pc = .waiting ∧ w.flag = false then some { w with pc := .retry } else none
  | .cleanup refuse => if w.pc = .cleanup then some (w.cleanup call refuse) else none
  | .cancelTimer => if w.pc = .cancelTimer then some w.cancelTimer else none
  | _ => none

/-- The steps of idle loops, workers and other tasks. -/
def envStep (call : IoCall) (w : World) : IoAct → Option World
  | .expire now clock =>
    let (es, obs) := w.mgr.getExpiredCb now clock
    some { w with
      mgr := w.mgr.edits es
      obs := if obs.isEmpty then w.obs else w.obs ++ [obs] }
  | .flush i => match w.obs[i]? with
    | some batch => some { w with sched := w.sched.scheduleRange batch, obs := w.obs.eraseIdx i }
    | none => none
  | .report fd events => match w.io.epoll fd with
    | some entry => (w.io.report events entry.data).map fun (io, cbs) =>
      { w with io := io, copies := w.copies ++ cbs.map fun cb => (cb, false) }
    | none => none
  | .test i => match w.copies[i]? with
    | some (task, false) => some { w with
        copies := if w.sched.mStopping then w.copies.eraseIdx i else w.copies.set i (task, true) }
    | _ => none
  | .deliver i => match w.copies[i]? with
    | some (task, true) => some { w with
        sched := w.sched.schedule (some (.fn task)) (-1), copies := w.copies.eraseIdx i }
    | _ => none
  | .dequeue tid => match w.sched.dequeue tid with
    | (sched, some job) => some { w with sched := sched, running := w.running ++ [(job, false)] }
    | (sched, none) => some { w with sched := sched }
  | .execute i refuse => match w.running[i]? with
    | some (job, false) =>
      some { (w.execute call refuse job) with running := w.running.set i (job, true) }
    | _ => none
  | .complete i => match w.running[i]? with
    | some (_, true) => some { w with
        sched := w.sched.complete, running := w.running.eraseIdx i }
    | _ => none
  | .events c refuse =>
    if c.fd ≠ call.fd ∧ w.io.enabled (c.map Task.other) then
      some { w with io := (w.io.apply (c.map Task.other) refuse).1 }
    else none
  | .timers c =>
    if c.collects = false ∧ (c.target = none ∨ c.target ≠ w.condtionTimer) then
      (w.mgr.step (c.map Task.other Cond.other)).map fun mgr => { w with mgr := mgr }
    else none
  | .schedule k threadId =>
    some { w with sched := w.sched.schedule (some (.fn (.other k))) threadId }
  | .setStopping => some { w with sched := { w.sched with mStopping := true } }
  | _ => none

/-- One step: of the call, or of its runtime. -/
def step (call : IoCall) (w : World) (a : IoAct) : Option World :=
  (w.ioStep call a).or (w.envStep call a)

/-! ## A call that waits -/

def readCall : IoCall := ⟨5, .read, SO_RCVTIMEO⟩

def socketCtx : FdCtx := ⟨true, true, false, false, true, 5, -1, -1⟩

/-- A call up to its second system call: the report is passed to the scheduler,
and a worker runs the callback. -/
def waitOnce (r : IoResult) : List IoAct :=
  [.enter, .syscall (.fail .EAGAIN), .arm 100, .register 0x7f5500001000#64 none, .loopHead,
    .report 5 EPOLLIN, .test 0, .deliver 0, .dequeue 7, .execute 0 none, .complete 0, .wake,
    .syscall r, .loopHead]

/-- The same call when its timer expires before the descriptor is ready. -/
def waitTimeout (r : IoResult) : List IoAct :=
  [.enter, .syscall (.fail .EAGAIN), .arm 100, .register 0x7f5500001000#64 none, .loopHead,
    .expire 1100 fun _ => 1100, .flush 0, .dequeue 7, .execute 0 none, .complete 0, .wake,
    .syscall r, .loopHead]

end World

end Sylar
