import Sylar.Lib.Stacks
import Sylar.IOmanager.Threads
import Sylar.Schedule.Idle

/-!
# The lock of the scheduler

The public operations of a `Schedule` or an `IOmanager` as the instructions they
come down to: the acquisitions and releases of `schedule_mutex`, the sections
between them, and the calls of other operations and of callbacks, which stand in
the source where the lock is held or where it is not. A thread executes a stack of
them.

What a callback does is the list of operations it calls, and so is what the
destruction of a copy of it does, when it is the last owner of a `Socket`. Both are
parameters, and so is the outcome of their own branches, which comes with the step.
-/

namespace Sylar

open Epoll

/-- How `schedule_mutex` is acquired. -/
inductive LockMode where
  | shared
  | exclusive
  deriving DecidableEq

/-- The public operations. `destroy` is `~Schedule`. -/
inductive PublicOp (Cb : Type) where
  | schedule (cb : Cb) (threadId : Int)
  | scheduleRange (cbs : List Cb)
  | stop
  | run
  | destroy
  | addEvent (fd : Int32) (cb : Option Cb) (event : Event) (change : Bool) (alloc : BitVec 64)
  | delEvent (fd : Int32) (event : Event) (activate : Bool)
  | cancel (fd : Int32)
  | changerEvent (fd : Int32) (event : Event)

/-- What the callbacks of a program call: when they are called, and when a copy of one is
destroyed with what it has captured. The number is the outcome of their own branches, as
whether the copy is the last to own what it has captured. -/
structure Program (Cb : Type) where
  performs : Cb → ℕ → List (PublicOp Cb)
  releases : Cb → ℕ → List (PublicOp Cb)

/-- The instructions: the lock; calls of operations and callbacks, and the destruction of
copies of callbacks; the sections of `schedule` and `stop`; those of `run()`, with the
place of its coroutine and its local variable `task`, and of `idle`; and those of the
functions on events. -/
inductive Instr (Cb : Type) where
  | lock (mode : LockMode)
  | unlock
  | call (op : PublicOp Cb)
  | invoke (cb : Cb)
  | drop (cb : Cb)
  | place (cb : Cb) (threadId : Int)
  | placeAll (cbs : List Cb)
  | setStopping
  | loop (f : Fiber)
  | scan (f : Fiber)
  | complete
  | exitTest (f : Fiber) (task : Option Cb)
  | resume (f : Fiber) (task : Option Cb)
  | round (task : Option Cb)
  | idleTest (task : Option Cb)
  | addEntry (fd : Int32) (cb : Option Cb) (event : Event) (change : Bool) (alloc : BitVec 64)
  | request (fd : Int32) (op : Op) (event : Event) (addr : BitVec 64)
  | find (fd : Int32) (use : Use)
  | use (fd : Int32) (use : Use)
  | erase (fd : Int32)

/-- The object, with the threads that hold its lock. -/
structure Locked (Cb : Type) where
  sched : Schedule Cb
  mgr : IOmanager Cb
  writer : Bool
  readers : ℕ

/-- What a step cannot know: the branches of a callback, the thread id of a worker,
the callbacks that a round of `idle` collects from the timers and triggers, and the
error with which the kernel refuses an `epoll_ctl`. -/
structure LockInput (Cb : Type) where
  choice : ℕ
  tid : Int
  batch : List Cb
  fired : List Cb
  refuse : Option Errno

namespace Locked

variable {Cb : Type}

def init (mgr : IOmanager Cb) : Locked Cb := ⟨Schedule.init, mgr, false, 0⟩

/-- The lock is given when nobody holds it, or for shared use by others than a
writer. -/
def acquire (s : Locked Cb) : LockMode → Option (Locked Cb)
  | .shared => if s.writer then none else some { s with readers := s.readers + 1 }
  | .exclusive =>
    if s.writer || s.readers != 0 then none else some { s with writer := true }

def release (s : Locked Cb) : Option LockMode → Locked Cb
  | none => s
  | some .shared => { s with readers := s.readers - 1 }
  | some .exclusive => { s with writer := false }

/-- The copies of callbacks that are destroyed, the empty ones left out. -/
def drops (cbs : List (Option Cb)) : List (Instr Cb) := cbs.reduceOption.map .drop

/-- The callback of a context for an event. -/
def stored (ctx : FdContext Cb) (event : Event) : Option Cb :=
  match ctx.getEvent event with
  | .ok c => c.mCb
  | .error _ => none

/-- The callback at a descriptor for an event. -/
def storedAt (s : Locked Cb) (fd : Int32) (event : Event) : Option Cb :=
  (s.mgr.mEvents.lookup fd).bind fun ctx => stored ctx event

/-- The constructor of the coroutine in `run()` enters the body of `idle`. -/
def starts (kind : IdleKind) : List (Instr Cb) :=
  match kind with
  | .schedule => [.lock .shared, .idleTest none]
  | .ioManager => [.round none]

/-- What an operation stands for. `schedule(cb)` reads `m_stopping` before it locks,
and `addEvent` refuses the event `NONE`; the parameter of either is destroyed when it
returns. The `stop` of `Schedule` keeps the lock while it runs. -/
def body (kind : IdleKind) (s : Locked Cb) : PublicOp Cb → List (Instr Cb)
  | .schedule cb threadId =>
    (if s.sched.mStopping then [] else [.lock .exclusive, .place cb threadId, .unlock]) ++
      [.drop cb]
  | .scheduleRange cbs => [.lock .exclusive, .placeAll cbs, .unlock]
  | .stop => match kind with
    | .schedule => [.lock .exclusive, .setStopping, .call .run, .unlock]
    | .ioManager => [.lock .exclusive, .setStopping, .unlock, .call .run]
  | .run => starts kind
  | .destroy => [.setStopping]
  | .addEvent fd cb event change alloc =>
    (if event = Event.NONE ∧ event ≠ Event.READ ∧ event ≠ Event.WRITE then []
      else [.lock .exclusive, .addEntry fd cb event change alloc]) ++ drops [cb]
  | .delEvent fd event activate => [.lock .shared, .find fd (.del event activate)]
  | .cancel fd => [.lock .shared, .find fd .cancel]
  | .changerEvent fd event => [.lock .shared, .find fd (.change event)]

/-- `run()` after a task or without one: the exit test. -/
def testing (f : Fiber) (task : Option Cb) : List (Instr Cb) :=
  [.lock .shared, .exitTest f task]

/-- Back in `run()` from its coroutine: `task` is destroyed at the end of the loop. -/
def again (f : Fiber) (task : Option Cb) : List (Instr Cb) := drops [task] ++ [.loop f]

/-- The test in the loop of `idle`: on with the loop, or back to `run()`. -/
def afterTest (f : Fiber) (task : Option Cb) : List (Instr Cb) :=
  match f with
  | .test => [.lock .shared, .idleTest task]
  | .round => [.round task]
  | f => again f task

/-- The second section of a function on events, at an entry. An empty callback that
`delEvent` is to activate throws. The context that `cancel` erases is destroyed with its
last owner, the local variable `fd_ctx`, before the lock is released. -/
def useEntry (s : Locked Cb) (fd : Int32) (ctx : FdContext Cb) (refuse : Option Errno) :
    Use → Locked Cb × Option (List (Instr Cb))
  | .del event activate =>
    let s := { s with mgr := { s.mgr with mNumberEvent := s.mgr.mNumberEvent - 1 } }
    match ctl s.mgr.epoll .del fd ⟨ctx.eventsNow, ctx.addr⟩ refuse with
    | .error _ => (s, some [.unlock])
    | .ok epoll =>
      let s := { s with mgr := { s.mgr with epoll := epoll } }
      if activate ∧ (event = Event.READ ∨ event = Event.WRITE) then
        match (if event = Event.READ then ctx.read else ctx.write).mCb with
        | none => (s, none)
        | some cb => (s, some [.invoke cb, .erase fd, .unlock])
      else (s, some [.erase fd, .unlock])
  | .cancel =>
    ({ s with mgr := (s.mgr.cancel fd refuse).1 },
      some (drops [ctx.write.mCb, ctx.read.mCb] ++ [.unlock]))
  | .change event =>
    ({ s with mgr := (s.mgr.changerEvent fd event refuse).1 }, some [.unlock])
  | .get => (s, some [.unlock])

/-- One instruction of a thread that holds the lock in a mode, or not: the state,
what the thread then holds, and what the instruction stands for, or nothing when an
exception leaves the thread. -/
def exec (kind : IdleKind) (program : Program Cb) (s : Locked Cb) (held : Option LockMode)
    (x : Instr Cb) (input : LockInput Cb) :
    Option (Locked Cb × Option LockMode × Option (List (Instr Cb))) :=
  match x with
  -- a thread that holds the lock is not given it again
  | .lock mode =>
    if held.isSome then none else (s.acquire mode).map fun s => (s, some mode, some [])
  | .unlock => some (s.release held, none, some [])
  | .call op => some (s, held, some (s.body kind op))
  | .invoke cb => some (s, held, some ((program.performs cb input.choice).map .call))
  | .drop cb => some (s, held, some ((program.releases cb input.choice).map .call))
  -- `emplace_back` makes a slot of a copy of its own, and destroys that copy
  | .place cb threadId =>
    some ({ s with sched := s.sched.schedule (some cb) threadId }, held,
      some (drops (if s.sched.mTask.all fun it => it.mCb.isSome then [some cb] else [])))
  | .placeAll cbs =>
    some ({ s with sched := s.sched.scheduleRange (cbs.map some) }, held,
      some (drops (Schedule.fillFree s.sched.mTask (cbs.map some)).2))
  | .setStopping => some ({ s with sched := { s.sched with mStopping := true } }, held, some [])
  | .loop f => some (s, held, some [.lock .exclusive, .scan f])
  | .scan f =>
    let r := s.sched.dequeue input.tid
    some ({ s with sched := r.1 }, held, some (match r.2 with
      -- the copy in the slot is destroyed, the one in `task` is called
      | some cb =>
        [.drop cb, .unlock, .invoke cb, .lock .exclusive, .complete, .unlock] ++ testing f (some cb)
      | none => .unlock :: testing f none))
  | .complete => some ({ s with sched := s.sched.complete }, held, some [])
  | .exitTest f task =>
    some (s, held,
      some (.unlock :: if s.sched.leaves then drops [task] else [.resume f task]))
  | .resume f task => match f with
    | .yielded => some (s, held, some [.lock .shared, .idleTest task])
    | .leaving => some (s, held, some (again .returned task))
    | _ => none
  -- `obs` is cleared; `triggerEvent` has two copies of its own beside the argument
  | .round task =>
    some (s, held, some ((if input.batch.isEmpty then [] else [.call (.scheduleRange input.batch)])
      ++ drops (input.batch.map some)
      ++ input.fired.flatMap (fun cb => [.call (.schedule cb (-1)), .drop cb, .drop cb])
      ++ again .yielded task))
  | .idleTest task => some (s, held, some (.unlock :: afterTest (kind.test s.sched) task))
  -- `reset` destroys the callback that is overwritten, and then its parameter
  | .addEntry fd cb event change alloc =>
    let ctx := s.mgr.addedContext fd cb event change alloc
    some ({ s with mgr := { s.mgr with mEvents := s.mgr.mEvents.insert fd ctx } }, held,
      some (drops [s.storedAt fd event, cb] ++
        [.unlock, .request fd (s.mgr.addedOp fd) event ctx.addr]))
  -- the local variable `events_new` is a copy of what is stored
  | .request fd op event addr =>
    match ctl s.mgr.epoll op fd ⟨event ||| EPOLLET, addr⟩ input.refuse with
    | .error _ => some (s, held, some [])
    | .ok epoll =>
      some ({ s with mgr := { s.mgr with
        epoll := epoll, mNumberEvent := s.mgr.mNumberEvent + 1 } }, held,
        some (drops [s.storedAt fd event]))
  | .find fd use =>
    some (s, held, some (if (s.mgr.mEvents.lookup fd).isSome
      then [.unlock, .lock .exclusive, .use fd use] else [.unlock]))
  -- an iterator whose entry is gone says nothing of what follows
  | .use fd use => (s.mgr.mEvents.lookup fd).map fun ctx =>
    let r := s.useEntry fd ctx input.refuse use
    match r.2 with
    | some xs => (r.1, held, some xs)
    | none => (r.1.release held, none, none)
  -- the context goes with its entry
  | .erase fd =>
    some ({ s with mgr := { s.mgr with mEvents := s.mgr.mEvents.erase fd } }, held,
      some (drops [s.storedAt fd Event.WRITE, s.storedAt fd Event.READ]))

/-- An operation is called by a thread that does not hold the lock. -/
def begins (op : PublicOp Cb) : Stacks.Frame (Option LockMode) (Instr Cb) := ⟨none, [.call op]⟩

/-- An interleaving of operations, instruction by instruction. -/
def step (kind : IdleKind) (program : Program Cb) :
    Threads.Pool (Locked Cb) (Stacks.Frame (Option LockMode) (Instr Cb)) →
      Threads.Act (PublicOp Cb) (LockInput Cb) →
        Option (Threads.Pool (Locked Cb) (Stacks.Frame (Option LockMode) (Instr Cb))) :=
  Threads.step begins (Stacks.move (exec kind program))

end Locked

end Sylar
