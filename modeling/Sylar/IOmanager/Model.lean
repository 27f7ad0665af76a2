import Mathlib.Data.List.AList
import Sylar.Lib.Epoll

/-!
# The event table of the I/O manager

`IOmanager` keeps one `fdContext` for each descriptor it watches, with one
callback for each direction, the mask `events_now` and the counter
`m_number_event`, next to the interest set of its epoll instance. The context's
address is the user data by which the kernel reports the descriptor.

Each function takes the error with which the kernel refuses its `epoll_ctl`
call, if it does, and returns the state and a `Reply`.
-/

namespace Sylar

open Epoll

/-- `IOmanager::Event`. Callers can cast any combination of the bits to it. -/
abbrev Event := BitVec 32

namespace Event

def NONE : Event := 0x0#32
def READ : Event := 0x1#32
def WRITE : Event := 0x4#32

end Event

/-- The directions a descriptor can be waited on for. -/
inductive Direction where
  | read
  | write
  deriving DecidableEq

namespace Direction

/-- The event of a direction. -/
def event : Direction → Event
  | read => Event.READ
  | write => Event.WRITE

/-- The opposite direction. -/
def other : Direction → Direction
  | read => write
  | write => read

theorem event_ne_none (d : Direction) : d.event ≠ Event.NONE := by
  cases d <;> decide

theorem event_and_other (d : Direction) : d.event &&& d.other.event = 0#32 := by
  cases d <;> decide

end Direction

/-- The exceptions the functions let out: `std::invalid_argument` and
`std::bad_function_call`. -/
inductive Thrown where
  | invalidArgument
  | badFunctionCall

/-- `fdContext::EventContext`. `scheduler` tells whether the pointer is set; the
only value written to it is the manager of the context. -/
structure EventContext (Cb : Type) where
  scheduler : Bool
  mCb : Option Cb
  mFd : Int32

/-- `IOmanager::fdContext`, with its address. -/
structure FdContext (Cb : Type) where
  read : EventContext Cb
  write : EventContext Cb
  eventsNow : Event
  flag : Bool
  addr : BitVec 64

variable {Cb : Type}

namespace FdContext

/-- `new fdContext` at an address. -/
def new (addr : BitVec 64) : FdContext Cb :=
  ⟨⟨false, none, 0⟩, ⟨false, none, 0⟩, Event.NONE, false, addr⟩

/-- `fdContext::reset(fd, cb, event, th)`. -/
def reset (c : FdContext Cb) (fd : Int32) (cb : Option Cb) (event : Event) : FdContext Cb :=
  if event ≠ Event.READ ∧ event ≠ Event.WRITE then c
  else if event = Event.READ then { c with read := ⟨true, cb, fd⟩ }
  else { c with write := ⟨true, cb, fd⟩ }

/-- `fdContext::GetEvent`. -/
def getEvent (c : FdContext Cb) (event : Event) : Except Thrown (EventContext Cb) :=
  if event = Event.READ then .ok c.read
  else if event = Event.WRITE then .ok c.write
  else .error .invalidArgument

/-- The member for a direction. -/
def waiter (c : FdContext Cb) : Direction → EventContext Cb
  | .read => c.read
  | .write => c.write

/-- `fdContext::triggerEvent`: the callbacks it passes to `schedule`. -/
def triggerEvent (c : FdContext Cb) (event : Event) : Except Thrown (List Cb) :=
  match c.getEvent event with
  | .error e => .error e
  | .ok ctx => if c.eventsNow = Event.NONE then .ok [] else .ok ctx.mCb.toList

@[simp] theorem addr_reset (c : FdContext Cb) (fd : Int32) (cb : Option Cb) (event : Event) :
    (c.reset fd cb event).addr = c.addr := by
  unfold reset
  split
  · rfl
  · split <;> rfl

@[simp] theorem eventsNow_reset (c : FdContext Cb) (fd : Int32) (cb : Option Cb) (event : Event) :
    (c.reset fd cb event).eventsNow = c.eventsNow := by
  unfold reset
  split
  · rfl
  · split <;> rfl

end FdContext

/-- The manager. `epoll` is the interest set of `m_epfd`. -/
structure IOmanager (Cb : Type) where
  mTickleFds : Int32 × Int32
  mNumberEvent : UInt64
  mEvents : AList fun _ : Int32 => FdContext Cb
  epoll : InterestSet Int32

/-- What a call hands back: its result or exception, the error of its
`epoll_ctl` call, and the callback it has called. -/
structure Reply (Cb : Type) where
  ret : Except Thrown Bool
  errno : Option Errno
  called : Option Cb

namespace IOmanager

/-- The constructor, with the ends of the pipe. It assigns `data.fd` only, so
the other half of the data is what was on the stack. -/
def init (tickleFds : Int32 × Int32) (stack : BitVec 64) : IOmanager Cb :=
  { mTickleFds := tickleFds
    mNumberEvent := 0
    mEvents := ∅
    epoll := Function.update (fun _ => none) tickleFds.1
      (some ⟨EPOLLIN ||| EPOLLET, withFd stack tickleFds.1.toBitVec⟩) }

/-- The context `addEvent` writes: the one stored or a new one at `alloc`, with
the mask, the flag and the callback of the call. -/
def addedContext (s : IOmanager Cb) (fd : Int32) (cb : Option Cb) (event : Event) (change : Bool)
    (alloc : BitVec 64) : FdContext Cb :=
  { (s.mEvents.lookup fd).getD (FdContext.new alloc) with
    eventsNow := event, flag := change }.reset fd cb event

/-- The operation `addEvent` asks the kernel for. -/
def addedOp (s : IOmanager Cb) (fd : Int32) : Op :=
  if (s.mEvents.lookup fd).isSome then .mod else .add

/-- `IOmanager::addEvent`. A new context is allocated at `alloc`. -/
def addEvent (s : IOmanager Cb) (fd : Int32) (cb : Option Cb) (event : Event) (change : Bool)
    (alloc : BitVec 64) (refuse : Option Errno) : IOmanager Cb × Reply Cb :=
  if event = Event.NONE ∧ event ≠ Event.READ ∧ event ≠ Event.WRITE then
    (s, ⟨.ok false, none, none⟩)
  else
    let op := s.addedOp fd
    let ctx := s.addedContext fd cb event change alloc
    let s := { s with mEvents := s.mEvents.insert fd ctx }
    -- `data.fd` is overwritten by `data.ptr`; the lock is released here
    match ctl s.epoll op fd ⟨event ||| EPOLLET, ctx.addr⟩ refuse with
    | .error err => (s, ⟨.ok false, some err, none⟩)
    | .ok epoll =>
      let s := { s with epoll := epoll, mNumberEvent := s.mNumberEvent + 1 }
      match ctx.getEvent event with
      | .error e => (s, ⟨.error e, none, none⟩)
      | .ok _ => (s, ⟨.ok true, none, none⟩)

/-- `IOmanager::delEvent`. With `activate` it calls the callback of the
direction, which throws when it is empty. -/
def delEvent (s : IOmanager Cb) (fd : Int32) (event : Event) (activate : Bool)
    (refuse : Option Errno) : IOmanager Cb × Reply Cb :=
  match s.mEvents.lookup fd with
  | none => (s, ⟨.ok false, none, none⟩)
  | some ctx =>
    let s := { s with mNumberEvent := s.mNumberEvent - 1 }
    match ctl s.epoll .del fd ⟨ctx.eventsNow, ctx.addr⟩ refuse with
    | .error err => (s, ⟨.ok false, some err, none⟩)
    | .ok epoll =>
      let s := { s with epoll := epoll }
      let erased := { s with mEvents := s.mEvents.erase fd }
      if activate ∧ (event = Event.READ ∨ event = Event.WRITE) then
        match (if event = Event.READ then ctx.read else ctx.write).mCb with
        | none => (s, ⟨.error .badFunctionCall, none, none⟩)
        | some cb => (erased, ⟨.ok true, none, some cb⟩)
      else (erased, ⟨.ok true, none, none⟩)

/-- `IOmanager::cancel`. -/
def cancel (s : IOmanager Cb) (fd : Int32) (refuse : Option Errno) : IOmanager Cb × Reply Cb :=
  match s.mEvents.lookup fd with
  | none => (s, ⟨.ok false, none, none⟩)
  | some ctx =>
    let s := { s with mEvents := s.mEvents.erase fd }
    match ctl s.epoll .del fd ⟨ctx.eventsNow, withFd ctx.addr fd.toBitVec⟩ refuse with
    | .error err => (s, ⟨.ok false, some err, none⟩)
    | .ok epoll => ({ s with epoll := epoll }, ⟨.ok true, none, none⟩)

/-- `IOmanager::changerEvent`. Here `data.ptr` is assigned first and `data.fd`
after it. -/
def changerEvent (s : IOmanager Cb) (fd : Int32) (event : Event) (refuse : Option Errno) :
    IOmanager Cb × Reply Cb :=
  match s.mEvents.lookup fd with
  | none => (s, ⟨.ok false, none, none⟩)
  | some ctx =>
    let s := { s with mEvents := s.mEvents.insert fd { ctx with eventsNow := event } }
    match ctl s.epoll .mod fd ⟨event ||| EPOLLET, withFd ctx.addr fd.toBitVec⟩ refuse with
    | .error err => (s, ⟨.ok false, some err, none⟩)
    | .ok epoll => ({ s with epoll := epoll }, ⟨.ok true, none, none⟩)

/-- `IOmanager::GetFdEvent`. -/
def getFdEvent (s : IOmanager Cb) (fd : Int32) : Event :=
  match s.mEvents.lookup fd with
  | none => Event.NONE
  | some ctx => ctx.eventsNow

/-! ## Readiness reports -/

/-- The context that a pointer points to. -/
def contextAt (s : IOmanager Cb) (ptr : BitVec 64) : Option (Int32 × FdContext Cb) :=
  (s.mEvents.entries.find? fun entry => entry.2.addr == ptr).map fun entry => (entry.1, entry.2)

/-- Where `idle` sends a report. -/
inductive Target (Cb : Type) where
  | tickle
  | context (fd : Int32) (ctx : FdContext Cb)
  | dangling

/-- The branch of `idle` on the data of a report. -/
def target (s : IOmanager Cb) (data : BitVec 64) : Target Cb :=
  if fdOf data = s.mTickleFds.1.toBitVec then .tickle
  else match s.contextAt data with
    | some (fd, ctx) => .context fd ctx
    | none => .dangling

/-- The directions `idle` finds in a report for a context. -/
def realEvents (ctx : FdContext Cb) (events : BitVec 32) : Event :=
  let events := if events &&& (EPOLLERR ||| EPOLLHUP) ≠ 0#32 then
      events ||| ((EPOLLIN ||| EPOLLOUT) &&& ctx.eventsNow)
    else events
  (if events &&& EPOLLIN ≠ 0#32 then Event.READ else 0#32) |||
    (if events &&& EPOLLOUT ≠ 0#32 then Event.WRITE else 0#32)

/-- One direction of a report: trigger it and count it down. -/
def fire (s : IOmanager Cb) (ctx : FdContext Cb) (real event : Event) : IOmanager Cb × List Cb :=
  if real &&& event = 0#32 then (s, [])
  else ({ s with mNumberEvent := s.mNumberEvent - 1 },
    match ctx.triggerEvent event with
    | .ok cbs => cbs
    | .error _ => [])

/-- A report for a context. -/
def handle (s : IOmanager Cb) (ctx : FdContext Cb) (events : BitVec 32) :
    IOmanager Cb × List Cb :=
  let real := realEvents ctx events
  -- the comparison binds first, so the mask is met with its truth value
  if ctx.eventsNow &&& (if real = Event.NONE then 1#32 else 0#32) ≠ 0#32 then (s, [])
  else
    let (s, reads) := s.fire ctx real Event.READ
    let (s, writes) := s.fire ctx real Event.WRITE
    (s, reads ++ writes)

/-- The body of the loop of `idle` over the reports: the callbacks it passes to
`schedule`. `none` is a pointer to no context. -/
def report (s : IOmanager Cb) (events : BitVec 32) (data : BitVec 64) :
    Option (IOmanager Cb × List Cb) :=
  match s.target data with
  | .tickle => some (s, [])
  | .context _ ctx => some (s.handle ctx events)
  | .dangling => none

/-! ## Runs -/

end IOmanager

/-- The calls of the public functions. A new context is allocated at `alloc`. -/
inductive EventCall (Cb : Type) where
  | addEvent (fd : Int32) (cb : Option Cb) (event : Event) (change : Bool) (alloc : BitVec 64)
  | delEvent (fd : Int32) (event : Event) (activate : Bool)
  | cancel (fd : Int32)
  | changerEvent (fd : Int32) (event : Event)

namespace EventCall

/-- The descriptor of a call. -/
def fd {Cb : Type} : EventCall Cb → Int32
  | .addEvent fd .. | .delEvent fd .. | .cancel fd | .changerEvent fd .. => fd

/-- The same call with other callbacks. -/
def map {Cb Cb' : Type} (f : Cb → Cb') : EventCall Cb → EventCall Cb'
  | .addEvent fd cb event change alloc => .addEvent fd (cb.map f) event change alloc
  | .delEvent fd event activate => .delEvent fd event activate
  | .cancel fd => .cancel fd
  | .changerEvent fd event => .changerEvent fd event

end EventCall

/-- The steps: a call, with the error the kernel refuses its request with, and
a report of `events` for a registered descriptor. -/
inductive IOStep (Cb : Type) where
  | call (c : EventCall Cb) (refuse : Option Errno)
  | report (fd : Int32) (events : BitVec 32)

namespace IOmanager

/-- What a call does. -/
def apply (s : IOmanager Cb) (c : EventCall Cb) (refuse : Option Errno) : IOmanager Cb × Reply Cb :=
  match c with
  | .addEvent fd cb event change alloc => s.addEvent fd cb event change alloc refuse
  | .delEvent fd event activate => s.delEvent fd event activate refuse
  | .cancel fd => s.cancel fd refuse
  | .changerEvent fd event => s.changerEvent fd event refuse

/-- The allocator hands out an address where no context lives. -/
def enabled (s : IOmanager Cb) : EventCall Cb → Bool
  | .addEvent _ _ _ _ alloc => (s.contextAt alloc).isNone
  | _ => true

/-- One step. A report carries the data stored for its descriptor. -/
def step (s : IOmanager Cb) : IOStep Cb → Option (IOmanager Cb)
  | .call c refuse => if s.enabled c then some (s.apply c refuse).1 else none
  | .report fd events =>
    (s.epoll fd).bind fun entry => (s.report events entry.data).map Prod.fst

end IOmanager

end Sylar
