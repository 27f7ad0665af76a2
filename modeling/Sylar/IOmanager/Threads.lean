import Sylar.Lib.Threads
import Sylar.IOmanager.Effects

/-!
# The event table on several threads

The public functions of the manager as the sections of `schedule_mutex` they are
made of, and the accesses to `m_events` that they make outside it. Most find an
iterator in one section and use it in a later one. An iterator is a descriptor
with the number of entries that the descriptor had had when it was found.
-/

namespace Sylar

open Epoll

/-- The manager. Beside it: how many entries each descriptor has had, and whether
an iterator was used that denoted no entry, or a null context read. -/
structure EventTable (Cb : Type) where
  mgr : IOmanager Cb
  epoch : Int32 → ℕ
  broken : Bool

/-- The operations. A new context is allocated at `alloc`. -/
inductive EventOp (Cb : Type) where
  | addEvent (fd : Int32) (cb : Option Cb) (event : Event) (change : Bool) (alloc : BitVec 64)
  | delEvent (fd : Int32) (event : Event) (activate : Bool)
  | cancel (fd : Int32)
  | changerEvent (fd : Int32) (event : Event)
  | getFdEvent (fd : Int32)
  | cancelAllEvent

/-- What an operation that has found an iterator uses it for. -/
inductive Use where
  | del (event : Event) (activate : Bool)
  | cancel
  | change (event : Event)
  | get

/-- Where a thread is: in `addEvent` before its section, its `epoll_ctl` or its last
access to `m_events[fd]`; in a function that finds an iterator, before it does and
before it uses it; or in `cancelAllEvent`, with the iterator of its loop: before
`begin()`, before it reads the entry, before the two sections of the inner
`delEvent`, before it advances, or before `clear()`. -/
inductive EventPc (Cb : Type) where
  | add (fd : Int32) (cb : Option Cb) (event : Event) (change : Bool) (alloc : BitVec 64)
  | request (fd : Int32) (op : Op) (event : Event) (addr : BitVec 64)
  | read (fd : Int32)
  | find (fd : Int32) (use : Use)
  | use (fd : Int32) (epoch : ℕ) (use : Use)
  | begin
  | walk (fd : Int32) (epoch : ℕ)
  | findAll (fd : Int32) (epoch : ℕ)
  | eraseAll (fd : Int32) (epoch inner : ℕ)
  | advance (fd : Int32) (epoch : ℕ)
  | clear

/-- What a step cannot know: the error with which the kernel refuses its
`epoll_ctl`, and the entry that comes next in the order of the table. -/
structure EventInput where
  refuse : Option Errno
  next : Option Int32

namespace EventTable

variable {Cb : Type}

def init (mgr : IOmanager Cb) : EventTable Cb := ⟨mgr, fun _ => 0, false⟩

/-- Whether an iterator denotes an entry. -/
def present (s : EventTable Cb) (fd : Int32) (epoch : ℕ) : Bool :=
  (s.mgr.mEvents.lookup fd).isSome && s.epoch fd == epoch

/-- The first step of an operation. -/
def begins : EventOp Cb → EventPc Cb
  | .addEvent fd cb event change alloc => .add fd cb event change alloc
  | .delEvent fd event activate => .find fd (.del event activate)
  | .cancel fd => .find fd .cancel
  | .changerEvent fd event => .find fd (.change event)
  | .getFdEvent fd => .find fd .get
  | .cancelAllEvent => .begin

/-- The use of an iterator that denotes an entry. `cancel` erases the entry and
goes on to read the mask and the context through the iterator. -/
def apply (s : EventTable Cb) (fd : Int32) (refuse : Option Errno) : Use → EventTable Cb
  | .del event activate => { s with mgr := (s.mgr.delEvent fd event activate refuse).1 }
  | .cancel => { s with mgr := (s.mgr.cancel fd refuse).1, broken := true }
  | .change event => { s with mgr := (s.mgr.changerEvent fd event refuse).1 }
  | .get => s

/-- The loop of `cancelAllEvent` at the next entry, or at its end. -/
def loops (s : EventTable Cb) : Option Int32 → Option (EventTable Cb × Option (EventPc Cb))
  | none => some (s, some .clear)
  | some fd =>
    if (s.mgr.mEvents.lookup fd).isSome then some (s, some (.walk fd (s.epoch fd))) else none

/-- One step: a section, or an access outside the lock. -/
def move (s : EventTable Cb) (pc : EventPc Cb) (input : EventInput) :
    Option (EventTable Cb × Option (EventPc Cb)) :=
  match pc with
  | .add fd cb event change alloc =>
    if event = Event.NONE ∧ event ≠ Event.READ ∧ event ≠ Event.WRITE then some (s, none)
    else
      let ctx := s.mgr.addedContext fd cb event change alloc
      some ({ s with
        mgr := { s.mgr with mEvents := s.mgr.mEvents.insert fd ctx }
        epoch := if (s.mgr.mEvents.lookup fd).isSome then s.epoch
          else Function.update s.epoch fd (s.epoch fd + 1) },
        some (.request fd (s.mgr.addedOp fd) event ctx.addr))
  | .request fd op event addr =>
    match ctl s.mgr.epoll op fd ⟨event ||| EPOLLET, addr⟩ input.refuse with
    | .error _ => some (s, none)
    | .ok epoll =>
      some ({ s with mgr := { s.mgr with
        epoll := epoll, mNumberEvent := s.mgr.mNumberEvent + 1 } }, some (.read fd))
  -- without an entry, `m_events[fd]` makes one of a null pointer
  | .read fd =>
    some (if (s.mgr.mEvents.lookup fd).isSome then s else { s with broken := true }, none)
  | .find fd use =>
    some (s, if (s.mgr.mEvents.lookup fd).isSome then some (.use fd (s.epoch fd) use) else none)
  | .use fd epoch use =>
    some (if s.present fd epoch then s.apply fd input.refuse use else { s with broken := true },
      none)
  | .begin =>
    if input.next.isSome || s.mgr.mEvents.entries.isEmpty then s.loops input.next else none
  | .walk fd epoch =>
    if s.present fd epoch then some (s, some (.findAll fd epoch))
    else some ({ s with broken := true }, none)
  | .findAll fd epoch =>
    some (s, if (s.mgr.mEvents.lookup fd).isSome then some (.eraseAll fd epoch (s.epoch fd))
      else none)
  | .eraseAll fd epoch inner =>
    if s.present fd inner then
      some (s.apply fd input.refuse (.del Event.NONE false),
        match (s.mgr.delEvent fd Event.NONE false input.refuse).2.ret with
        | .ok true => some (.advance fd epoch)
        | _ => none)
    else some ({ s with broken := true }, none)
  | .advance fd epoch =>
    if s.present fd epoch then s.loops input.next
    else some ({ s with broken := true }, none)
  | .clear => some ({ s with mgr := { s.mgr with mEvents := ∅, mNumberEvent := 0 } }, none)

/-- An interleaving of operations, step by step. -/
def step : Threads.Pool (EventTable Cb) (EventPc Cb) → Threads.Act (EventOp Cb) EventInput →
    Option (Threads.Pool (EventTable Cb) (EventPc Cb)) :=
  Threads.step begins move

end EventTable

end Sylar
