import Mathlib.Data.List.Basic
import Sylar.Lib.Runs

/-!
# The scheduler

`Schedule` keeps its tasks in a vector of slots. An enqueue reuses the first
slots whose callback is empty and grows the vector for the rest; a worker scans
from the front, takes the first callback it finds and clears its slot.

`Schedule` here is the object, with one function for each section that the code
runs under `schedule_mutex`. `Workers` is a run of it: the calls of
`schedule(cb, threadId)` that are past the test of `m_stopping` but not yet in
their locked section, and the threads inside `run()`. What was accepted, begun
and finished is recorded beside it; accepted callbacks are numbered in the
order of their acceptance, so that two equal callbacks can be told apart.

A worker that fails the exit test resumes its coroutine, which comes back unless it
has returned. `Workers` leaves the coroutines out: it has every run of the code, and
those in which a coroutine that has returned comes back once more.
-/

namespace Sylar

/-- `Schedule::funcAndthread`. An empty `m_cb` marks a slot that can be reused. -/
structure FuncAndthread (α : Type) where
  mCb : Option α
  threadId : Int

variable {α β : Type}

namespace FuncAndthread

/-- `funcAndthread::reset()`. -/
def reset (_ : FuncAndthread α) : FuncAndthread α := ⟨none, -1⟩

/-- `funcAndthread::reset(cb, threadid)`. -/
def resetWith (_ : FuncAndthread α) (cb : Option α) (threadid : Int) : FuncAndthread α :=
  ⟨cb, threadid⟩

/-- The thread condition of the scan, `thread_id = -1 or thread_id == tid`. The
assignment binds weaker than `or`, so it stores the truth value of the whole
disjunction and the condition is that value. -/
def threadTest (it : FuncAndthread α) (tid : Int) : FuncAndthread α × Bool :=
  let value : Int := if (-1 : Int) ≠ 0 ∨ it.threadId = tid then 1 else 0
  ({ it with threadId := value }, decide (value ≠ 0))

@[simp] theorem threadTest_eq (it : FuncAndthread α) (tid : Int) :
    it.threadTest tid = ({ it with threadId := 1 }, true) := rfl

end FuncAndthread

/-- The scheduler object. `tickles` counts the calls of the virtual `tickle()`
that the two `schedule` overloads make. -/
structure Schedule (α : Type) where
  mTask : List (FuncAndthread α)
  taskNumber : Int
  mStopping : Bool
  ideleThreadCout : Int
  tickles : ℕ

namespace Schedule

/-- A scheduler right after its construction. -/
def init : Schedule α := ⟨[], 0, false, 0, 0⟩

/-- The loop of `schedule(cb, threadId)`: the first slot with an empty callback
is reused, otherwise a slot is appended. -/
def placeFirst (cb : Option α) (threadId : Int) :
    List (FuncAndthread α) → List (FuncAndthread α)
  | [] => [⟨cb, threadId⟩]
  | it :: rest =>
    if it.mCb.isSome then it :: placeFirst cb threadId rest
    else it.resetWith cb threadId :: rest

/-- The locked section of `schedule(cb, threadId)`. -/
def schedule (s : Schedule α) (cb : Option α) (threadId : Int) : Schedule α :=
  { s with
    mTask := placeFirst cb threadId s.mTask
    taskNumber := s.taskNumber + 1
    tickles := s.tickles + 1 }

/-- The first loop of `schedule(begin, end)`: free slots take the callbacks in
order and keep their `thread_id`. It returns the callbacks left over. -/
def fillFree : List (FuncAndthread α) → List (Option α) →
    List (FuncAndthread α) × List (Option α)
  | [], cbs => ([], cbs)
  | it :: rest, [] => (it :: rest, [])
  | it :: rest, cb :: cbs =>
    if it.mCb.isSome then
      let (slots, left) := fillFree rest (cb :: cbs)
      (it :: slots, left)
    else
      let (slots, left) := fillFree rest cbs
      ({ it with mCb := cb } :: slots, left)

/-- `schedule(begin, end)`. It returns without a tickle when the first loop has
placed every callback. -/
def scheduleRange (s : Schedule α) (cbs : List (Option α)) : Schedule α :=
  let (slots, left) := fillFree s.mTask cbs
  { s with
    mTask := slots ++ left.map fun cb => ⟨cb, -1⟩
    taskNumber := s.taskNumber + cbs.length
    tickles := if left.isEmpty then s.tickles else s.tickles + 1 }

/-- The scan of `run()` by the thread `tid`: the first task found, and the slots
after it is cleared. -/
def takeFirst (tid : Int) : List (FuncAndthread α) →
    Option (FuncAndthread α) × List (FuncAndthread α)
  | [] => (none, [])
  | it :: rest =>
    if it.mCb.isSome then
      let (tested, hit) := it.threadTest tid
      if hit then (some tested, tested.reset :: rest)
      else
        let (task, slots) := takeFirst tid rest
        (task, tested :: slots)
    else
      let (task, slots) := takeFirst tid rest
      (task, it :: slots)

/-- The first section of `run()`: the callback taken, if there is one. -/
def dequeue (s : Schedule α) (tid : Int) : Schedule α × Option α :=
  let (task, slots) := takeFirst tid s.mTask
  match task.bind FuncAndthread.mCb with
  | some cb => ({ s with mTask := slots, ideleThreadCout := s.ideleThreadCout - 1 }, some cb)
  | none => ({ s with mTask := slots }, none)

/-- The section of `run()` after the callback has returned. -/
def complete (s : Schedule α) : Schedule α := { s with taskNumber := s.taskNumber - 1 }

/-- The exit test of `run()`. -/
def leaves (s : Schedule α) : Bool := s.mStopping && s.taskNumber == 0

end Schedule

/-! ## Callers and workers -/

/-- An accepted callback, with its number in the order of acceptance. -/
structure Ticket (β : Type) where
  number : ℕ
  cb : β

/-- Where a thread is inside `run()`. -/
inductive WorkerPc (β : Type) where
  | scan
  | running (task : Ticket β)
  | exitTest
  | idle
  | returned

/-- The callback a thread is running. -/
def WorkerPc.task : WorkerPc β → Option (Ticket β)
  | .running task => some task
  | _ => none

/-- Whether a thread is inside `run()`. -/
def WorkerPc.active : WorkerPc β → Bool
  | .returned => false
  | _ => true

/-- A thread that has entered `run()`. -/
structure Worker (β : Type) where
  tid : Int
  pc : WorkerPc β

/-- A run of a scheduler. `calls` are the calls of `schedule(cb, threadId)`
between the test of `m_stopping` and the locked section. `accepted`, `begun`
and `finished` are the history: the callbacks stored with the thread asked
for, the callbacks begun with the thread that took them, and those that have
returned. -/
structure Workers (β : Type) where
  sched : Schedule (Ticket β)
  calls : List (β × Int)
  workers : List (Worker β)
  accepted : List (β × Int)
  begun : List (Ticket β × Int)
  finished : List (Ticket β)

/-- The steps: the head of `schedule(cb, threadId)`, the locked section of the
`i`-th call that passed it, `schedule(begin, end)`, the setting of `m_stopping`
by `~Schedule` and by `stop()`, whose caller then enters `run()`, a thread
started by `start()`, and the sections of the `i`-th worker in `run()`. -/
inductive SchedStep (β : Type) where
  | enter (cb : β) (threadId : Int)
  | store (i : ℕ)
  | range (cbs : List β)
  | setStopping
  | stop (tid : Int)
  | spawn (tid : Int)
  | dequeue (i : ℕ)
  | complete (i : ℕ)
  | exitTest (i : ℕ)
  | resume (i : ℕ)

/-- Consecutive tickets. -/
def ticketsFrom : ℕ → List β → List (Ticket β)
  | _, [] => []
  | k, cb :: cbs => ⟨k, cb⟩ :: ticketsFrom (k + 1) cbs

namespace Workers

def init : Workers β := ⟨Schedule.init, [], [], [], [], []⟩

/-- Worker `i` goes to `pc`. -/
def goto (w : Workers β) (i : ℕ) (x : Worker β) (pc : WorkerPc β) : Workers β :=
  { w with workers := w.workers.set i { x with pc := pc } }

/-- The first section of `run()` for worker `i`. -/
def dequeue (w : Workers β) (i : ℕ) (x : Worker β) : Workers β :=
  let (sched, task) := w.sched.dequeue x.tid
  match task with
  | some task =>
    { (w.goto i x (.running task)) with sched := sched, begun := (task, x.tid) :: w.begun }
  | none => { (w.goto i x .exitTest) with sched := sched }

/-- One section of worker `i`. -/
def workerStep (w : Workers β) (i : ℕ) (x : Worker β) : SchedStep β → Option (Workers β)
  | .dequeue _ => match x.pc with
    | .scan => some (w.dequeue i x)
    | _ => none
  | .complete _ => match x.pc with
    | .running task =>
      some { (w.goto i x .exitTest) with
        sched := w.sched.complete, finished := task :: w.finished }
    | _ => none
  | .exitTest _ => match x.pc with
    | .exitTest => some (w.goto i x (if w.sched.leaves then .returned else .idle))
    | _ => none
  | .resume _ => match x.pc with
    | .idle => some (w.goto i x .scan)
    | _ => none
  | _ => none

def step (w : Workers β) : SchedStep β → Option (Workers β)
  | .enter cb threadId =>
    some (if w.sched.mStopping then w else { w with calls := w.calls ++ [(cb, threadId)] })
  | .store i => match w.calls[i]? with
    | some (cb, threadId) =>
      some { w with
        sched := w.sched.schedule (some ⟨w.accepted.length, cb⟩) threadId
        calls := w.calls.eraseIdx i
        accepted := w.accepted ++ [(cb, threadId)] }
    | none => none
  | .range cbs =>
    some { w with
      sched := w.sched.scheduleRange ((ticketsFrom w.accepted.length cbs).map some)
      accepted := w.accepted ++ cbs.map fun cb => (cb, -1) }
  | .setStopping => some { w with sched := { w.sched with mStopping := true } }
  | .stop tid =>
    some { w with
      sched := { w.sched with mStopping := true }
      workers := w.workers ++ [⟨tid, .scan⟩] }
  | .spawn tid => some { w with workers := w.workers ++ [⟨tid, .scan⟩] }
  | .dequeue i => w.workers[i]?.bind fun x => w.workerStep i x (.dequeue i)
  | .complete i => w.workers[i]?.bind fun x => w.workerStep i x (.complete i)
  | .exitTest i => w.workers[i]?.bind fun x => w.workerStep i x (.exitTest i)
  | .resume i => w.workers[i]?.bind fun x => w.workerStep i x (.resume i)

end Workers

end Sylar
