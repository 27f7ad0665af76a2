import Sylar.Thread.Semaphore
import Sylar.Util.Text

/-!
# How a thread starts

The constructor of `Thread` stores the callback and the name, makes the thread and waits
on the semaphore of the object. `run` fills in the object, takes the callback out of it,
notifies and calls the callback. A state begins where the thread has been made; a step is
a section of the constructor or of `run`, a spurious wake-up, or another semaphore taking
or releasing `g_mutex`, which all semaphores share.

* `Inv` says what the object holds at each place of `run`, and where the unit is.
* `started_of_exec`: what the constructor may rely on when it returns, and what `run`
  still does to the object then.
* `returns_iff`: once nothing can move, the constructor has returned if and only if the
  signal did not come between its test and its block.
-/

namespace Sylar.Startup

open Semaphore

/-- The places in `run`. -/
inductive RunPc (C : Type) where
  | entered
  | recorded
  | named
  | identified
  | notifying (cb : Option C) (pc : NotifyPc)
  | calling (cb : Option C)
  | finished
  | terminated

/-- `t_thread_name` of a thread that was given no name. -/
def unknow : Bytes := lit "UNKNOW"

/-- A `Thread` with its semaphore, `g_mutex` and whether another semaphore holds it, the
places of the two threads, the thread-local `t_thread` and `t_thread_name` of the new one,
and the callbacks it has called. -/
structure State (C : Type) where
  mId : Option ℕ
  mCb : Option C
  mName : Bytes
  value : UInt32
  gMutex : Bool
  others : Bool
  ctor : WaitPc
  run : RunPc C
  tThread : Bool
  tThreadName : Bytes
  begun : List C

variable {C : Type}

/-- Where `Thread::Thread(name, cb)` has made the thread. -/
def init (name : Bytes) (cb : Option C) : State C where
  mId := none
  mCb := cb
  mName := name
  value := 0
  gMutex := false
  others := false
  ctor := .locking
  run := .entered
  tThread := false
  tThreadName := unknow
  begun := []

/-- `_semaphore.wait()` of the constructor. -/
def ctorSection (s : State C) : Option (State C) :=
  match move s.value s.gMutex (.wait s.ctor) with
  | some (value, gMutex, .wait pc) => some { s with value := value, gMutex := gMutex, ctor := pc }
  | _ => none

/-- `Thread::run`. `tid` is what `getThreadid` returns. `notify_one` wakes the constructor
if it is blocked, and calling an empty `std::function` terminates the program. -/
def runSection (tid : ℕ) (s : State C) : Option (State C) :=
  match s.run with
  | .entered => some { s with tThread := true, run := .recorded }
  | .recorded =>
    some { s with
      tThreadName := if s.mName.length ≠ 0 then s.mName else s.tThreadName, run := .named }
  | .named => some { s with mId := some tid, run := .identified }
  | .identified => some { s with mCb := none, run := .notifying s.mCb .started }
  | .notifying cb .signalling =>
    some { s with ctor := if s.ctor = .blocked then .woken else s.ctor, run := .calling cb }
  | .notifying cb pc =>
    match move s.value s.gMutex (.notify pc) with
    | some (value, _, .notify pc) => some { s with value := value, run := .notifying cb pc }
    | _ => none
  | .calling (some cb) => some { s with begun := cb :: s.begun, run := .finished }
  | .calling none => some { s with run := .terminated }
  | .finished | .terminated => none

inductive Act where
  | ctor
  | run
  | spurious
  | lock
  | unlock
  deriving DecidableEq

def step (tid : ℕ) (s : State C) : Act → Option (State C)
  | .ctor => ctorSection s
  | .run => runSection tid s
  | .spurious => if s.ctor = .blocked then some { s with ctor := .woken } else none
  | .lock => if s.gMutex = false then some { s with gMutex := true, others := true } else none
  | .unlock => if s.others = true then some { s with gMutex := false, others := false } else none

/-! ## What holds at each place -/

/-- How far `run` has come: behind its first four sections, the store of `notify`, the
signal, the call. -/
def RunPc.rank : RunPc C → ℕ
  | entered => 0
  | recorded => 1
  | named => 2
  | identified => 3
  | notifying _ .started => 4
  | notifying _ (.storing _) => 4
  | notifying _ .signalling => 5
  | notifying _ .returned => 6
  | calling _ => 6
  | finished => 7
  | terminated => 7

/-- `t_thread_name` behind so many sections of `run`. -/
def shown (name : Bytes) : ℕ → Bytes
  | 0 => unknow
  | 1 => unknow
  | _ + 2 => if name = [] then unknow else name

/-- The callback that `run` has taken and not called yet. -/
def RunPc.holds : RunPc C → Option (Option C)
  | notifying cb _ => some cb
  | calling cb => some cb
  | _ => none

/-- The wait has found a unit. -/
def taking : WaitPc → Bool
  | .taking _ => true
  | .storing _ _ => true
  | _ => false

/-- The wait has the lock. -/
def inside (pc : WaitPc) : Bool := Place.inside.has (.wait pc)

/-- What the object and the thread hold. -/
structure Filled (name : Bytes) (cb : Option C) (tid : ℕ) (s : State C) : Prop where
  named : s.mName = name
  this : s.tThread = decide (1 ≤ s.run.rank)
  threadName : s.tThreadName = shown name s.run.rank
  identified : s.mId = if 3 ≤ s.run.rank then some tid else none
  stored : s.mCb = if 4 ≤ s.run.rank then none else cb
  taken : ∀ c ∈ s.run.holds, c = cb
  begun : s.begun = if s.run.rank = 7 then cb.toList else []
  ended : s.run.rank = 7 → (s.run = .finished ↔ cb.isSome)

/-- Where the unit is: it comes with the store of `notify`, and the constructor takes it. -/
structure Counted (s : State C) : Prop where
  before : s.run.rank < 5 → s.value = 0 ∧ taking s.ctor = false ∧ s.ctor ≠ .returned
  loaded : ∀ cb l, s.run = .notifying cb (.storing l) → l = 0
  behind : 5 ≤ s.run.rank → s.ctor ≠ .returned → s.value = 1
  drawn : ∀ again l, s.ctor = .storing again l → l = 1
  locked : s.gMutex = (s.others || inside s.ctor)
  apart : s.others = true → inside s.ctor = false

variable {name : Bytes} {cb : Option C} {tid : ℕ} {s t : State C} {a : Act}

theorem filled_init : Filled name cb tid (init name cb) where
  named := rfl
  this := rfl
  threadName := rfl
  identified := rfl
  stored := rfl
  taken := nofun
  begun := rfl
  ended := nofun

theorem counted_init : Counted (init name cb) where
  before _ := ⟨rfl, rfl, nofun⟩
  loaded := nofun
  behind := nofun
  drawn := nofun
  locked := rfl
  apart := nofun

/-- The constructor and the other semaphores do not touch what `run` fills in. -/
theorem Filled.congr (filled : Filled name cb tid s) (run : t.run = s.run)
    (mName : t.mName = s.mName) (mId : t.mId = s.mId) (mCb : t.mCb = s.mCb)
    (tThread : t.tThread = s.tThread) (tThreadName : t.tThreadName = s.tThreadName)
    (begun : t.begun = s.begun) : Filled name cb tid t where
  named := mName ▸ filled.named
  this := by rw [tThread, run, filled.this]
  threadName := by rw [tThreadName, run, filled.threadName]
  identified := by rw [mId, run, filled.identified]
  stored := by rw [mCb, run, filled.stored]
  taken := run ▸ filled.taken
  begun := by rw [begun, run, filled.begun]
  ended := run ▸ filled.ended

/-- A section of the wait is one of `Semaphore.move`. -/
theorem ctor_cases (ran : ctorSection s = some t) :
    ∃ value gMutex pc, move s.value s.gMutex (.wait s.ctor) = some (value, gMutex, .wait pc) ∧
      t = { s with value := value, gMutex := gMutex, ctor := pc } := by
  unfold ctorSection at ran
  split at ran
  · next value gMutex pc moved =>
    cases ran
    exact ⟨value, gMutex, pc, moved, rfl⟩
  · cases ran

/-- `run` fills in the object, one section after the other. -/
theorem Filled.run (filled : Filled name cb tid s) (ran : runSection tid s = some t) :
    Filled name cb tid t := by
  obtain ⟨named, this, threadName, identified, stored, taken, begun, ended⟩ := filled
  unfold runSection at ran
  cases place : s.run with
  | entered =>
    rw [place] at ran this threadName identified stored begun
    cases ran
    exact ⟨named, rfl, threadName, identified, stored, nofun, begun, nofun⟩
  | recorded =>
    rw [place] at ran this threadName identified stored begun
    cases ran
    refine ⟨named, this, ?_, identified, stored, nofun, begun, nofun⟩
    show (if s.mName.length ≠ 0 then s.mName else s.tThreadName) =
      if name = [] then unknow else name
    rw [threadName, named]
    by_cases empty : name = []
    · rw [if_pos empty, empty]
      rfl
    · rw [if_neg empty, if_pos (List.length_pos_iff.mpr empty).ne']
  | named =>
    rw [place] at ran this threadName stored begun
    cases ran
    exact ⟨named, this, threadName, rfl, stored, nofun, begun, nofun⟩
  | identified =>
    rw [place] at ran this threadName identified stored begun
    cases ran
    refine ⟨named, this, threadName, identified, rfl, fun c held => ?_, begun, nofun⟩
    cases held
    exact stored
  | notifying c pc =>
    rw [place] at ran this threadName identified stored taken begun
    cases pc with
    | started | storing l | signalling =>
      cases ran
      exact ⟨named, this, threadName, identified, stored, taken, begun, nofun⟩
    | returned => cases ran
  | calling c =>
    rw [place] at ran this threadName identified stored taken begun
    cases taken c rfl
    cases cb with
    | some x =>
      cases ran
      refine ⟨named, this, threadName, identified, stored, nofun, ?_, fun _ => ?_⟩
      · exact congrArg (x :: ·) begun
      · exact iff_of_true rfl rfl
    | none =>
      cases ran
      exact ⟨named, this, threadName, identified, stored, nofun, begun,
        fun _ => iff_of_false nofun nofun⟩
  | finished | terminated =>
    rw [place] at ran
    cases ran

theorem Filled.next (filled : Filled name cb tid s) (edge : step tid s a = some t) :
    Filled name cb tid t := by
  cases a with
  | ctor =>
    obtain ⟨value, gMutex, pc, -, rfl⟩ := ctor_cases edge
    exact filled.congr rfl rfl rfl rfl rfl rfl rfl
  | run => exact filled.run edge
  | spurious | lock | unlock =>
    obtain ⟨-, same⟩ := Option.ite_none_right_eq_some.mp edge
    cases same
    exact filled.congr rfl rfl rfl rfl rfl rfl rfl

/-! ## The unit -/

theorem Counted.others_eq_false (counted : Counted s) (held : inside s.ctor = true) :
    s.others = false := by
  cases other : s.others with
  | false => rfl
  | true => cases held.symm.trans (counted.apart other)

/-- A wait that takes the unit comes behind the store of `notify`. -/
theorem Counted.stored_of_taking (counted : Counted s) (takes : taking s.ctor = true) :
    s.value = 1 := by
  have late : 5 ≤ s.run.rank := by
    by_contra early
    cases takes.symm.trans (counted.before (Nat.lt_of_not_le early)).2.1
  refine counted.behind late fun back => ?_
  rw [back] at takes
  cases takes

/-- The wait takes the lock. -/
theorem Counted.lock (counted : Counted s) (free : s.gMutex = false) (again : Bool)
    (waits : s.ctor ≠ .returned) :
    Counted { s with gMutex := true, ctor := .testing again } := by
  have alone : s.others = false := by
    have unlocked := counted.locked
    rw [free, eq_comm, Bool.or_eq_false_iff] at unlocked
    exact unlocked.1
  refine ⟨fun early => ?_, counted.loaded, fun late _ => counted.behind late waits, nofun, ?_, ?_⟩
  · exact ⟨(counted.before early).1, rfl, nofun⟩
  · exact (Bool.or_true _).symm
  · exact fun other => absurd (alone.symm.trans other) nofun

/-- The wait goes on with the lock. -/
theorem Counted.holding (counted : Counted s) {pc : WaitPc} (held : inside s.ctor = true)
    (waits : s.ctor ≠ .returned) (holds : inside pc = true) (stays : pc ≠ .returned)
    (before : s.run.rank < 5 → taking pc = false)
    (drawn : ∀ again l, pc = .storing again l → l = 1) : Counted { s with ctor := pc } := by
  have alone := counted.others_eq_false held
  have locked := counted.locked
  rw [held] at locked
  refine ⟨fun early => ⟨(counted.before early).1, before early, stays⟩, counted.loaded,
    fun late _ => counted.behind late waits, drawn, ?_, fun other => ?_⟩
  · rw [holds]
    exact locked
  · cases alone.symm.trans other

/-- The wait gives the lock back. -/
theorem Counted.unlock (counted : Counted s) {value : UInt32} {pc : WaitPc}
    (held : inside s.ctor = true) (outside : inside pc = false)
    (before : s.run.rank < 5 → value = 0 ∧ taking pc = false ∧ pc ≠ .returned)
    (behind : 5 ≤ s.run.rank → pc ≠ .returned → value = 1)
    (drawn : ∀ again l, pc = .storing again l → l = 1) :
    Counted { s with value := value, gMutex := false, ctor := pc } := by
  refine ⟨before, counted.loaded, behind, drawn, ?_, fun _ => outside⟩
  rw [counted.others_eq_false held, outside]
  rfl

/-- The wait, section by section. -/
theorem Counted.ctor (counted : Counted s) (ran : ctorSection s = some t) : Counted t := by
  obtain ⟨value, gMutex, pc, moved, rfl⟩ := ctor_cases ran
  have takes := counted.stored_of_taking
  cases place : s.ctor with
  | locking | woken =>
    have waits : s.ctor ≠ .returned := fun back => by cases place.symm.trans back
    rw [place] at moved
    obtain ⟨free, same⟩ := Option.ite_none_left_eq_some.mp moved
    cases same
    exact counted.lock (Bool.not_eq_true _ ▸ free) _ waits
  | testing again =>
    have waits : s.ctor ≠ .returned := fun back => by cases place.symm.trans back
    have held : inside s.ctor = true := congrArg inside place
    rw [place] at moved
    simp only [move] at moved
    split_ifs at moved with some
    · cases moved
      refine counted.holding held waits rfl (fun back => by cases back) (fun early => ?_)
        (fun b l same => by cases same)
      rw [(counted.before early).1] at some
      cases some
    · cases moved
      exact counted.holding held waits rfl (fun back => by cases back) (fun _ => rfl)
        (fun b l same => by cases same)
  | blocking =>
    have waits : s.ctor ≠ .returned := fun back => by cases place.symm.trans back
    rw [place] at moved
    cases moved
    refine counted.unlock (congrArg inside place) rfl (fun early => ?_)
      (fun late _ => counted.behind late waits) (fun again l same => by cases same)
    exact ⟨(counted.before early).1, rfl, fun back => by cases back⟩
  | taking again =>
    have waits : s.ctor ≠ .returned := fun back => by cases place.symm.trans back
    have unit := takes (congrArg taking place)
    have held : inside s.ctor = true := congrArg inside place
    rw [place] at moved
    cases moved
    refine counted.holding held waits rfl (fun back => by cases back) (fun early => ?_)
      (fun b l same => ?_)
    · cases (congrArg taking place).symm.trans (counted.before early).2.1
    · cases same
      exact unit
  | storing again l =>
    have one := counted.drawn again l place
    rw [place] at moved
    cases moved
    refine counted.unlock (congrArg inside place) rfl (fun early => ?_)
      (fun _ back => absurd rfl back) (fun b l same => by cases same)
    cases (congrArg taking place).symm.trans (counted.before early).2.1
  | blocked | returned =>
    rw [place] at moved
    cases moved

/-- A section of `run` before the store of `notify`. -/
theorem Counted.early (counted : Counted s) (before : s.run.rank < 5) (run : t.run.rank < 5)
    (value : t.value = s.value) (ctor : t.ctor = s.ctor) (gMutex : t.gMutex = s.gMutex)
    (others : t.others = s.others)
    (loaded : ∀ cb l, t.run = .notifying cb (.storing l) → l = 0) : Counted t := by
  refine ⟨fun _ => ?_, loaded, fun late => absurd late (Nat.not_le_of_lt run), ?_, ?_, ?_⟩
  · rw [value, ctor]
    exact counted.before before
  · rw [ctor]
    exact counted.drawn
  · rw [gMutex, others, ctor]
    exact counted.locked
  · rw [others, ctor]
    exact counted.apart

/-- `run` brings the unit with the store of `notify`. -/
theorem Counted.run (counted : Counted s) (ran : runSection tid s = some t) : Counted t := by
  unfold runSection at ran
  have before := counted.before
  cases place : s.run with
  | entered | recorded | named | identified =>
    rw [place] at ran
    cases ran
    refine counted.early (place ▸ of_decide_eq_true rfl) (of_decide_eq_true rfl) rfl rfl rfl rfl
      fun cb l same => ?_
    cases same
  | notifying c pc =>
    rw [place] at ran before
    cases pc with
    | started =>
      cases ran
      refine counted.early (place ▸ of_decide_eq_true rfl) (of_decide_eq_true rfl) rfl rfl rfl rfl
        fun cb l same => ?_
      cases same
      exact (before (of_decide_eq_true rfl)).1
    | storing l =>
      cases ran
      have zero := counted.loaded c l place
      cases zero
      exact ⟨fun early => absurd early (of_decide_eq_true rfl), nofun, fun _ _ => rfl,
        counted.drawn, counted.locked, counted.apart⟩
    | signalling =>
      cases ran
      have late := counted.behind (place ▸ of_decide_eq_true rfl)
      by_cases asleep : s.ctor = .blocked
      · rw [if_pos asleep]
        have locked := counted.locked
        rw [asleep] at locked
        exact ⟨fun early => absurd early (of_decide_eq_true rfl), nofun,
          fun _ _ => late (asleep ▸ nofun), nofun, locked, fun _ => rfl⟩
      · rw [if_neg asleep]
        exact ⟨fun early => absurd early (of_decide_eq_true rfl), nofun, fun _ => late,
          counted.drawn, counted.locked, counted.apart⟩
    | returned => cases ran
  | calling c =>
    rw [place] at ran
    have late := counted.behind (place ▸ of_decide_eq_true rfl)
    cases c with
    | some x | none =>
      cases ran
      exact ⟨fun early => absurd early (of_decide_eq_true rfl), nofun, fun _ => late, counted.drawn,
        counted.locked, counted.apart⟩
  | finished | terminated =>
    rw [place] at ran
    cases ran

theorem Counted.next (counted : Counted s) (edge : step tid s a = some t) : Counted t := by
  cases a with
  | ctor => exact counted.ctor edge
  | run => exact counted.run edge
  | spurious =>
    obtain ⟨asleep, same⟩ := Option.ite_none_right_eq_some.mp edge
    cases same
    have locked := counted.locked
    rw [asleep] at locked
    exact ⟨fun early => ⟨(counted.before early).1, rfl, nofun⟩, counted.loaded,
      fun late _ => counted.behind late (asleep ▸ nofun), nofun, locked, fun _ => rfl⟩
  | lock =>
    obtain ⟨free, same⟩ := Option.ite_none_right_eq_some.mp edge
    cases same
    have unlocked := counted.locked
    rw [free, eq_comm, Bool.or_eq_false_iff] at unlocked
    exact ⟨counted.before, counted.loaded, counted.behind, counted.drawn, rfl,
      fun _ => unlocked.2⟩
  | unlock =>
    obtain ⟨held, same⟩ := Option.ite_none_right_eq_some.mp edge
    cases same
    have outside := counted.apart held
    exact ⟨counted.before, counted.loaded, counted.behind, counted.drawn, outside.symm, nofun⟩

/-! ## When the constructor returns -/

/-- The section that `run` is at reads or writes the object. -/
def RunPc.uses : RunPc C → Bool
  | recorded => true
  | named => true
  | identified => true
  | notifying _ .started => true
  | notifying _ (.storing _) => true
  | notifying _ .signalling => true
  | _ => false

/-- In every run: when the constructor has returned, the object has the identifier of the
thread and its callback has been taken, the thread knows the object and its name, and the
signal is all that `run` may still do with the object. The callback is called once, if
there is one, and nothing else is. -/
theorem started_of_exec {as : List Act}
    (ran : Runs.exec (step tid) (init name cb) as = some s) :
    (s.ctor = .returned →
      s.mId = some tid ∧ s.mCb = none ∧ s.mName = name ∧ s.tThread = true ∧
        s.tThreadName = (if name = [] then unknow else name) ∧
        (s.run.uses = true → ∃ c, s.run = .notifying c .signalling)) ∧
      (s.begun = [] ∨ s.run = .finished ∧ ∃ c, cb = some c ∧ s.begun = [c]) := by
  have filled : Filled name cb tid s :=
    Runs.exec_inv (fun inv edge => inv.next edge) filled_init ran
  have counted : Counted s := Runs.exec_inv (fun inv edge => inv.next edge) counted_init ran
  constructor
  · intro back
    have late : 5 ≤ s.run.rank := by
      by_contra early
      exact (counted.before (Nat.lt_of_not_le early)).2.2 back
    have this := filled.this
    have identified := filled.identified
    have stored := filled.stored
    have threadName := filled.threadName
    rw [decide_eq_true (by omega)] at this
    rw [if_pos (by omega)] at identified stored
    obtain ⟨n, rank⟩ : ∃ n, s.run.rank = n + 2 := ⟨s.run.rank - 2, by omega⟩
    rw [rank] at threadName
    refine ⟨identified, stored, filled.named, this, threadName, fun uses => ?_⟩
    cases place : s.run with
    | notifying c pc =>
      cases pc with
      | signalling => exact ⟨c, rfl⟩
      | started | storing l =>
        rw [place] at late
        exact absurd late (of_decide_eq_true rfl)
      | returned =>
        rw [place] at uses
        cases uses
    | recorded | named | identified =>
      rw [place] at late
      exact absurd late (of_decide_eq_true rfl)
    | entered | calling c | finished | terminated =>
      rw [place] at uses
      cases uses
  · have begun := filled.begun
    split at begun
    · next done =>
      cases given : cb with
      | none =>
        rw [given] at begun
        exact .inl begun
      | some c =>
        refine .inr ⟨(filled.ended done).mpr (given ▸ rfl), c, rfl, ?_⟩
        rw [begun, given]
        rfl
    · exact .inl begun

/-! ## When it does not -/

/-- The signal is not sent between the test of the constructor and its block. -/
def Heard (s : State C) (a : Act) : Prop := a = .run → s.run.rank = 5 → s.ctor ≠ .blocking

/-- Nothing can move, and nobody else holds the lock. -/
structure Stuck (tid : ℕ) (s : State C) : Prop where
  free : s.others = false
  ctor : ctorSection s = none
  run : runSection tid s = none

/-- The signal has been sent, and the constructor blocks. -/
def Missed (s : State C) : Prop := 6 ≤ s.run.rank ∧ (s.ctor = .blocking ∨ s.ctor = .blocked)

/-- Behind the signal, `run` leaves the constructor alone. -/
theorem run_cases (ran : runSection tid s = some t) :
    (s.run.rank = 5 → 6 ≤ t.run.rank ∧
      t.ctor = if s.ctor = .blocked then .woken else s.ctor) ∧
      (s.run.rank ≠ 5 → t.ctor = s.ctor ∧ (6 ≤ t.run.rank ↔ 6 ≤ s.run.rank)) := by
  unfold runSection at ran
  cases place : s.run with
  | entered | recorded | named | identified =>
    rw [place] at ran
    cases ran
    exact ⟨nofun, fun _ => ⟨rfl, iff_of_false (of_decide_eq_true rfl) (of_decide_eq_true rfl)⟩⟩
  | notifying c pc =>
    rw [place] at ran
    cases pc with
    | started | storing l =>
      cases ran
      exact ⟨nofun, fun _ => ⟨rfl, iff_of_false (of_decide_eq_true rfl) (of_decide_eq_true rfl)⟩⟩
    | signalling =>
      cases ran
      exact ⟨fun _ => ⟨Nat.le_refl 6, rfl⟩, fun other => absurd rfl other⟩
    | returned => cases ran
  | calling c =>
    rw [place] at ran
    cases c with
    | some x | none =>
      cases ran
      exact ⟨nofun, fun _ => ⟨rfl, iff_of_true (of_decide_eq_true rfl) (of_decide_eq_true rfl)⟩⟩
  | finished | terminated =>
    rw [place] at ran
    cases ran

/-- A constructor that missed the signal blocks for good, but for a spurious wake-up. -/
theorem Missed.next (missed : Missed s) (quiet : a ≠ .spurious) (edge : step tid s a = some t) :
    Missed t := by
  obtain ⟨late, blocks⟩ := missed
  cases a with
  | ctor =>
    obtain ⟨value, gMutex, pc, moved, rfl⟩ := ctor_cases edge
    rcases blocks with place | place
    · rw [place] at moved
      cases moved
      exact ⟨late, .inr rfl⟩
    · rw [place] at moved
      cases moved
  | run =>
    obtain ⟨same, stays⟩ := (run_cases edge).2 (by omega)
    exact ⟨stays.mpr late, same ▸ blocks⟩
  | spurious => exact absurd rfl quiet
  | lock | unlock =>
    obtain ⟨-, same⟩ := Option.ite_none_right_eq_some.mp edge
    cases same
    exact ⟨late, blocks⟩

theorem heard_of_ne (other : a ≠ .run) : Heard s a := fun same => absurd same other

/-- Behind the signal there is a unit, so that the wait does not block any more. -/
theorem not_missed_ctor (counted : Counted s) (before : ¬ Missed s)
    (ran : ctorSection s = some t) : ¬ Missed t := by
  obtain ⟨value, gMutex, pc, moved, rfl⟩ := ctor_cases ran
  intro missed
  have late : 6 ≤ s.run.rank := missed.1
  have blocks : pc = .blocking ∨ pc = .blocked := missed.2
  have unit := counted.behind (by omega)
  cases place : s.ctor with
  | testing again =>
    rw [place] at moved unit
    rw [unit nofun] at moved
    cases moved
    rcases blocks with same | same <;> cases same
  | blocking => exact before ⟨late, .inl place⟩
  | locking | woken =>
    rw [place] at moved
    obtain ⟨-, same⟩ := Option.ite_none_left_eq_some.mp moved
    cases same
    rcases blocks with same | same <;> cases same
  | taking again | storing again l =>
    rw [place] at moved
    cases moved
    rcases blocks with same | same <;> cases same
  | blocked | returned =>
    rw [place] at moved
    cases moved

/-- The constructor misses the signal at the one step that is not heard. -/
theorem missed_iff (counted : Counted s) (before : ¬ Missed s) (edge : step tid s a = some t) :
    Missed t ↔ ¬ Heard s a := by
  cases a with
  | ctor =>
    exact iff_of_false (not_missed_ctor counted before edge) (not_not.mpr (heard_of_ne nofun))
  | run =>
    obtain ⟨signals, others⟩ := run_cases edge
    by_cases here : s.run.rank = 5
    · obtain ⟨late, ctor⟩ := signals here
      by_cases gap : s.ctor = .blocking
      · refine iff_of_true ⟨late, .inl ?_⟩ fun heard => heard rfl here gap
        rw [ctor, gap]
        rfl
      · refine iff_of_false (fun missed => ?_) (not_not.mpr fun _ _ => gap)
        have blocks := missed.2
        rw [ctor] at blocks
        by_cases asleep : s.ctor = .blocked
        · rw [if_pos asleep] at blocks
          rcases blocks with same | same <;> cases same
        · rw [if_neg asleep] at blocks
          rcases blocks with same | same
          · exact gap same
          · exact asleep same
    · obtain ⟨same, stays⟩ := others here
      refine iff_of_false (fun missed => ?_) (not_not.mpr fun _ there => absurd there here)
      exact before ⟨stays.mp missed.1, same ▸ missed.2⟩
  | spurious =>
    obtain ⟨-, same⟩ := Option.ite_none_right_eq_some.mp edge
    cases same
    refine iff_of_false (fun missed => ?_) (not_not.mpr (heard_of_ne nofun))
    rcases missed.2 with same | same <;> cases same
  | lock | unlock =>
    obtain ⟨-, same⟩ := Option.ite_none_right_eq_some.mp edge
    cases same
    exact iff_of_false before (not_not.mpr (heard_of_ne nofun))

theorem Missed.exec {as : List Act} (missed : Missed s) (quiet : ∀ a ∈ as, a ≠ .spurious)
    (ran : Runs.exec (step tid) s as = some t) : Missed t := by
  induction as generalizing s with
  | nil =>
    cases ran
    exact missed
  | cons a as ih =>
    obtain ⟨u, edge, rest⟩ := Runs.exec_cons_eq_some.mp ran
    obtain ⟨calm, quiet⟩ := List.forall_mem_cons.mp quiet
    exact ih (missed.next calm edge) quiet rest

/-- A run misses the signal if and only if a step of it is not heard. -/
theorem missed_iff_along {as : List Act} (counted : Counted s) (before : ¬ Missed s)
    (quiet : ∀ a ∈ as, a ≠ .spurious) (ran : Runs.exec (step tid) s as = some t) :
    ¬ Missed t ↔ Runs.Along (step tid) Heard s as := by
  induction as generalizing s with
  | nil =>
    cases ran
    exact iff_of_true before trivial
  | cons a as ih =>
    obtain ⟨u, edge, rest⟩ := Runs.exec_cons_eq_some.mp ran
    obtain ⟨calm, quiet⟩ := List.forall_mem_cons.mp quiet
    by_cases heard : Heard s a
    · have going : ¬ Missed u := fun missed => (missed_iff counted before edge).mp missed heard
      rw [ih (counted.next edge) going quiet rest]
      constructor
      · exact fun along => Runs.along_cons heard edge along
      · exact fun along => (along u edge).2
    · have gone : Missed u := (missed_iff counted before edge).mpr heard
      exact iff_of_false (not_not.mpr (gone.exec quiet rest)) fun along => heard (along u edge).1

/-- What cannot move is a wait that is blocked or over, and a `run` behind its signal. -/
theorem Stuck.places (counted : Counted s) (stuck : Stuck tid s) :
    (s.ctor = .blocked ∨ s.ctor = .returned) ∧ 6 ≤ s.run.rank := by
  have ctor := stuck.ctor
  have free : inside s.ctor = false → s.gMutex = false := by
    intro outside
    rw [counted.locked, stuck.free, outside]
    rfl
  constructor
  · unfold ctorSection at ctor
    cases place : s.ctor with
    | blocked => exact .inl rfl
    | returned => exact .inr rfl
    | locking | woken =>
      rw [place] at ctor free
      rw [free rfl] at ctor
      cases ctor
    | testing again =>
      rw [place] at ctor
      by_cases some : 0 < s.value
      · simp only [move, if_pos some] at ctor
        cases ctor
      · simp only [move, if_neg some] at ctor
        cases ctor
    | blocking | taking again | storing again l =>
      rw [place] at ctor
      cases ctor
  · have run := stuck.run
    unfold runSection at run
    cases place : s.run with
    | entered | recorded | named | identified =>
      rw [place] at run
      cases run
    | notifying c pc =>
      rw [place] at run
      cases pc with
      | started | storing l | signalling => cases run
      | returned => exact Nat.le_refl 6
    | calling c =>
      rw [place] at run
      cases c with
      | some x | none => cases run
    | finished | terminated => exact of_decide_eq_true rfl

/-- In every run without spurious wake-ups that ends where nothing can move, the
constructor has returned if and only if the signal was not sent between its test and its
block; if it has not, it is blocked for good, with the unit it waits for in the
semaphore. -/
theorem returns_iff {as : List Act} (quiet : ∀ a ∈ as, a ≠ .spurious)
    (ran : Runs.exec (step tid) (init name cb) as = some s) (stuck : Stuck tid s) :
    (s.ctor = .returned ↔ Runs.Along (step tid) Heard (init name cb) as) ∧
      (s.ctor ≠ .returned → s.ctor = .blocked ∧ s.value = 1) := by
  have counted : Counted s := Runs.exec_inv (fun inv edge => inv.next edge) counted_init ran
  obtain ⟨place, late⟩ := stuck.places counted
  have fresh : ¬ Missed (init name cb) := fun missed => absurd missed.1 (of_decide_eq_true rfl)
  rw [← missed_iff_along counted_init fresh quiet ran]
  rcases place with blocked | returned
  · refine ⟨iff_of_false (blocked ▸ nofun) (not_not.mpr ⟨late, .inr blocked⟩), fun waits => ?_⟩
    exact ⟨blocked, counted.behind (by omega) waits⟩
  · refine ⟨iff_of_true returned fun missed => ?_, fun waits => absurd returned waits⟩
    rcases missed.2 with same | same <;> cases returned.symm.trans same

/-! ## Two runs -/

/-- The constructor blocks, is woken, and returns. -/
def woken : List Act :=
  [.ctor, .ctor, .run, .ctor, .run, .run, .run, .run, .run, .run, .lock, .unlock, .ctor, .ctor,
    .ctor, .ctor, .run]

/-- `run` notifies between the test of the constructor and its block. -/
def unheard : List Act := [.ctor, .ctor, .run, .run, .run, .run, .run, .run, .run, .ctor, .run]

/-- Where a run of a thread with a callback leads to. -/
def after (as : List Act) : State Unit :=
  (Runs.exec (step 7) (init [] (some ())) as).getD (init [] none)

theorem started_of_exec_woken :
    (after woken).mId = some 7 ∧ (after woken).begun = [()] := by
  have ran : Runs.exec (step 7) (init [] (some ())) woken = some (after woken) := rfl
  have both := started_of_exec ran
  refine ⟨(both.1 rfl).1, ?_⟩
  rcases both.2 with none | ⟨-, c, -, once⟩
  · cases none
  · exact once

theorem returns_iff_unheard :
    (after unheard).ctor = .blocked ∧
      ¬ Runs.Along (step 7) Heard (init [] (some ())) unheard := by
  have ran : Runs.exec (step 7) (init [] (some ())) unheard = some (after unheard) := rfl
  have both := returns_iff (by decide) ran ⟨rfl, rfl, rfl⟩
  have blocked := (both.2 nofun).1
  exact ⟨blocked, fun along => by cases both.1.mpr along⟩

end Sylar.Startup
