import Sylar.Lib.Threads
import Sylar.Timer.Order

/-!
# Timers on several threads

The member functions of `Timer.cpp` as the sections of `TimerRWMutex` they are
made of. `cancel` looks the timer up in one section and erases the element found
in another; `GetExpiredCb` takes the expired timers out in one section and puts
each recurring one back in a section of its own. An iterator is an element with
the number of times it had been put into the set when it was found.
-/

namespace Sylar

/-- The manager. Beside it: how often each timer was put into the set, what
`cancel` has returned, the recurring timers on which it has returned since the
user armed them last, the callbacks appended to `obs`, those of these timers that
were collected nevertheless, and whether an iterator was used that its element had
left. -/
structure SharedTimers (F : Type) where
  mgr : TimerManager F
  epoch : ℕ → ℕ
  answers : List (ℕ × Bool)
  cancelled : ℕ → Bool
  obs : List (Option F)
  late : List ℕ
  undefined : Bool

/-- The operations: the two `addTimer`, `cancel` and `GetExpiredCb`. -/
inductive TimerOp (F : Type) where
  | addTimer (ms : UInt64) (cb : Option F) (recurring : Bool)
  | addTimerPtr (t : ℕ)
  | cancel (t : ℕ)
  | getExpiredCb

/-- Where a thread is: before the section of an `addTimer`, before one of the two
of `cancel`, before the first of `GetExpiredCb` or in its loop. -/
inductive TimerPc (F : Type) where
  | add (ms : UInt64) (cb : Option F) (recurring : Bool)
  | put (t : ℕ)
  | find (t : ℕ)
  | erase (t it epoch : ℕ)
  | extract
  | loop (item : ℕ) (temp : List ℕ)

namespace SharedTimers

variable {F : Type}

def init : SharedTimers F :=
  ⟨.empty, fun _ => 0, [], fun _ => false, [], [], false⟩

/-- The numbers after `t` is put into the set, if it is not there already. -/
def counted (s : SharedTimers F) (t : ℕ) : ℕ → ℕ :=
  if t ∈ s.mgr.mTimers then s.epoch else Function.update s.epoch t (s.epoch t + 1)

/-- `cancel` on `t` returns. -/
def returned (s : SharedTimers F) (t : ℕ) (answer : Bool) : SharedTimers F :=
  { s with
    answers := s.answers ++ [(t, answer)]
    cancelled := Function.update s.cancelled t (s.mgr.timers t).mRecurring }

/-- The first section of an operation. -/
def begins : TimerOp F → TimerPc F
  | .addTimer ms cb recurring => .add ms cb recurring
  | .addTimerPtr t => .put t
  | .cancel t => .find t
  | .getExpiredCb => .extract

/-- The loop of `GetExpiredCb` over the timers that are left. -/
def loops : List ℕ → Option (TimerPc F)
  | [] => none
  | item :: temp => some (.loop item temp)

/-- One section, with the clock reading it takes. What precedes it outside the
lock, such as the new deadline of a timer put back, belongs to it. -/
def move (s : SharedTimers F) (pc : TimerPc F) (now : UInt64) :
    Option (SharedTimers F × Option (TimerPc F)) :=
  match pc with
  | .add ms cb recurring =>
    let r := s.mgr.addTimer ms cb recurring now
    some ({ s with
      mgr := s.mgr.edits r.1
      epoch := s.counted r.2
      cancelled := Function.update s.cancelled r.2 false }, none)
  | .put t =>
    if t < s.mgr.created then
      some ({ s with
        mgr := s.mgr.edits (TimerManager.addTimerPtr t)
        epoch := s.counted t
        cancelled := Function.update s.cancelled t false }, none)
    else none
  | .find t =>
    if t < s.mgr.created then
      match s.mgr.find t with
      | none => some (s.returned t false, none)
      | some it => some (s, some (.erase t it (s.epoch it)))
    else none
  | .erase t it epoch =>
    if it ∈ s.mgr.mTimers ∧ s.epoch it = epoch then
      some ({ s.returned t true with mgr := s.mgr.edit (.erase it) }, none)
    else some ({ s with undefined := true }, none)
  | .extract =>
    let temp := s.mgr.expired now
    some ({ s with
      mgr := s.mgr.edits (temp.map Edit.erase)
      late := s.late ++ temp.filter s.cancelled }, loops temp)
  | .loop item temp =>
    some ({ s with
      mgr := s.mgr.edits (s.mgr.rearm (fun _ => now) 0 [item])
      epoch := if (s.mgr.timers item).mRecurring then s.counted item else s.epoch
      obs := s.obs ++ [(s.mgr.timers item).mCb] }, loops temp)

/-- An interleaving of operations, section by section. -/
def step : Threads.Pool (SharedTimers F) (TimerPc F) → Threads.Act (TimerOp F) UInt64 →
    Option (Threads.Pool (SharedTimers F) (TimerPc F)) :=
  Threads.step begins move

end SharedTimers

end Sylar
