import Mathlib.Algebra.Order.Group.Nat
import Mathlib.Logic.Function.Basic
import Sylar.Lib.KeyedSet
import Sylar.Lib.Runs

/-!
# Timers and their manager

`Timer.cpp` keeps the pending timers in a `std::set` of shared pointers whose
comparator looks at `m_next` alone, and edits timers by taking them out,
assigning their fields and putting them back. The model keeps these pieces
apart: the `Timer` objects live in `timers` under the number of their creation,
`mTimers` is the set in its own order, and each member function is the list of
edits it makes, so that every intermediate state of a call can be spoken about.

Clock readings are inputs. `GetExpiredCb` reads the clock once for the cut and
once more for each recurring timer it puts back, so it takes a whole sequence.
-/

namespace Sylar

/-- What a timer runs: a callback, or `std::bind(&onTimer, weak_cond, cb)`. -/
inductive TimerFn (C W : Type) where
  | fn (cb : C)
  | onTimer (weakCond : W) (cb : Option C)

/-- `onTimer`: the callback that runs, given which conditions are still alive. -/
def onTimer {C W : Type} (alive : W → Bool) (weakCond : W) (cb : Option C) : Option C :=
  if alive weakCond then cb else none

/-- A `Timer` object. `mTimeManager` is whether its manager pointer is set. -/
structure Timer (F : Type) where
  mGap : UInt64
  mNext : UInt64
  mRecurring : Bool
  mCb : Option F
  mTimeManager : Bool

/-- A manager, with every `Timer` object created through it, numbered in the
order of creation. -/
structure TimerManager (F : Type) where
  timers : ℕ → Timer F
  created : ℕ
  mTimers : List ℕ

variable {F C W : Type}

/-- A manager without timers. -/
def TimerManager.empty : TimerManager F where
  timers := fun _ => ⟨0, 0, false, none, true⟩
  created := 0
  mTimers := []

namespace TimerManager

/-- What `Timer::comparator` compares. -/
def key (s : TimerManager F) (t : ℕ) : ℕ := (s.timers t).mNext.toNat

/-- `m_timers.find(t)`: whatever element has the key of `t`. -/
def find (s : TimerManager F) (t : ℕ) : Option ℕ :=
  KeyedSet.find s.key (s.key t) s.mTimers

end TimerManager

/-- One edit of the manager: an object created, an element taken out of the
set, the fields of an object assigned, an element put into the set. -/
inductive Edit (F : Type) where
  | create (v : Timer F)
  | erase (t : ℕ)
  | assign (t : ℕ) (f : Timer F → Timer F)
  | insert (t : ℕ)

namespace TimerManager

def edit (s : TimerManager F) : Edit F → TimerManager F
  | .create v =>
    { s with timers := Function.update s.timers s.created v, created := s.created + 1 }
  | .erase t => { s with mTimers := s.mTimers.erase t }
  | .assign t f => { s with timers := Function.update s.timers t (f (s.timers t)) }
  | .insert t => { s with mTimers := KeyedSet.insert s.key t s.mTimers }

/-- The state after a list of edits. -/
def edits (s : TimerManager F) (es : List (Edit F)) : TimerManager F := es.foldl edit s

end TimerManager

/-! ## The member functions

Each is given by the edits it makes from the state it is called in, with what
it returns. -/

namespace Timer

/-- `Timer::cancel`. -/
def cancel (s : TimerManager F) (t : ℕ) : List (Edit F) × Bool :=
  match s.find t with
  | none => ([], false)
  | some it => ([.erase it], true)

/-- `Timer::refresh`. The element found is moved by the gap of the timer asked. -/
def refresh (s : TimerManager F) (t : ℕ) (now : UInt64) : List (Edit F) :=
  match s.find t with
  | none => []
  | some temp =>
    [.erase temp, .assign temp fun v => { v with mNext := now + (s.timers t).mGap }, .insert temp]

/-- `Timer::reset()`: cancel, then clear every field of the timer asked. -/
def reset (s : TimerManager F) (t : ℕ) : List (Edit F) :=
  (cancel s t).1 ++ [.assign t fun _ => ⟨0, 0, false, none, false⟩]

/-- `Timer::reset(gap, from_now)`. -/
def resetGap (s : TimerManager F) (t : ℕ) (gap : UInt64) (fromNow : Bool)
    (now : UInt64) : List (Edit F) :=
  match s.find t with
  | none => []
  | some temp =>
    [.erase temp,
      .assign temp fun v =>
        { v with mGap := gap, mNext := if fromNow then now + gap else v.mNext - gap },
      .insert temp]

end Timer

namespace TimerManager

/-- `TimerManager::addTimer(ms, cb, recurring)`, with the timer it returns. -/
def addTimer (s : TimerManager F) (ms : UInt64) (cb : Option F) (recurring : Bool)
    (now : UInt64) : List (Edit F) × ℕ :=
  ([.create ⟨ms, now + ms, recurring, cb, true⟩, .insert s.created], s.created)

/-- `TimerManager::addTimer(timer)`. -/
def addTimerPtr (t : ℕ) : List (Edit F) := [.insert t]

/-- `TimerManager::addCondtionTimer`. -/
def addCondtionTimer (s : TimerManager (TimerFn C W)) (ms : UInt64) (cb : Option C)
    (weakCond : W) (recurring : Bool) (now : UInt64) :
    List (Edit (TimerFn C W)) × ℕ :=
  s.addTimer ms (some (.onTimer weakCond cb)) recurring now

/-- `m_timers.lower_bound(now_timer)`, as a position. -/
def lowerBound (s : TimerManager F) (now : UInt64) : ℕ :=
  (s.mTimers.takeWhile fun t => decide ((s.timers t).mNext < now)).length

/-- Where `GetExpiredCb` cuts the set: the lower bound, or one step past it
when the element there has the deadline `now` itself. -/
def cut (s : TimerManager F) (now : UInt64) : ℕ :=
  let it := s.lowerBound now
  match s.mTimers[it]? with
  | some t => if (s.timers t).mNext = now then it + 1 else it
  | none => it

/-- The timers `GetExpiredCb` takes out. -/
def expired (s : TimerManager F) (now : UInt64) : List ℕ := s.mTimers.take (s.cut now)

/-- The loop of `GetExpiredCb` over the timers taken out. The `k`-th recurring
timer is put back with the `k`-th reading of the clock. -/
def rearm (s : TimerManager F) (clock : ℕ → UInt64) : ℕ → List ℕ → List (Edit F)
  | _, [] => []
  | k, item :: temp =>
    if (s.timers item).mRecurring then
      .assign item (fun v => { v with mNext := clock k + v.mGap }) ::
        .insert item :: rearm s clock (k + 1) temp
    else
      .assign item (fun v => { v with mCb := none }) :: rearm s clock k temp

/-- `TimerManager::GetExpiredCb`, with the callbacks it appends to `obs`. -/
def getExpiredCb (s : TimerManager F) (now : UInt64) (clock : ℕ → UInt64) :
    List (Edit F) × List (Option F) :=
  let temp := s.expired now
  (temp.map Edit.erase ++ rearm s clock 0 temp, temp.map fun item => (s.timers item).mCb)

end TimerManager

/-! ## Calls -/

/-- A call on a manager or on one of its timers, with the clock readings it takes. -/
inductive TimerCall (C W : Type) where
  | addTimer (ms : UInt64) (cb : Option C) (recurring : Bool) (now : UInt64)
  | addTimerPtr (t : ℕ)
  | addCondtionTimer (ms : UInt64) (cb : Option C) (weakCond : W) (recurring : Bool)
      (now : UInt64)
  | cancel (t : ℕ)
  | refresh (t : ℕ) (now : UInt64)
  | reset (t : ℕ)
  | resetGap (t : ℕ) (gap : UInt64) (fromNow : Bool) (now : UInt64)
  | getExpiredCb (now : UInt64) (clock : ℕ → UInt64)

namespace TimerCall

/-- The edits a call makes. -/
def body (s : TimerManager (TimerFn C W)) : TimerCall C W → List (Edit (TimerFn C W))
  | .addTimer ms cb recurring now => (s.addTimer ms (cb.map .fn) recurring now).1
  | .addTimerPtr t => TimerManager.addTimerPtr t
  | .addCondtionTimer ms cb weakCond recurring now =>
    (s.addCondtionTimer ms cb weakCond recurring now).1
  | .cancel t => (Timer.cancel s t).1
  | .refresh t now => Timer.refresh s t now
  | .reset t => Timer.reset s t
  | .resetGap t gap fromNow now => Timer.resetGap s t gap fromNow now
  | .getExpiredCb now clock => (s.getExpiredCb now clock).1

/-- The timer a call is made on. -/
def target : TimerCall C W → Option ℕ
  | .addTimerPtr t | .cancel t | .refresh t _ | .reset t | .resetGap t _ _ _ => some t
  | .addTimer .. | .addCondtionTimer .. | .getExpiredCb .. => none

/-- A call on a timer needs a timer that was created and still has its manager:
`reset()` clears the pointer, and every later call would follow it. -/
def enabled (s : TimerManager F) (c : TimerCall C W) : Bool :=
  match c.target with
  | none => true
  | some t => decide (t < s.created) && (s.timers t).mTimeManager

end TimerCall

namespace TimerManager

/-- One call as a step of the manager. -/
def step (s : TimerManager (TimerFn C W)) (c : TimerCall C W) :
    Option (TimerManager (TimerFn C W)) :=
  if c.enabled s then some (s.edits (c.body s)) else none

end TimerManager

end Sylar
