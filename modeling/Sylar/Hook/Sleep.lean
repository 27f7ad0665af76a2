import Mathlib.Algebra.Ring.Int.Defs
import Sylar.Timer.Model

/-!
# The hooked sleeps

`sleep`, `usleep` and `nanosleep` of `hook.cpp` arm a one-shot timer and run
passes of `idle` until its callback has cleared their local variable `flag`. Each
computes the milliseconds in a type of its own, and `addTimer` takes them as a
`uint64_t`: `sleep` multiplies in `unsigned int`, `nanosleep` narrows to `int`.

* `punctual_iff`: a timer gets the deadline that was asked for exactly when the
  milliseconds fit the type they are computed in.
-/

namespace Sylar

/-- A call of one of the three, `nanosleep` with the fields of `*req`. -/
inductive SleepCall where
  | sleep (seconds : UInt32)
  | usleep (usec : UInt32)
  | nanosleep (tvSec tvNsec : Int64)
  deriving DecidableEq

namespace SleepCall

variable {F : Type}

/-- The milliseconds that a call passes to `addTimer`. -/
def timeoutMs : SleepCall → UInt64
  | .sleep seconds => (seconds * 1000).toUInt64
  | .usleep usec => (usec / 1000).toUInt64
  | .nanosleep tvSec tvNsec =>
    let timeoutMs : Int32 := (tvSec * 1000 + tvNsec / 1000 / 1000).toInt32
    timeoutMs.toInt64.toUInt64

/-- The timer that a call arms, with the edits; none where the hook is off and the
system's function is called. -/
def arm (c : SleepCall) (hookEnable : Bool) (s : TimerManager F) (cb : F) (now : UInt64) :
    Option (List (Edit F) × ℕ) :=
  if hookEnable then some (s.addTimer c.timeoutMs (some cb) false now) else none

/-- The arguments that the three functions admit. -/
def Admitted : SleepCall → Prop
  | .sleep _ | .usleep _ => True
  | .nanosleep tvSec tvNsec =>
    (0 ≤ tvSec.toInt ∧ tvSec.toInt ≤ 2 ^ 40) ∧ 0 ≤ tvNsec.toInt ∧ tvNsec.toInt ≤ 999999999

/-- The duration asked for, in nanoseconds. -/
def nanos : SleepCall → ℤ
  | .sleep seconds => seconds.toNat * 10 ^ 9
  | .usleep usec => usec.toNat * 10 ^ 3
  | .nanosleep tvSec tvNsec => tvSec.toInt * 10 ^ 9 + tvNsec.toInt

/-- Every timer that a call arms has its deadline the duration after the reading of
the clock, in whole milliseconds. -/
def Punctual (c : SleepCall) (hookEnable : Bool) (s : TimerManager F) (cb : F)
    (now : UInt64) : Prop :=
  ∀ es t, c.arm hookEnable s cb now = some (es, t) →
    (((s.edits es).timers t).mNext.toNat : ℤ) = now.toNat + c.nanos / 10 ^ 6

/-- The milliseconds fit: `unsigned int` for `sleep`, `int` for `nanosleep`. -/
def Fits : SleepCall → Prop
  | .sleep seconds => seconds.toNat * 1000 < 2 ^ 32
  | .usleep _ => True
  | .nanosleep tvSec tvNsec => tvSec.toInt * 1000 + tvNsec.toInt / 10 ^ 6 < 2 ^ 31

/-! ## The milliseconds -/

section Milliseconds

variable {seconds usec : UInt32} {tvSec tvNsec : Int64}

theorem timeoutMs_sleep_iff :
    ((sleep seconds).timeoutMs.toNat : ℤ) = (sleep seconds).nanos / 10 ^ 6 ↔
      (sleep seconds).Fits := by
  have computed : (sleep seconds).timeoutMs.toNat = seconds.toNat * 1000 % 2 ^ 32 := by
    rw [timeoutMs, UInt32.toNat_toUInt64, UInt32.toNat_mul]
    rfl
  rw [computed, nanos, Fits]
  omega

theorem timeoutMs_usleep : ((usleep usec).timeoutMs.toNat : ℤ) = (usleep usec).nanos / 10 ^ 6 := by
  have computed : (usleep usec).timeoutMs.toNat = usec.toNat / 1000 := by
    rw [timeoutMs, UInt32.toNat_toUInt64, UInt32.toNat_div]
    rfl
  rw [computed, nanos]
  omega

/-- Before the narrowing nothing is lost. -/
theorem toInt_millis (admitted : (nanosleep tvSec tvNsec).Admitted) :
    (tvSec * 1000 + tvNsec / 1000 / 1000).toInt = (nanosleep tvSec tvNsec).nanos / 10 ^ 6 := by
  obtain ⟨⟨secLow, secHigh⟩, nsecLow, nsecHigh⟩ := admitted
  have thousand : (1000 : Int64).toInt = 1000 := rfl
  have nsec : (tvNsec / 1000 / 1000).toInt = tvNsec.toInt / 10 ^ 6 := by
    have first : (tvNsec / 1000).toInt = tvNsec.toInt / 1000 := by
      rw [Int64.toInt_div, thousand, Int.tdiv_eq_ediv_of_nonneg nsecLow]
      exact Int.bmod_eq_of_le (by omega) (by omega)
    rw [Int64.toInt_div, thousand, first, Int.tdiv_eq_ediv_of_nonneg (by omega)]
    rw [Int.bmod_eq_of_le (by omega) (by omega)]
    omega
  have sec : (tvSec * 1000).toInt = tvSec.toInt * 1000 := by
    rw [Int64.toInt_mul, thousand]
    exact Int.bmod_eq_of_le (by omega) (by omega)
  rw [Int64.toInt_add, sec, nsec, nanos, Int.bmod_eq_of_le (by omega) (by omega)]
  omega

theorem toNat_signExtend (v : Int32) : (v.toInt64.toUInt64.toNat : ℤ) = v.toInt % 2 ^ 64 := by
  have wide : v.toInt64.toInt = (v.toInt64.toUInt64.toNat : ℤ).bmod (2 ^ 64) :=
    BitVec.toInt_eq_toNat_bmod _
  have bounded := v.toInt64.toUInt64.toNat_lt
  rw [← Int32.toInt_toInt64, wide, Int.bmod_def]
  omega

theorem timeoutMs_nanosleep_iff (admitted : (nanosleep tvSec tvNsec).Admitted) :
    ((nanosleep tvSec tvNsec).timeoutMs.toNat : ℤ) = (nanosleep tvSec tvNsec).nanos / 10 ^ 6 ↔
      (nanosleep tvSec tvNsec).Fits := by
  have computed : ((nanosleep tvSec tvNsec).timeoutMs.toNat : ℤ) =
      ((nanosleep tvSec tvNsec).nanos / 10 ^ 6).bmod (2 ^ 32) % 2 ^ 64 := by
    rw [timeoutMs, toNat_signExtend, Int64.toInt_toInt32, toInt_millis admitted]
  obtain ⟨⟨secLow, secHigh⟩, nsecLow, nsecHigh⟩ := admitted
  rw [computed, nanos, Fits, Int.bmod_def]
  omega

end Milliseconds

/-! ## The deadline -/

variable {c : SleepCall} {hookEnable : Bool} {s : TimerManager F} {cb : F} {now : UInt64}
  {es : List (Edit F)} {t : ℕ}

theorem mNext_arm (armed : c.arm true s cb now = some (es, t)) :
    ((s.edits es).timers t).mNext = now + c.timeoutMs := by
  rw [arm, if_pos rfl] at armed
  cases armed
  show (Function.update s.timers s.created _ s.created).mNext = _
  rw [Function.update_self]

/-- The duration is below 2^50 milliseconds. -/
theorem nanos_lt (admitted : c.Admitted) : 0 ≤ c.nanos / 10 ^ 6 ∧ c.nanos / 10 ^ 6 < 2 ^ 51 := by
  cases c with
  | sleep seconds =>
    have bounded := seconds.toNat_lt
    rw [nanos]
    omega
  | usleep usec =>
    have bounded := usec.toNat_lt
    rw [nanos]
    omega
  | nanosleep tvSec tvNsec =>
    obtain ⟨⟨secLow, secHigh⟩, nsecLow, nsecHigh⟩ := admitted
    rw [nanos]
    omega

/-- Below 2^50 the sum with the clock is the duration's exactly when the
milliseconds are. -/
theorem punctual_iff_timeoutMs (admitted : c.Admitted) (clock : now.toNat < 2 ^ 50) :
    c.Punctual true s cb now ↔ (c.timeoutMs.toNat : ℤ) = c.nanos / 10 ^ 6 := by
  have sum : (now + c.timeoutMs).toNat = (now.toNat + c.timeoutMs.toNat) % 2 ^ 64 :=
    UInt64.toNat_add now c.timeoutMs
  obtain ⟨low, high⟩ := nanos_lt admitted
  have bounded := c.timeoutMs.toNat_lt
  constructor
  · intro punctual
    have armed : c.arm true s cb now = some (s.addTimer c.timeoutMs (some cb) false now) :=
      if_pos rfl
    have deadline := punctual _ _ armed
    rw [mNext_arm armed, sum] at deadline
    omega
  · intro same es t armed
    rw [mNext_arm armed, sum]
    omega

/-- For every call with arguments that are admitted, and every reading of the clock
below 2^50: the timer that the call arms has the deadline that was asked for if and
only if the milliseconds fit the type they are computed in. -/
theorem punctual_iff (admitted : c.Admitted) (clock : now.toNat < 2 ^ 50) :
    c.Punctual hookEnable s cb now ↔ (hookEnable = true → c.Fits) := by
  cases hookEnable with
  | false => exact iff_of_true (fun es t armed => nomatch armed) nofun
  | true =>
    rw [punctual_iff_timeoutMs admitted clock, forall_prop_of_true rfl]
    cases c with
    | sleep seconds => exact timeoutMs_sleep_iff
    | usleep usec => exact iff_of_true timeoutMs_usleep trivial
    | nanosleep tvSec tvNsec => exact timeoutMs_nanosleep_iff admitted

/-- The longest sleep in whole seconds, with and without the narrowing to `int`. -/
theorem punctual_longest :
    (sleep 4294967).Punctual true (TimerManager.empty : TimerManager ℕ) 0 100 ∧
    (nanosleep 2147483 647999999).Punctual true (TimerManager.empty : TimerManager ℕ) 0 100 := by
  have clock : (100 : UInt64).toNat < 2 ^ 50 := by decide
  have admitted : (sleep 4294967).Admitted := trivial
  have admitted' : (nanosleep 2147483 647999999).Admitted := ⟨⟨by decide, by decide⟩, by decide⟩
  constructor
  · rw [punctual_iff admitted clock]
    intro _
    show _ < _
    decide
  · rw [punctual_iff admitted' clock]
    intro _
    show _ < _
    decide

/-- One second more: `sleep` wraps to 704 ms, and `nanosleep` to a deadline that is
past when the timer is armed. -/
theorem punctual_fails :
    ¬ (sleep 4294968).Punctual true (TimerManager.empty : TimerManager ℕ) 0 100 ∧
    ¬ (nanosleep 2147484 0).Punctual true (TimerManager.empty : TimerManager ℕ) 0 3000000000 := by
  constructor
  · intro punctual
    have deadline := punctual _ _ rfl
    exact absurd deadline (by decide)
  · intro punctual
    have deadline := punctual _ _ rfl
    exact absurd deadline (by decide)

end SleepCall

end Sylar
