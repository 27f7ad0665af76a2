import Mathlib.Algebra.Ring.Int.Defs
import Sylar.Timer.Alone

/-!
# The arithmetic of deadlines

Deadlines are 64-bit and unsigned. `reset(gap, from_now)` without `from_now`
subtracts the new gap from the old deadline, which is neither the start of the
timer nor a deadline later than it; and `GetNextTimerMs` compares the earliest
deadline with one reading of the clock and subtracts another.

* `restarted_iff`: when `reset(gap, from_now)` moves a timer to its start, or to now,
  and the new gap.
* `neverOversleeps_iff`: the two readings for which the wait is not too long.
-/

namespace Sylar.TimerManager

variable {F C W : Type} {s : TimerManager F} {t u : ℕ} {gap now : UInt64} {fromNow : Bool}

/-! ## `reset(gap, from_now)` -/

/-- Where the new gap is counted from: the clock reading, or the start of the timer. -/
def base (s : TimerManager F) (t : ℕ) (fromNow : Bool) (now : UInt64) : ℤ :=
  if fromNow then now.toNat else (s.timers t).mNext.toNat - (s.timers t).mGap.toNat

/-- What `t.reset(gap, from_now)` is to lead to. -/
structure Restarted (s : TimerManager F) (t : ℕ) (gap : UInt64) (fromNow : Bool) (now : UInt64)
    (s' : TimerManager F) : Prop where
  pending : t ∈ s'.mTimers
  mGap : (s'.timers t).mGap = gap
  mNext : ((s'.timers t).mNext.toNat : ℤ) = s.base t fromNow now + gap.toNat

/-- The deadline that `reset(gap, from_now)` assigns. -/
def resetNext (s : TimerManager F) (t : ℕ) (gap : UInt64) (fromNow : Bool) (now : UInt64) :
    UInt64 :=
  if fromNow then now + gap else (s.timers t).mNext - gap

/-- The gap is counted from now, or twice the new gap is the old one; and no other
pending timer has the new deadline. -/
def Restarts (s : TimerManager F) (t : ℕ) (gap : UInt64) (fromNow : Bool) (now : UInt64) : Prop :=
  (fromNow = true ∨ gap + gap = (s.timers t).mGap ∧
    (s.timers t).mGap.toNat ≤ (s.timers t).mNext.toNat + gap.toNat) ∧
  ∀ u ∈ s.mTimers, u ≠ t → ((s.timers u).mNext.toNat : ℤ) ≠ s.base t fromNow now + gap.toNat

theorem Good.resetGap_timer (good : Good s) (pending : t ∈ s.mTimers) :
    (s.edits (Timer.resetGap s t gap fromNow now)).timers t =
      { s.timers t with mGap := gap, mNext := s.resetNext t gap fromNow now } := by
  rw [resetGap_eq]
  exact good.findAndMove_timer pending _

theorem Good.resetGap_pending (good : Good s) (pending : t ∈ s.mTimers) :
    t ∈ (s.edits (Timer.resetGap s t gap fromNow now)).mTimers ↔
      Room s t (s.resetNext t gap fromNow now) := by
  rw [resetGap_eq, good.findAndMove_eq pending, good.mem_move pending]
  exact ⟨fun both _ => both.2 rfl, fun room => ⟨pending, fun _ => room pending⟩⟩

/-- Subtracting the new gap leads to the start and the new gap only when these two
are the same modulo `2 ^ 64`. -/
theorem sub_eq_restart (next old gap : UInt64)
    (fits : (next.toNat : ℤ) - old.toNat + gap.toNat < 2 ^ 64) :
    ((next - gap).toNat : ℤ) = next.toNat - old.toNat + gap.toNat ↔
      gap + gap = old ∧ old.toNat ≤ next.toNat + gap.toNat := by
  have nextLt := next.toNat_lt
  have oldLt := old.toNat_lt
  have gapLt := gap.toNat_lt
  rw [← UInt64.toNat_inj, UInt64.toNat_sub, UInt64.toNat_add]
  omega

theorem resetNext_eq_iff (fits : s.base t fromNow now + gap.toNat < 2 ^ 64) :
    ((s.resetNext t gap fromNow now).toNat : ℤ) = s.base t fromNow now + gap.toNat ↔
      fromNow = true ∨ gap + gap = (s.timers t).mGap ∧
        (s.timers t).mGap.toNat ≤ (s.timers t).mNext.toNat + gap.toNat := by
  cases fromNow with
  | true =>
    refine iff_of_true ?_ (.inl rfl)
    have fits : (now.toNat : ℤ) + gap.toNat < 2 ^ 64 := fits
    show ((now + gap).toNat : ℤ) = now.toNat + gap.toNat
    rw [UInt64.toNat_add]
    omega
  | false =>
    rw [or_iff_right Bool.false_ne_true]
    exact sub_eq_restart _ _ _ fits

theorem Good.restarted_iff_restarts (good : Good s) (pending : t ∈ s.mTimers)
    (fits : s.base t fromNow now + gap.toNat < 2 ^ 64) :
    Restarted s t gap fromNow now (s.edits (Timer.resetGap s t gap fromNow now)) ↔
      Restarts s t gap fromNow now := by
  have timer : (s.edits (Timer.resetGap s t gap fromNow now)).timers t =
      { s.timers t with mGap := gap, mNext := s.resetNext t gap fromNow now } :=
    good.resetGap_timer pending
  have stays : t ∈ (s.edits (Timer.resetGap s t gap fromNow now)).mTimers ↔
      Room s t (s.resetNext t gap fromNow now) :=
    good.resetGap_pending pending
  have same := resetNext_eq_iff fits
  constructor
  · intro restarted
    have next := restarted.mNext
    rw [timer] at next
    refine ⟨same.mp next, fun u member other clash => ?_⟩
    have room := stays.mp restarted.pending pending u member other
    exact room (UInt64.toNat_inj.mp (Int.ofNat_inj.mp (clash.trans next.symm)))
  · rintro ⟨counted, free⟩
    have next := same.mpr counted
    constructor
    case pending =>
      refine stays.mpr fun _ u member other clash => free u member other ?_
      rw [clash]
      exact next
    case mGap => rw [timer]
    case mNext =>
      rw [timer]
      exact next

variable {m : TimerManager (TimerFn C W)}

/-- In every state that calls reach: `reset(gap, from_now)` on a pending timer leaves it
pending with the new gap, counted from now or from its start, if and only if it is
counted from now or twice the new gap is the old one, and no other pending timer has
the deadline. -/
theorem restarted_iff {calls : List (TimerCall C W)} (run : Runs.exec step empty calls = some m)
    (pending : t ∈ m.mTimers) (fits : m.base t fromNow now + gap.toNat < 2 ^ 64) :
    Restarted m t gap fromNow now (m.edits (Timer.resetGap m t gap fromNow now)) ↔
      Restarts m t gap fromNow now :=
  (good_of_exec run).restarted_iff_restarts pending fits

/-- A timer of 40 ms that is given 20 ms from its start. -/
theorem restarted_iff_half :
    ∃ m : TimerManager (TimerFn Unit Unit),
      Runs.exec step empty [.addTimer 40 (some ()) false 100] = some m ∧
        Restarted m 0 20 false 110 (m.edits (Timer.resetGap m 0 20 false 110)) := by
  have run : Runs.exec step empty [.addTimer 40 (some ()) false 100] =
      some (_ : TimerManager (TimerFn Unit Unit)) := rfl
  refine ⟨_, run, (restarted_iff run (List.mem_singleton.mpr rfl) (by decide)).mpr ⟨.inr ?_, ?_⟩⟩
  · decide
  · intro u member other
    exact absurd (List.mem_singleton.mp member) other

/-- A timer of 10 ms, added at 100 and given 20 ms from its start, is due at 90; given
its own 10 ms, at 100; and given 200 ms, in the last milliseconds of the range. -/
theorem reset_goes_back :
    ∃ m : TimerManager (TimerFn Unit Unit),
      Runs.exec step empty [.addTimer 10 (some ()) false 100] = some m ∧
        ((m.edits (Timer.resetGap m 0 20 false 105)).timers 0).mNext = 90 ∧
        ((m.edits (Timer.resetGap m 0 10 false 105)).timers 0).mNext = 100 ∧
        ((m.edits (Timer.resetGap m 0 200 false 105)).timers 0).mNext = 18446744073709551526 ∧
        ¬ Restarted m 0 20 false 105 (m.edits (Timer.resetGap m 0 20 false 105)) := by
  refine ⟨_, rfl, rfl, rfl, rfl, fun restarted => ?_⟩
  have next := restarted.mNext
  revert next
  decide

/-! ## `GetNextTimerMs` -/

/-- `TimerManager::GetNextTimerMs`, with the two clock readings it may take. -/
def getNextTimerMs (s : TimerManager F) (first second : UInt64) : UInt64 :=
  match s.mTimers with
  | [] => 3000
  | t :: _ => if (s.timers t).mNext ≤ first then 0 else (s.timers t).mNext - second

/-- A wait that ends no later than the deadline `e`, begun at `start`. -/
def NeverOversleeps (wait e start : UInt64) : Prop :=
  (e ≤ start → wait = 0) ∧ (start < e → wait.toNat ≤ e.toNat - start.toNat)

/-- The begin of the set has the earliest deadline. -/
theorem Good.getNextTimerMs_eq (good : Good s) (member : t ∈ s.mTimers)
    (earliest : ∀ u ∈ s.mTimers, (s.timers t).mNext ≤ (s.timers u).mNext)
    (first second : UInt64) :
    s.getNextTimerMs first second =
      if (s.timers t).mNext ≤ first then 0 else (s.timers t).mNext - second := by
  unfold getNextTimerMs
  cases set : s.mTimers with
  | nil =>
    rw [set] at member
    cases member
  | cons a rest =>
    have head : (s.timers t).mNext ≤ (s.timers a).mNext := earliest a (by rw [set]; exact .head _)
    have same : (s.timers a).mNext = (s.timers t).mNext := by
      rw [set] at member
      rcases List.mem_cons.mp member with rfl | later
      · rfl
      · have ordered := good.ordered
        rw [set] at ordered
        have before := ordered.head_lt later
        exact absurd before (Nat.not_lt.mpr (UInt64.le_iff_toNat_le.mp head))
    simp only [same]

/-- For every state that calls reach, with a pending timer of the earliest deadline `e`,
and every two readings of the clock: the wait is not too long if and only if the
deadline has passed at the first reading or has not at the second. -/
theorem neverOversleeps_iff {calls : List (TimerCall C W)}
    (run : Runs.exec step empty calls = some m) (member : t ∈ m.mTimers)
    (earliest : ∀ u ∈ m.mTimers, (m.timers t).mNext ≤ (m.timers u).mNext)
    {first second : UInt64} (later : first ≤ second) :
    NeverOversleeps (m.getNextTimerMs first second) (m.timers t).mNext first ↔
      (m.timers t).mNext ≤ first ∨ second ≤ (m.timers t).mNext := by
  rw [(good_of_exec run).getNextTimerMs_eq member earliest]
  generalize (m.timers t).mNext = e
  unfold NeverOversleeps
  have eLt := e.toNat_lt
  have secondLt := second.toNat_lt
  rw [UInt64.le_iff_toNat_le] at later
  by_cases due : e ≤ first
  · refine iff_of_true ⟨fun _ => if_pos due, fun early => ?_⟩ (.inl due)
    exact absurd early (UInt64.not_lt.mpr due)
  · rw [if_neg due]
    have early := UInt64.not_le.mp due
    simp only [due, early, false_or, true_implies, false_implies, true_and]
    rw [UInt64.toNat_sub, UInt64.le_iff_toNat_le]
    rw [UInt64.lt_iff_toNat_lt] at early
    omega

/-- The clock goes from 105 to 107 within the call, and the deadline is at 110. -/
theorem neverOversleeps_soon :
    ∃ m : TimerManager (TimerFn Unit Unit),
      Runs.exec step empty [.addTimer 10 (some ()) false 100] = some m ∧
        NeverOversleeps (m.getNextTimerMs 105 107) 110 105 := by
  have run : Runs.exec step empty [.addTimer 10 (some ()) false 100] =
      some (_ : TimerManager (TimerFn Unit Unit)) := rfl
  refine ⟨_, run, (neverOversleeps_iff (t := 0) run (List.mem_singleton.mpr rfl) ?_
    (by decide)).mpr (.inr (by decide))⟩
  intro u only
  obtain rfl := List.mem_singleton.mp only
  exact UInt64.le_refl _

/-- The deadline passes between the two readings. -/
theorem oversleeps_past_deadline :
    ∃ m : TimerManager (TimerFn Unit Unit),
      Runs.exec step empty [.addTimer 10 (some ()) false 100] = some m ∧
        m.getNextTimerMs 109 111 = 18446744073709551615 ∧
        ¬ NeverOversleeps (m.getNextTimerMs 109 111) 110 109 := by
  refine ⟨_, rfl, rfl, fun short => ?_⟩
  have bound := short.2 (by decide)
  revert bound
  decide

end Sylar.TimerManager
