import Sylar.Timer.Order

/-!
# Calls that act on one timer

`cancel`, `refresh` and `reset(gap, from_now)` look a timer up by its deadline and
go on with the element found. In a set in order a pending timer finds itself; one
that is not pending finds whatever pending timer has its deadline. And the two
that move the timer lose it when another one has the new deadline.

* `cancelsAlone_iff`, `movesAlone_iff`: when one call acts on its timer alone.
* `alone_iff`: in every state that calls reach, and along every run.
-/

namespace Sylar.TimerManager

variable {F C W : Type} {s : TimerManager F} {t u : ℕ}

/-- What `t.cancel()` is to do: report whether `t` was pending, take it out of the
set, and touch nothing else. -/
structure CancelsAlone (s : TimerManager F) (t : ℕ) : Prop where
  reports : (Timer.cancel s t).2 = true ↔ t ∈ s.mTimers
  members : ∀ u, u ∈ (s.edits (Timer.cancel s t).1).mTimers ↔ u ≠ t ∧ u ∈ s.mTimers
  timers : (s.edits (Timer.cancel s t).1).timers = s.timers

/-- What a call that moves `t` is to do with its edits: make some exactly when `t` is
pending, leave the set of the pending timers as it is, and assign `m_next` and
`m_gap` of `t` only. -/
structure MovesAlone (s : TimerManager F) (t : ℕ) (es : List (Edit F)) : Prop where
  changes : es ≠ [] ↔ t ∈ s.mTimers
  members : ∀ u, u ∈ (s.edits es).mTimers ↔ u ∈ s.mTimers
  others : ∀ u, u ≠ t → (s.edits es).timers u = s.timers u
  own : ∃ next gap, (s.edits es).timers t = { s.timers t with mNext := next, mGap := gap }

/-- A timer that is not pending shares its deadline with no pending timer. -/
def Unmistaken (s : TimerManager F) (t : ℕ) : Prop :=
  t ∉ s.mTimers → ∀ u ∈ s.mTimers, (s.timers u).mNext ≠ (s.timers t).mNext

/-- If `t` is pending, no other pending timer has the deadline it is moved to. -/
def Room (s : TimerManager F) (t : ℕ) (next : UInt64) : Prop :=
  t ∈ s.mTimers → ∀ u ∈ s.mTimers, u ≠ t → (s.timers u).mNext ≠ next

/-! ## Looking a timer up -/

theorem find_eq_none : s.find t = none ↔ t ∉ s.mTimers ∧ Unmistaken s t := by
  constructor
  · intro missing
    have apart : ∀ u ∈ s.mTimers, (s.timers u).mNext ≠ (s.timers t).mNext :=
      fun u member same => KeyedSet.find_eq_none.mp missing u member (congrArg UInt64.toNat same)
    refine ⟨fun member => apart t member rfl, fun _ => apart⟩
  · rintro ⟨absent, apart⟩
    exact KeyedSet.find_eq_none.mpr fun u member same =>
      apart absent u member (UInt64.toNat_inj.mp same)

/-- A lookup goes wrong exactly when it finds another timer. -/
theorem Good.find_other (good : Good s) (mistaken : ¬ Unmistaken s t) :
    t ∉ s.mTimers ∧ ∃ u, s.find t = some u ∧ u ∈ s.mTimers := by
  cases found : s.find t with
  | none => exact absurd (find_eq_none.mp found).2 mistaken
  | some u =>
    refine ⟨fun member => mistaken fun absent => absurd member absent, u, rfl, ?_⟩
    exact (good.find_eq_some.mp found).1

/-! ## Cancelling -/

theorem cancelsAlone_iff (good : Good s) : CancelsAlone s t ↔ Unmistaken s t := by
  constructor
  · intro alone
    by_contra mistaken
    obtain ⟨absent, u, found, -⟩ := good.find_other mistaken
    have reported : (Timer.cancel s t).2 = true := by
      unfold Timer.cancel
      rw [found]
    exact absent (alone.reports.mp reported)
  · intro apart
    by_cases pending : t ∈ s.mTimers
    · have own : Timer.cancel s t = ([.erase t], true) := by
        unfold Timer.cancel
        rw [good.find_self pending]
      constructor
      case reports => simp only [own, pending]
      case members =>
        intro u
        rw [own]
        exact good.mem_erase
      case timers => rw [own, edits_cons, edits_nil, timers_erase]
    · have nothing : Timer.cancel s t = ([], false) := by
        unfold Timer.cancel
        rw [find_eq_none.mpr ⟨pending, apart⟩]
      constructor
      case reports => simp only [nothing, pending, Bool.false_eq_true]
      case members =>
        intro u
        rw [nothing, edits_nil]
        refine ⟨fun member => ⟨?_, member⟩, And.right⟩
        rintro rfl
        exact pending member
      case timers => rw [nothing, edits_nil]

/-! ## Moving -/

/-- The element found is taken out, assigned and put back. -/
def findAndMove (s : TimerManager F) (t : ℕ) (f : Timer F → Timer F) : List (Edit F) :=
  match s.find t with
  | none => []
  | some temp => [.erase temp, .assign temp f, .insert temp]

theorem refresh_eq (s : TimerManager F) (t : ℕ) (now : UInt64) :
    Timer.refresh s t now =
      findAndMove s t fun v => { v with mNext := now + (s.timers t).mGap } := rfl

theorem resetGap_eq (s : TimerManager F) (t : ℕ) (gap : UInt64) (fromNow : Bool) (now : UInt64) :
    Timer.resetGap s t gap fromNow now = findAndMove s t fun v =>
      { v with mGap := gap, mNext := if fromNow then now + gap else v.mNext - gap } := rfl

theorem Good.findAndMove_eq (good : Good s) (pending : t ∈ s.mTimers) (f : Timer F → Timer F) :
    findAndMove s t f = [.erase t, .assign t f, .insert t] := by
  unfold findAndMove
  rw [good.find_self pending]

theorem Good.findAndMove_timer (good : Good s) (pending : t ∈ s.mTimers) (f : Timer F → Timer F) :
    (s.edits (findAndMove s t f)).timers t = f (s.timers t) := by
  rw [good.findAndMove_eq pending]
  exact timers_assign_self (s.edit (.erase t)) f t

theorem movesAlone_iff (good : Good s) {f : Timer F → Timer F}
    (assigns : ∀ v, ∃ next gap, f v = { v with mNext := next, mGap := gap }) :
    MovesAlone s t (findAndMove s t f) ↔
      Unmistaken s t ∧ Room s t (f (s.timers t)).mNext := by
  constructor
  · intro alone
    constructor
    · by_contra mistaken
      obtain ⟨absent, u, found, -⟩ := good.find_other mistaken
      have changed : findAndMove s t f ≠ [] := by
        unfold findAndMove
        rw [found]
        exact List.cons_ne_nil _ _
      exact absent (alone.changes.mp changed)
    · intro pending
      have back := (alone.members t).mpr pending
      rw [good.findAndMove_eq pending] at back
      exact ((good.mem_move pending f).mp back).2 rfl
  · rintro ⟨apart, room⟩
    by_cases pending : t ∈ s.mTimers
    · have own := good.findAndMove_timer pending f
      rw [good.findAndMove_eq pending] at own ⊢
      constructor
      case changes => exact iff_of_true (List.cons_ne_nil _ _) pending
      case members =>
        intro u
        rw [good.mem_move pending f]
        exact ⟨And.left, fun member => ⟨member, fun _ => room pending⟩⟩
      case others => exact fun u other => timers_assign_ne other
      case own =>
        obtain ⟨next, gap, same⟩ := assigns (s.timers t)
        exact ⟨next, gap, own.trans same⟩
    · have nothing : findAndMove s t f = [] := by
        unfold findAndMove
        rw [find_eq_none.mpr ⟨pending, apart⟩]
      rw [nothing]
      constructor
      case changes => exact iff_of_false (fun changed => changed rfl) pending
      case members => exact fun u => Iff.rfl
      case others => exact fun u _ => rfl
      case own => exact ⟨_, _, rfl⟩

/-! ## Runs -/

variable {m m' : TimerManager (TimerFn C W)}

/-- The calls that are to act on one timer do. -/
def ActsAlone (m : TimerManager (TimerFn C W)) : TimerCall C W → Prop
  | .cancel t => CancelsAlone m t
  | .refresh t now => MovesAlone m t (Timer.refresh m t now)
  | .resetGap t gap fromNow now => MovesAlone m t (Timer.resetGap m t gap fromNow now)
  | _ => True

/-- The deadlines are such that a call finds its own timer or none, and that a
timer that is moved finds its place free. -/
def Undisputed (m : TimerManager (TimerFn C W)) : TimerCall C W → Prop
  | .cancel t => Unmistaken m t
  | .refresh t now => Unmistaken m t ∧ Room m t (now + (m.timers t).mGap)
  | .resetGap t gap fromNow now =>
    Unmistaken m t ∧ Room m t (if fromNow then now + gap else (m.timers t).mNext - gap)
  | _ => True

theorem Good.actsAlone_iff (good : Good m) (c : TimerCall C W) :
    ActsAlone m c ↔ Undisputed m c := by
  cases c with
  | cancel t => exact cancelsAlone_iff good
  | refresh t now =>
    have rule := movesAlone_iff (t := t) good
      (f := fun v => { v with mNext := now + (m.timers t).mGap }) fun v => ⟨_, _, rfl⟩
    rwa [← refresh_eq] at rule
  | resetGap t gap fromNow now =>
    have rule := movesAlone_iff (t := t) good (f := fun v =>
      { v with mGap := gap, mNext := if fromNow then now + gap else v.mNext - gap })
      fun v => ⟨_, _, rfl⟩
    rwa [← resetGap_eq] at rule
  | _ => exact Iff.rfl

/-- In every state that calls on one manager and its timers reach, a call acts on its
timer alone if and only if the deadlines are undisputed; and all calls of a run
do if and only if they are at each of them. -/
theorem alone_iff (calls : List (TimerCall C W)) :
    (∀ m, Runs.exec step empty calls = some m → ∀ c : TimerCall C W,
      ActsAlone m c ↔ Undisputed m c) ∧
      (Runs.Along step ActsAlone empty calls ↔
        Runs.Along step Undisputed (empty : TimerManager (TimerFn C W)) calls) := by
  constructor
  · exact fun m run c => (good_of_exec run).actsAlone_iff c
  · exact Runs.along_congr_inv (I := Good) (fun good edge => good.next edge)
      (fun good _ => good.actsAlone_iff _) good_empty

/-- A timer is cancelled, and another one comes to have its deadline. -/
def cancelledBefore : List (TimerCall Unit Unit) :=
  [.addTimer 10 (some ()) false 100, .cancel 0, .addTimer 7 (some ()) false 103]

/-- A second `cancel` of the first timer reports true and takes the second out. -/
theorem cancel_hits_another :
    ∃ m, Runs.exec step empty cancelledBefore = some m ∧ m.mTimers = [1] ∧
      TimerCall.enabled m (.cancel 0 : TimerCall Unit Unit) = true ∧
      Timer.cancel m 0 = ([.erase 1], true) ∧ ¬ CancelsAlone m 0 := by
  refine ⟨_, rfl, rfl, rfl, rfl, fun alone => ?_⟩
  have pending := alone.reports.mp rfl
  revert pending
  decide

end Sylar.TimerManager
