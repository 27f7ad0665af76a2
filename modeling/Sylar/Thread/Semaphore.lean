import Mathlib.Algebra.Group.Nat.Defs
import Mathlib.Tactic.SplitIfs
import Sylar.Lib.Runs

/-!
# The semaphore of a thread

`Semaphore` of `thread.cpp`, on which the constructor of a `Thread` waits until `run` notifies
it. A state has the calls of `wait` and `notify` that were made, each with the place it is at,
and a step is a section of one of them. `value` is a plain `uint32_t`, so that `++` and `--` are
a load and a store, and `notify` does both without `g_mutex`.

* `kept_iff`: the runs that keep count, and keep a wake-up for every blocked `wait` that the
  value has room for, are those of careful steps.
* `no_lost_wakeup`: none of their states has lost a wake-up.
-/

namespace Sylar.Semaphore

/-- The places in `wait`. The lock is held from `testing` on, up to the block or the return;
`woken` is behind a block, and the flag says that the test came after one. -/
inductive WaitPc where
  | locking
  | testing (again : Bool)
  | blocking
  | blocked
  | woken
  | taking (again : Bool)
  | storing (again : Bool) (loaded : UInt32)
  | returned
  deriving DecidableEq

/-- The places in `notify`. -/
inductive NotifyPc where
  | started
  | storing (loaded : UInt32)
  | signalling
  | returned
  deriving DecidableEq

inductive Call where
  | wait (pc : WaitPc)
  | notify (pc : NotifyPc)
  deriving DecidableEq

/-- A semaphore, `g_mutex`, and the calls. -/
structure State where
  value : UInt32
  gMutex : Bool
  calls : List Call

/-- The constructor. -/
def init (count : UInt32) : State := ⟨count, false, []⟩

/-- The next section of a call: the value, the mutex and the place behind it. A blocked `wait`
has none, and the signal is not one of these. -/
def move (value : UInt32) (gMutex : Bool) : Call → Option (UInt32 × Bool × Call)
  | .wait .locking => if gMutex = true then none else some (value, true, .wait (.testing false))
  | .wait (.testing again) =>
    if 0 < value then some (value, gMutex, .wait (.taking again))
    else some (value, gMutex, .wait .blocking)
  | .wait .blocking => some (value, false, .wait .blocked)
  | .wait .blocked => none
  | .wait .woken => if gMutex = true then none else some (value, true, .wait (.testing true))
  | .wait (.taking again) => some (value, gMutex, .wait (.storing again value))
  | .wait (.storing _ loaded) => some (loaded - 1, false, .wait .returned)
  | .wait .returned => none
  | .notify .started => some (value, gMutex, .notify (.storing value))
  | .notify (.storing loaded) => some (loaded + 1, gMutex, .notify .signalling)
  | .notify .signalling => none
  | .notify .returned => none

/-- A new call, a section of one, the signal of a `notify` with the `wait` that it wakes, or a
spurious wake-up. -/
inductive Act where
  | startWait
  | startNotify
  | run (i : ℕ)
  | signal (i : ℕ) (woken : Option ℕ)
  | spurious (i : ℕ)

/-- A step. `notify_one` wakes a blocked call if there is one. -/
def step (s : State) : Act → Option State
  | .startWait => some { s with calls := s.calls ++ [.wait .locking] }
  | .startNotify => some { s with calls := s.calls ++ [.notify .started] }
  | .run i => do
    let c ← s.calls[i]?
    let (value, gMutex, next) ← move s.value s.gMutex c
    some ⟨value, gMutex, s.calls.set i next⟩
  | .signal i none =>
    if s.calls[i]? = some (.notify .signalling) ∧ .wait .blocked ∉ s.calls then
      some { s with calls := s.calls.set i (.notify .returned) }
    else none
  | .signal i (some j) =>
    if s.calls[i]? = some (.notify .signalling) ∧ s.calls[j]? = some (.wait .blocked) then
      some { s with calls := (s.calls.set i (.notify .returned)).set j (.wait .woken) }
    else none
  | .spurious i =>
    if s.calls[i]? = some (.wait .blocked) then
      some { s with calls := s.calls.set i (.wait .woken) }
    else none

/-! ## The calls at a place -/

/-- What the calls are counted by. -/
inductive Place where
  | blocked
  | coming
  | signalling
  | returned
  | incremented
  | inside
  | taking

/-- Coming is a `wait` that was woken and has not taken its unit, or blocked again; incremented
a `notify` behind its store; inside a `wait` that holds the lock. -/
def Place.has : Place → Call → Bool
  | blocked, .wait .blocked => true
  | coming, .wait .woken => true
  | coming, .wait (.testing again) => again
  | coming, .wait (.taking again) => again
  | coming, .wait (.storing again _) => again
  | signalling, .notify .signalling => true
  | returned, .wait .returned => true
  | incremented, .notify .signalling => true
  | incremented, .notify .returned => true
  | inside, .wait (.testing _) => true
  | inside, .wait .blocking => true
  | inside, .wait (.taking _) => true
  | inside, .wait (.storing _ _) => true
  | taking, .wait (.taking _) => true
  | taking, .wait (.storing _ _) => true
  | _, _ => false

/-- How many calls are at a place. -/
def number (calls : List Call) (p : Place) : ℕ := calls.countP p.has

/-- Every `notify` has returned, and a blocked `wait` has a unit of the value that no wake-up
is pending for. -/
structure Lost (s : State) : Prop where
  notified : ∀ pc, .notify pc ∈ s.calls → pc = .returned
  blocked : .wait .blocked ∈ s.calls
  left : number s.calls .coming < s.value.toNat

/-- The units that were taken and those that are left are those of the start and of the
increments. -/
def Counted (count : UInt32) (s : State) : Prop :=
  number s.calls .returned + s.value.toNat = count.toNat + number s.calls .incremented

/-- Every blocked call has a signal that will come, or every unit a call or a signal. -/
def Covered (s : State) : Prop :=
  number s.calls .blocked ≤ number s.calls .signalling ∨
    s.value.toNat ≤ number s.calls .coming + number s.calls .signalling

/-- The condition on a section: a `wait` does not block where that leaves it uncovered, a store
goes over the value that was loaded, and an increment does not wrap around. -/
def CarefulAt (s : State) : Call → Prop
  | .wait .blocking => number s.calls .blocked < number s.calls .signalling ∨
      s.value.toNat ≤ number s.calls .coming + number s.calls .signalling
  | .wait (.storing _ loaded) => s.value = loaded
  | .notify (.storing loaded) => s.value = loaded ∧ loaded.toNat + 1 < 2 ^ 32
  | _ => True

/-- The condition on a step. -/
def Careful (s : State) : Act → Prop
  | .run i => ∀ c, s.calls[i]? = some c → CarefulAt s c
  | _ => True

/-- The lock is held by one call at most. -/
def Exclusive (s : State) : Prop := number s.calls .inside = s.gMutex.toNat

/-- A call that is to take a unit finds one. -/
def Stocked (s : State) : Prop := 0 < number s.calls .taking → 0 < s.value.toNat

/-- What careful steps keep. -/
structure Kept (count : UInt32) (s : State) : Prop where
  counted : Counted count s
  covered : Covered s
  stocked : Stocked s

variable {s t : State} {calls : List Call} {i j : ℕ} {c next : Call} {count : UInt32}

/-! ## Numbers -/

/-- Setting an element moves the count by what the two say. -/
theorem countP_set_add {α : Type*} {l : List α} {i : ℕ} {x : α} (p : α → Bool) (y : α)
    (here : l[i]? = some x) :
    (l.set i y).countP p + (p x).toNat = l.countP p + (p y).toNat := by
  obtain ⟨inside, rfl⟩ := List.getElem?_eq_some_iff.mp here
  have within : (p l[i]).toNat ≤ l.countP p := by
    cases counts : p l[i] with
    | false => exact Nat.zero_le _
    | true => exact List.countP_pos_iff.mpr ⟨l[i], List.getElem_mem inside, counts⟩
  rw [List.countP_set inside, ← Bool.cond_eq_ite, ← Bool.cond_eq_ite]
  show l.countP p - (p l[i]).toNat + (p y).toNat + (p l[i]).toNat = l.countP p + (p y).toNat
  omega

/-- The numbers after a call has changed its place. -/
theorem number_set (here : calls[i]? = some c) (next : Call) (p : Place) :
    number (calls.set i next) p + (p.has c).toNat = number calls p + (p.has next).toNat :=
  countP_set_add p.has next here

theorem number_set_same {p : Place} (here : calls[i]? = some c) (same : p.has next = p.has c) :
    number (calls.set i next) p = number calls p := by
  have moved := number_set here next p
  rw [same] at moved
  exact Nat.add_right_cancel moved

/-- The numbers after a signal and the wake-up of a blocked call. -/
theorem number_signal (here : calls[i]? = some (.notify .signalling))
    (there : calls[j]? = some (.wait .blocked)) (p : Place) :
    number ((calls.set i (.notify .returned)).set j (.wait .woken)) p +
        ((p.has (.notify .signalling)).toNat + (p.has (.wait .blocked)).toNat) =
      number calls p + ((p.has (.notify .returned)).toNat + (p.has (.wait .woken)).toNat) := by
  have apart : i ≠ j := fun same => by
    rw [same, there] at here
    cases here
  have still : (calls.set i (.notify .returned))[j]? = some (.wait .blocked) :=
    (List.getElem?_set_ne apart).trans there
  have signal := number_set here (.notify .returned) p
  have wake := number_set still (.wait .woken) p
  omega

theorem number_append (p : Place) (fresh : p.has next = false) :
    number (calls ++ [next]) p = number calls p := by
  rw [number, List.countP_append, List.countP_singleton, fresh]
  rfl

theorem has_blocked : Place.blocked.has c = true ↔ c = .wait .blocked := by
  constructor
  · intro blocked
    cases c with
    | wait pc =>
      cases pc with
      | blocked => rfl
      | locking => cases blocked
      | testing again => cases blocked
      | blocking => cases blocked
      | woken => cases blocked
      | taking again => cases blocked
      | storing again loaded => cases blocked
      | returned => cases blocked
    | notify pc => cases blocked
  · rintro rfl
    rfl

theorem number_blocked_eq_zero : number calls .blocked = 0 ↔ .wait .blocked ∉ calls := by
  rw [number, List.countP_eq_zero]
  constructor
  · intro none inCalls
    exact none _ inCalls rfl
  · intro nobody d inCalls blocked
    exact nobody (has_blocked.mp blocked ▸ inCalls)

/-- A call that takes a unit holds the lock. -/
theorem number_taking_le (calls : List Call) : number calls .taking ≤ number calls .inside := by
  apply List.countP_mono_left
  intro c inCalls taking
  cases c with
  | wait pc =>
    cases pc with
    | taking again => rfl
    | storing again loaded => rfl
    | locking => cases taking
    | testing again => cases taking
    | blocking => cases taking
    | blocked => cases taking
    | woken => cases taking
    | returned => cases taking
  | notify pc => cases taking

/-! ## A section of a call -/

theorem step_run (ran : step s (.run i) = some t) :
    ∃ c value gMutex next, s.calls[i]? = some c ∧
      move s.value s.gMutex c = some (value, gMutex, next) ∧
      t = ⟨value, gMutex, s.calls.set i next⟩ := by
  obtain ⟨c, here, later⟩ := Option.bind_eq_some_iff.mp ran
  obtain ⟨⟨value, gMutex, next⟩, moved, same⟩ := Option.bind_eq_some_iff.mp later
  exact ⟨c, value, gMutex, next, here, moved, (Option.some.inj same).symm⟩

theorem careful_run (here : s.calls[i]? = some c) : Careful s (.run i) ↔ CarefulAt s c := by
  constructor
  · intro careful
    exact careful c here
  · intro careful d there
    obtain rfl := Option.some.inj (here.symm.trans there)
    exact careful

/-! ## The lock -/

/-- A call that does not go in or out leaves the lock as it is. -/
theorem exclusive_set {value : UInt32} (here : s.calls[i]? = some c)
    (alike : Place.inside.has next = Place.inside.has c) (exclusive : Exclusive s) :
    Exclusive ⟨value, s.gMutex, s.calls.set i next⟩ :=
  (number_set_same here alike).trans exclusive

/-- A call that goes in takes a free lock. -/
theorem exclusive_lock {value : UInt32} (here : s.calls[i]? = some c)
    (outside : Place.inside.has c = false) (inside : Place.inside.has next = true)
    (free : s.gMutex = false) (exclusive : Exclusive s) :
    Exclusive ⟨value, true, s.calls.set i next⟩ := by
  have moved := number_set here next .inside
  rw [outside, inside, show number s.calls .inside = s.gMutex.toNat from exclusive, free] at moved
  exact moved

/-- A call that goes out was the only one inside. -/
theorem exclusive_unlock {value : UInt32} (here : s.calls[i]? = some c)
    (inside : Place.inside.has c = true) (outside : Place.inside.has next = false)
    (exclusive : Exclusive s) : Exclusive ⟨value, false, s.calls.set i next⟩ := by
  have moved := number_set here next .inside
  have held := s.gMutex.toNat_le
  rw [outside, inside, show number s.calls .inside = s.gMutex.toNat from exclusive,
    Bool.toNat_true, Bool.toNat_false] at moved
  show number (s.calls.set i next) .inside = 0
  omega

theorem run_exclusive (exclusive : Exclusive s) (ran : step s (.run i) = some t) :
    Exclusive t := by
  obtain ⟨c, value, gMutex, next, here, moved, rfl⟩ := step_run ran
  cases c with
  | wait pc =>
    cases pc with
    | locking =>
      obtain ⟨held, same⟩ := Option.ite_none_left_eq_some.mp moved
      cases same
      exact exclusive_lock here rfl rfl (Bool.not_eq_true _ ▸ held) exclusive
    | testing again =>
      simp only [move] at moved
      split_ifs at moved with some
      · cases moved
        exact exclusive_set here rfl exclusive
      · cases moved
        exact exclusive_set here rfl exclusive
    | blocking =>
      cases moved
      exact exclusive_unlock here rfl rfl exclusive
    | blocked => cases moved
    | woken =>
      obtain ⟨held, same⟩ := Option.ite_none_left_eq_some.mp moved
      cases same
      exact exclusive_lock here rfl rfl (Bool.not_eq_true _ ▸ held) exclusive
    | taking again =>
      cases moved
      exact exclusive_set here rfl exclusive
    | storing again loaded =>
      cases moved
      exact exclusive_unlock here rfl rfl exclusive
    | returned => cases moved
  | notify pc =>
    cases pc with
    | started =>
      cases moved
      exact exclusive_set here rfl exclusive
    | storing loaded =>
      cases moved
      exact exclusive_set here rfl exclusive
    | signalling => cases moved
    | returned => cases moved

/-- At most one call holds the lock, whatever the steps. -/
theorem step_exclusive {a : Act} (exclusive : Exclusive s) (ran : step s a = some t) :
    Exclusive t := by
  cases a with
  | startWait =>
    cases ran
    exact (number_append .inside rfl).trans exclusive
  | startNotify =>
    cases ran
    exact (number_append .inside rfl).trans exclusive
  | run i => exact run_exclusive exclusive ran
  | signal i woken =>
    cases woken with
    | none =>
      obtain ⟨⟨here, nobody⟩, same⟩ := Option.ite_none_right_eq_some.mp ran
      cases same
      exact exclusive_set here rfl exclusive
    | some j =>
      obtain ⟨⟨here, there⟩, same⟩ := Option.ite_none_right_eq_some.mp ran
      cases same
      exact (number_signal here there .inside).trans exclusive
  | spurious i =>
    obtain ⟨here, same⟩ := Option.ite_none_right_eq_some.mp ran
    cases same
    exact exclusive_set here rfl exclusive

/-! ## What careful steps keep -/

/-- A step that leaves alone the value and who takes a unit: only the wake-ups change. -/
theorem kept_of (kept : Kept count s) (value : t.value = s.value)
    (taking : number t.calls .taking = number s.calls .taking)
    (returned : number t.calls .returned = number s.calls .returned)
    (incremented : number t.calls .incremented = number s.calls .incremented)
    (covered : Covered t) : Kept count t where
  counted := by
    rw [Counted, returned, incremented, value]
    exact kept.counted
  covered := covered
  stocked := by
    rw [Stocked, taking, value]
    exact kept.stocked

theorem kept_iff_and : Kept count s ↔ Counted count s ∧ Covered s ∧ Stocked s :=
  ⟨fun kept => ⟨kept.counted, kept.covered, kept.stocked⟩, fun all => ⟨all.1, all.2.1, all.2.2⟩⟩

/-- A section keeps what careful steps keep exactly when it is careful. -/
theorem run_kept_iff (exclusive : Exclusive s) (kept : Kept count s)
    (ran : step s (.run i) = some t) : Kept count t ↔ Careful s (.run i) := by
  obtain ⟨c, value, gMutex, next, here, moved, rfl⟩ := step_run ran
  have tally := number_set here next
  have blocked := tally .blocked
  have coming := tally .coming
  have signalling := tally .signalling
  have returned := tally .returned
  have incremented := tally .incremented
  have taking := tally .taking
  clear tally
  rw [careful_run here]
  simp only [kept_iff_and, Counted, Covered, Stocked] at kept ⊢
  cases c with
  | wait pc =>
    cases pc with
    | locking =>
      obtain ⟨-, same⟩ := Option.ite_none_left_eq_some.mp moved
      cases same
      simp only [Place.has, Bool.toNat_false, CarefulAt, iff_true] at *
      omega
    | testing again =>
      simp only [move] at moved
      split_ifs at moved with some
      · -- The value that the test saw stocks the call.
        cases moved
        rw [UInt32.lt_iff_toNat_lt, UInt32.toNat_zero] at some
        simp only [Place.has, Bool.toNat_false, Bool.toNat_true, CarefulAt, iff_true] at *
        omega
      · -- The call may have been coming, but there is no unit left to cover.
        cases moved
        rw [UInt32.lt_iff_toNat_lt, UInt32.toNat_zero] at some
        simp only [Place.has, Bool.toNat_false, CarefulAt, iff_true] at *
        omega
    | blocking =>
      -- One more is blocked: the condition is what covers it.
      cases moved
      simp only [Place.has, Bool.toNat_false, Bool.toNat_true, CarefulAt] at *
      omega
    | blocked => cases moved
    | woken =>
      obtain ⟨-, same⟩ := Option.ite_none_left_eq_some.mp moved
      cases same
      simp only [Place.has, Bool.toNat_false, Bool.toNat_true, CarefulAt, iff_true] at *
      omega
    | taking again =>
      cases moved
      simp only [Place.has, Bool.toNat_false, Bool.toNat_true, CarefulAt, iff_true] at *
      omega
    | storing again loaded =>
      -- Nobody else has the lock, so that the value stays above zero up to here.
      cases moved
      have alone : number s.calls .taking ≤ 1 := by
        rw [Exclusive] at exclusive
        exact Nat.le_trans (number_taking_le s.calls) (exclusive ▸ s.gMutex.toNat_le)
      have flag := again.toNat_le
      have stored : (loaded - 1).toNat = (2 ^ 32 - 1 + loaded.toNat) % 2 ^ 32 :=
        UInt32.toNat_sub loaded 1
      have same : s.value = loaded ↔ s.value.toNat = loaded.toNat := UInt32.toNat_inj.symm
      have small := s.value.toNat_lt
      have little := loaded.toNat_lt
      simp only [Place.has, Bool.toNat_false, Bool.toNat_true, CarefulAt, same] at *
      omega
    | returned => cases moved
  | notify pc =>
    cases pc with
    | started =>
      cases moved
      simp only [Place.has, Bool.toNat_false, CarefulAt, iff_true] at *
      omega
    | storing loaded =>
      -- The signal that is to come covers the new unit.
      cases moved
      have stored : (loaded + 1).toNat = (loaded.toNat + 1) % 2 ^ 32 := UInt32.toNat_add loaded 1
      have same : s.value = loaded ↔ s.value.toNat = loaded.toNat := UInt32.toNat_inj.symm
      have small := s.value.toNat_lt
      have little := loaded.toNat_lt
      simp only [Place.has, Bool.toNat_false, Bool.toNat_true, CarefulAt, same] at *
      omega
    | signalling => cases moved
    | returned => cases moved

/-- A new call is counted nowhere. -/
theorem start_kept (fresh : ∀ p : Place, p.has next = false) (kept : Kept count s) :
    Kept count { s with calls := s.calls ++ [next] } := by
  have same (p : Place) : number (s.calls ++ [next]) p = number s.calls p :=
    number_append p (fresh p)
  refine kept_of kept rfl (same _) (same _) (same _) ?_
  rw [Covered, same, same, same]
  exact kept.covered

/-- A spurious wake-up: one less is blocked. -/
theorem spurious_kept (here : s.calls[i]? = some (.wait .blocked)) (kept : Kept count s) :
    Kept count { s with calls := s.calls.set i (.wait .woken) } := by
  refine kept_of kept rfl (number_set_same here rfl) (number_set_same here rfl)
    (number_set_same here rfl) ?_
  have covered := kept.covered
  have blocked : number (s.calls.set i (.wait .woken)) .blocked + 1 = number s.calls .blocked :=
    number_set here _ .blocked
  have coming : number (s.calls.set i (.wait .woken)) .coming = number s.calls .coming + 1 :=
    number_set here _ .coming
  have signalling : number (s.calls.set i (.wait .woken)) .signalling =
      number s.calls .signalling := number_set here _ .signalling
  simp only [Covered] at covered ⊢
  rcases covered with fewer | fewer
  · exact .inl (by omega)
  · exact .inr (by omega)

/-- A signal that finds nobody blocked. -/
theorem signal_none_kept (here : s.calls[i]? = some (.notify .signalling))
    (nobody : .wait .blocked ∉ s.calls) (kept : Kept count s) :
    Kept count { s with calls := s.calls.set i (.notify .returned) } := by
  refine kept_of kept rfl (number_set_same here rfl) (number_set_same here rfl)
    (number_set_same here rfl) (.inl ?_)
  have blocked : number (s.calls.set i (.notify .returned)) .blocked = number s.calls .blocked :=
    number_set here _ .blocked
  simp only [blocked, number_blocked_eq_zero.mpr nobody]
  exact Nat.zero_le _

/-- A signal that wakes a blocked call: one less is blocked, and one signal less is to come. -/
theorem signal_some_kept (here : s.calls[i]? = some (.notify .signalling))
    (there : s.calls[j]? = some (.wait .blocked)) (kept : Kept count s) :
    Kept count { s with calls := (s.calls.set i (.notify .returned)).set j (.wait .woken) } := by
  have tally := number_signal here there
  refine kept_of kept rfl (tally .taking) (tally .returned)
    (Nat.add_right_cancel (tally .incremented)) ?_
  have covered := kept.covered
  have blocked := tally .blocked
  have coming := tally .coming
  have signalling := tally .signalling
  simp only [Place.has, Bool.toNat_false, Bool.toNat_true] at blocked coming signalling
  simp only [Covered] at covered ⊢
  rcases covered with fewer | fewer
  · exact .inl (by omega)
  · exact .inr (by omega)

theorem step_kept_iff {a : Act} (exclusive : Exclusive s) (kept : Kept count s)
    (ran : step s a = some t) : Kept count t ↔ Careful s a := by
  cases a with
  | startWait =>
    cases ran
    exact iff_true_intro (start_kept (fun p => by cases p <;> rfl) kept)
  | startNotify =>
    cases ran
    exact iff_true_intro (start_kept (fun p => by cases p <;> rfl) kept)
  | run i => exact run_kept_iff exclusive kept ran
  | signal i woken =>
    cases woken with
    | none =>
      obtain ⟨⟨here, nobody⟩, same⟩ := Option.ite_none_right_eq_some.mp ran
      cases same
      exact iff_true_intro (signal_none_kept here nobody kept)
    | some j =>
      obtain ⟨⟨here, there⟩, same⟩ := Option.ite_none_right_eq_some.mp ran
      cases same
      exact iff_true_intro (signal_some_kept here there kept)
  | spurious i =>
    obtain ⟨here, same⟩ := Option.ite_none_right_eq_some.mp ran
    cases same
    exact iff_true_intro (spurious_kept here kept)

/-! ## Runs -/

theorem init_exclusive (count : UInt32) : Exclusive (init count) := rfl

theorem init_kept (count : UInt32) : Kept count (init count) where
  counted := Nat.zero_add _
  covered := .inl (Nat.le_refl _)
  stocked none := absurd none (Nat.lt_irrefl 0)

/-- The runs that keep count and keep every blocked call covered are those of careful steps. -/
theorem kept_iff (count : UInt32) (as : List Act) :
    Runs.Always step (Kept count) (init count) as ↔ Runs.Along step Careful (init count) as :=
  Runs.always_iff_along step_exclusive step_kept_iff (init_exclusive count) (init_kept count)

/-- A covered state has lost nothing. -/
theorem not_lost (covered : Covered s) : ¬ Lost s := by
  intro lost
  have blocked : number s.calls .blocked ≠ 0 :=
    fun none => number_blocked_eq_zero.mp none lost.blocked
  have signalled : number s.calls .signalling = 0 := by
    rw [number, List.countP_eq_zero]
    intro c inCalls signalling
    cases c with
    | wait pc => cases signalling
    | notify pc =>
      rw [lost.notified pc inCalls] at signalling
      cases signalling
  have left := lost.left
  rw [Covered, signalled] at covered
  omega

/-- In a run of careful steps no wake-up is lost, and no unit. -/
theorem no_lost_wakeup (count : UInt32) (as : List Act)
    (careful : Runs.Along step Careful (init count) as) :
    Runs.Always step (fun s => ¬ Lost s ∧ Counted count s) (init count) as :=
  ((kept_iff count as).mpr careful).mono fun _ kept => ⟨not_lost kept.covered, kept.counted⟩

/-- A thread starts up: its constructor blocks, and `run` wakes it. -/
def startUp : List Act :=
  [.startWait, .run 0, .run 0, .run 0, .startNotify, .run 1, .run 1, .signal 1 (some 0),
    .run 0, .run 0, .run 0, .run 0]

theorem startUp_kept : ∃ t, Runs.exec step (init 0) startUp = some t ∧
    t.calls = [.wait .returned, .notify .returned] ∧ ¬ Lost t ∧ Counted 0 t := by
  have careful : Runs.Along step Careful (init 0) startUp := by
    have quiet {s : State} {i : ℕ} {c : Call} (here : s.calls[i]? = some c)
        (at_c : CarefulAt s c) : Careful s (.run i) := (careful_run here).mpr at_c
    refine Runs.along_cons trivial rfl ?_
    refine Runs.along_cons (quiet rfl trivial) rfl ?_
    refine Runs.along_cons (quiet rfl trivial) rfl ?_
    refine Runs.along_cons (quiet rfl (.inr (Nat.zero_le _))) rfl ?_
    refine Runs.along_cons trivial rfl ?_
    refine Runs.along_cons (quiet rfl trivial) rfl ?_
    refine Runs.along_cons (quiet rfl ⟨rfl, by decide⟩) rfl ?_
    refine Runs.along_cons trivial rfl ?_
    refine Runs.along_cons (quiet rfl trivial) rfl ?_
    refine Runs.along_cons (quiet rfl trivial) rfl ?_
    refine Runs.along_cons (quiet rfl trivial) rfl ?_
    exact Runs.along_cons (quiet rfl rfl) rfl trivial
  exact ⟨_, rfl, rfl, (no_lost_wakeup 0 startUp careful).last rfl⟩

/-- A thread hangs: `run` increments and signals between the test of the constructor and its
block. -/
def hanging : List Act :=
  [.startWait, .run 0, .run 0, .startNotify, .run 1, .run 1, .signal 1 none, .run 0]

theorem hanging_lost : ¬ (∀ count as,
    Runs.Always step (fun s => ¬ Lost s ∧ Counted count s) (init count) as) := by
  intro never
  refine ((never 0 hanging).last rfl).1 ⟨?_, List.mem_cons_self, ?_⟩
  · intro pc inCalls
    have calls : .notify pc ∈ [Call.wait .blocked, .notify .returned] := inCalls
    rcases List.mem_cons.mp calls with other | rest
    · cases other
    · exact Call.notify.inj (List.mem_singleton.mp rest)
  · decide

end Sylar.Semaphore
