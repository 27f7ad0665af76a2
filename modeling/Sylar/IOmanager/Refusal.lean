import Sylar.IOmanager.Effects
import Sylar.Lib.Runs

/-!
# Calls that return `false`

`addEvent` and `changerEvent` write the context before they ask the kernel,
`delEvent` counts down before it does, and `cancel` erases the context. None of
them undoes the update when the request is refused.

* `untouched_iff`: when a single call that returns `false` has left the table
  and the counter as they were.
* `untouched_along_iff`: the same along every run.
-/

namespace Sylar.IOmanager

open Epoll

variable {Cb : Type}

/-- What callers see of a context: the mask, the flag and the callbacks. -/
def view (ctx : FdContext Cb) : Event × Bool × Option Cb × Option Cb :=
  (ctx.eventsNow, ctx.flag, ctx.read.mCb, ctx.write.mCb)

/-- Two states with the same table and the same counter. -/
def Same (s s' : IOmanager Cb) : Prop :=
  (∀ fd, (s'.mEvents.lookup fd).map view = (s.mEvents.lookup fd).map view) ∧
    s'.mNumberEvent = s.mNumberEvent

/-- A call that returns `false` leaves the table and the counter as they were. -/
def Untouched (s : IOmanager Cb) : IOStep Cb → Prop
  | .call c refuse => (s.apply c refuse).2.Failed → Same s (s.apply c refuse).1
  | .report _ _ => True

/-- The calls with nothing to undo: the descriptor is unknown or the event
empty, the kernel takes the request, or the context holds already what the call
writes. -/
def Settled (s : IOmanager Cb) : IOStep Cb → Prop
  | .call (.addEvent fd cb event change _) refuse =>
    event = Event.NONE ∨ Accepts s.epoll (s.addedOp fd) fd refuse ∨
      ∃ ctx, s.mEvents.lookup fd = some ctx ∧ ctx.eventsNow = event ∧ ctx.flag = change ∧
        (event = Event.READ → ctx.read.mCb = cb) ∧ (event = Event.WRITE → ctx.write.mCb = cb)
  | .call (.delEvent fd _ _) refuse | .call (.cancel fd) refuse =>
    s.mEvents.lookup fd = none ∨ Accepts s.epoll .del fd refuse
  | .call (.changerEvent fd event) refuse =>
    s.mEvents.lookup fd = none ∨ Accepts s.epoll .mod fd refuse ∨
      ∃ ctx, s.mEvents.lookup fd = some ctx ∧ ctx.eventsNow = event
  | .report _ _ => True

variable {s : IOmanager Cb} {fd : Int32}

theorem same_refl : Same s s := ⟨fun _ => rfl, rfl⟩

/-- Writing a context is not seen when it looks like the one stored. -/
theorem same_insert {ctx : FdContext Cb} :
    Same s { s with mEvents := s.mEvents.insert fd ctx } ↔
      ∃ old, s.mEvents.lookup fd = some old ∧ view ctx = view old := by
  constructor
  · intro same
    have here := same.1 fd
    rw [lookup_insert, if_pos rfl, Option.map_some, eq_comm, Option.map_eq_some_iff] at here
    obtain ⟨old, found, eq⟩ := here
    exact ⟨old, found, eq.symm⟩
  · rintro ⟨old, found, eq⟩
    refine ⟨fun other => ?_, rfl⟩
    rw [lookup_insert]
    by_cases here : other = fd
    · rw [if_pos here, here, found, Option.map_some, Option.map_some, eq]
    · rw [if_neg here]

theorem not_same_erase {ctx : FdContext Cb} (found : s.mEvents.lookup fd = some ctx) :
    ¬ Same s { s with mEvents := s.mEvents.erase fd } := by
  intro same
  have here := same.1 fd
  rw [lookup_erase, if_pos rfl, found] at here
  cases here

theorem not_same_count (s : IOmanager Cb) :
    ¬ Same s { s with mNumberEvent := s.mNumberEvent - 1 } := by
  intro same
  have number : s.mNumberEvent - 1 = s.mNumberEvent := same.2
  have bits := congrArg UInt64.toBitVec number
  rw [UInt64.toBitVec_sub, UInt64.toBitVec_one] at bits
  bv_omega

/-- What `addEvent` writes into a stored context. -/
theorem view_addedContext {old : FdContext Cb} (found : s.mEvents.lookup fd = some old)
    (cb : Option Cb) (event : Event) (change : Bool) (alloc : BitVec 64) :
    view (s.addedContext fd cb event change alloc) = view old ↔
      old.eventsNow = event ∧ old.flag = change ∧
        (event = Event.READ → old.read.mCb = cb) ∧ (event = Event.WRITE → old.write.mCb = cb) := by
  have apart : Event.READ ≠ Event.WRITE := by decide
  unfold addedContext FdContext.reset view
  rw [found, Option.getD_some]
  by_cases reading : event = Event.READ
  · subst reading
    simp only [ne_eq, not_true_eq_false, false_and, if_false, if_true, Prod.mk.injEq, apart,
      IsEmpty.forall_iff, and_true, forall_const, eq_comm]
  · by_cases writing : event = Event.WRITE
    · subst writing
      simp only [ne_eq, not_true_eq_false, and_false, if_false, apart.symm, Prod.mk.injEq,
        IsEmpty.forall_iff, true_and, forall_const, eq_comm]
    · simp only [ne_eq, reading, writing, not_false_eq_true, and_self, if_true, Prod.mk.injEq,
        IsEmpty.forall_iff, and_true, eq_comm]

theorem untouched_addEvent (cb : Option Cb) (event : Event) (change : Bool) (alloc : BitVec 64)
    (refuse : Option Errno) :
    Untouched s (.call (.addEvent fd cb event change alloc) refuse) ↔
      Settled s (.call (.addEvent fd cb event change alloc) refuse) := by
  unfold Untouched Settled apply
  dsimp only
  rcases s.addEvent_cases fd cb event change alloc refuse with
    ⟨empty, after, -⟩ | ⟨event', refused, after, failed⟩ | ⟨-, accepted, -, taken⟩
  · rw [after]
    exact iff_of_true (fun _ => same_refl) (.inl empty)
  · rw [after, same_insert, forall_prop_of_true failed.1, or_iff_right event',
      or_iff_right refused]
    constructor
    · rintro ⟨old, found, eq⟩
      exact ⟨old, found, (view_addedContext found cb event change alloc).mp eq⟩
    · rintro ⟨old, found, eq⟩
      exact ⟨old, found, (view_addedContext found cb event change alloc).mpr eq⟩
  · exact iff_of_true (fun failed => absurd failed taken.1) (.inr (.inl accepted))

theorem untouched_delEvent (event : Event) (activate : Bool) (refuse : Option Errno) :
    Untouched s (.call (.delEvent fd event activate) refuse) ↔
      Settled s (.call (.delEvent fd event activate) refuse) := by
  unfold Untouched Settled apply
  dsimp only
  cases found : s.mEvents.lookup fd with
  | none =>
    rw [s.delEvent_absent found]
    exact iff_of_true (fun _ => same_refl) (.inl rfl)
  | some ctx =>
    rcases s.delEvent_cases found event activate refuse with
      ⟨refused, after, failed⟩ | ⟨accepted, -, taken⟩
    · rw [after]
      refine iff_of_false (fun untouched => s.not_same_count (untouched failed.1)) fun settled => ?_
      rcases settled with absent | accepted
      · cases absent
      · exact refused accepted
    · exact iff_of_true (fun failed => absurd failed taken.1) (.inr accepted)

theorem untouched_cancel (refuse : Option Errno) :
    Untouched s (.call (.cancel fd) refuse) ↔ Settled s (.call (.cancel fd) refuse) := by
  unfold Untouched Settled apply
  dsimp only
  cases found : s.mEvents.lookup fd with
  | none =>
    rw [s.cancel_absent found]
    exact iff_of_true (fun _ => same_refl) (.inl rfl)
  | some ctx =>
    rcases s.cancel_cases found refuse with ⟨refused, after, failed⟩ | ⟨accepted, -, taken⟩
    · rw [after]
      refine iff_of_false (fun untouched => not_same_erase found (untouched failed.1)) ?_
      rintro (absent | accepted)
      · cases absent
      · exact refused accepted
    · exact iff_of_true (fun failed => absurd failed taken.1) (.inr accepted)

theorem untouched_changerEvent (event : Event) (refuse : Option Errno) :
    Untouched s (.call (.changerEvent fd event) refuse) ↔
      Settled s (.call (.changerEvent fd event) refuse) := by
  unfold Untouched Settled apply
  dsimp only
  cases found : s.mEvents.lookup fd with
  | none =>
    rw [s.changerEvent_absent found]
    exact iff_of_true (fun _ => same_refl) (.inl rfl)
  | some ctx =>
    rcases s.changerEvent_cases found event refuse with
      ⟨refused, after, failed⟩ | ⟨accepted, -, taken⟩
    · rw [after, same_insert, forall_prop_of_true failed.1, found]
      have written : view (changedContext ctx event) = view ctx ↔ ctx.eventsNow = event := by
        unfold view changedContext
        simp only [Prod.mk.injEq, and_true]
        exact eq_comm
      simp only [Option.some.injEq, exists_eq_left', written, refused, false_or, reduceCtorEq]
    · exact iff_of_true (fun failed => absurd failed taken.1) (.inr (.inl accepted))

/-- A call that returns `false` leaves the table and the counter as they were if
and only if it has nothing to undo. -/
theorem untouched_iff (s : IOmanager Cb) (a : IOStep Cb) : Untouched s a ↔ Settled s a := by
  cases a with
  | call c refuse =>
    cases c with
    | addEvent fd cb event change alloc => exact untouched_addEvent cb event change alloc refuse
    | delEvent fd event activate => exact untouched_delEvent event activate refuse
    | cancel fd => exact untouched_cancel refuse
    | changerEvent fd event => exact untouched_changerEvent event refuse
  | report fd events => exact Iff.rfl

/-- Over every run from the constructor and all refusals of the kernel: the
calls that return `false` leave the table and the counter as they were if and
only if no call of the run has something to undo. -/
theorem untouched_along_iff (tickleFds : Int32 × Int32) (stack : BitVec 64)
    (steps : List (IOStep Cb)) :
    Runs.Along step Untouched (init tickleFds stack) steps ↔
      Runs.Along step Settled (init tickleFds stack) steps :=
  Runs.along_congr fun _ => untouched_iff _ _

/-- The kernel is out of memory for the request of each of the four calls: a
refused `addEvent` leaves its context behind, `delEvent` has counted down,
`cancel` has erased the context and `changerEvent` has changed its mask. -/
theorem untouched_fails :
    ∃ (s : IOmanager ℕ) (refuse : Option Errno),
      Runs.exec step (init (3, 4) 0) [.call (.addEvent 5 (some 0) Event.READ false 64) none] =
        some s ∧
      ¬ Untouched (init (3, 4) 0 : IOmanager ℕ)
        (.call (.addEvent 5 (some 0) Event.READ false 64) refuse) ∧
      ¬ Untouched s (.call (.delEvent 5 Event.READ false) refuse) ∧
      ¬ Untouched s (.call (.cancel 5) refuse) ∧
      ¬ Untouched s (.call (.changerEvent 5 Event.WRITE) refuse) := by
  refine ⟨_, some (.other 12), rfl, fun untouched => ?_, fun untouched => ?_, fun untouched => ?_,
    fun untouched => ?_⟩
  · cases (untouched rfl).1 5
  · cases (untouched rfl).2
  · cases (untouched rfl).1 5
  · cases (untouched rfl).1 5

end Sylar.IOmanager
