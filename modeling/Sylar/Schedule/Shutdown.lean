import Sylar.Schedule.Conservation

/-!
# Shutdown

`schedule(cb, threadId)` tests `m_stopping` before it takes the lock, and
`schedule(begin, end)` does not test it. A task that is stored when the last
worker has left `run()` is never run.

* `step_drained`: what a single section does to the states that are drained.
* `drained_iff`: the runs that abandon no task are those whose sections are all
  timely, that is, store nothing after the last worker has left and do not set
  `m_stopping` over tasks that no worker is there for.
* `drained_fails`: either overload can store a task too late.
-/

namespace Sylar.Workers

variable {β : Type} {w w' : Workers β} {a : SchedStep β}

/-- Some worker is inside `run()`. -/
def Attended (w : Workers β) : Prop := ∃ x ∈ w.workers, x.pc.active = true

/-- At shutdown, `m_stopping` set and every worker returned, no slot is occupied
and every accepted callback has been run. -/
def Drained (w : Workers β) : Prop :=
  w.sched.mStopping = true → (∀ x ∈ w.workers, x.pc.active = false) →
    w.waiting = [] ∧ ∀ k < w.accepted.length, times k w.finished = 1

/-- The sections that come in time. A task is stored before `m_stopping` is set
or while some worker is inside `run()`, and `m_stopping` is set over occupied
slots only while some worker is. -/
def Timely (w : Workers β) : SchedStep β → Prop
  | .store _ => w.sched.mStopping = true → Attended w
  | .range cbs => cbs ≠ [] → w.sched.mStopping = true → Attended w
  | .setStopping => w.waiting ≠ [] → Attended w
  | _ => True

theorem not_attended : (∀ x ∈ w.workers, x.pc.active = false) ↔ ¬ Attended w := by
  unfold Attended
  simp only [not_exists, not_and, Bool.not_eq_true]

theorem task_of_returned {pc : WorkerPc β} (outside : pc.active = false) : pc.task = none := by
  cases pc with
  | returned => rfl
  | _ => cases outside

/-- Once every worker has returned, empty slots mean that every accepted
callback has been run. -/
theorem Conserved.drained_of_count (inv : Conserved w) :
    Drained w ↔ (w.sched.mStopping = true → ¬ Attended w → w.waiting = []) := by
  constructor
  · intro drained stopping away
    exact (drained stopping (not_attended.mpr away)).1
  · intro empty stopping outside
    have waiting := empty stopping (not_attended.mp outside)
    refine ⟨waiting, fun k accepted => ?_⟩
    have running : w.running = [] :=
      List.filterMap_eq_nil_iff.mpr fun x member => task_of_returned (outside x member)
    have places := inv.times_places accepted
    rw [waiting, running] at places
    exact (Nat.zero_add _).symm.trans places

theorem drained_of_attended (here : Attended w) : Drained w :=
  fun _ outside => absurd here (not_attended.mp outside)

theorem attended_of_getElem? {i : ℕ} {x : Worker β} (there : w.workers[i]? = some x)
    (inside : x.pc.active = true) : Attended w :=
  ⟨x, List.mem_of_getElem? there, inside⟩

/-- The sections of a worker end drained: the last one to leave has found
nothing to do. -/
theorem drained_section (inv : Conserved w) {i : ℕ} {x : Worker β}
    (there : w.workers[i]? = some x) (inside : x.pc.active = true)
    (edge : w.step a = some w') : Drained w' := by
  rcases step_active there inside edge with ⟨x', still, active⟩ | ⟨leaves, same⟩
  · exact drained_of_attended (attended_of_getElem? still active)
  · rw [(inv.next edge).drained_of_count]
    intro _ _
    unfold Schedule.leaves at leaves
    rw [Bool.and_eq_true, beq_iff_eq] at leaves
    exact ((inv.next edge).idle (same ▸ leaves.2)).1

/-- A section that stores a batch ends drained if a worker is there for it. -/
theorem drained_stores (inv' : Conserved w') (same : w'.workers = w.workers)
    (flag : w'.sched.mStopping = w.sched.mStopping) {new : List (Ticket β)}
    (grown : w'.waiting.Perm (new ++ w.waiting)) (nonempty : new ≠ []) :
    Drained w' ↔ (w.sched.mStopping = true → Attended w) := by
  have stored : w'.waiting ≠ [] := by
    intro empty
    rw [empty] at grown
    exact nonempty (List.append_eq_nil_iff.mp grown.nil_eq.symm).1
  have attended : Attended w' ↔ Attended w := by
    unfold Attended
    rw [same]
  rw [inv'.drained_of_count, flag, attended]
  constructor
  · intro drained stopping
    by_contra away
    exact stored (drained stopping away)
  · intro timely stopping away
    exact absurd (timely stopping) away

/-- What one section does: from a drained state it leads to a drained one if and
only if it comes in time. -/
theorem step_drained (inv : Conserved w) (before : Drained w) (edge : w.step a = some w') :
    Drained w' ↔ Timely w a := by
  have inv' := inv.next edge
  cases step_cases edge with
  | enters cb threadId =>
    refine iff_of_true ?_ trivial
    split <;> exact before
  | @stores i cb threadId found =>
    have perm := Schedule.occupied_placeFirst (⟨w.accepted.length, cb⟩ : Ticket β) threadId
      w.sched.mTask
    rw [← List.singleton_append] at perm
    exact drained_stores inv' rfl rfl perm (List.cons_ne_nil _ _)
  | batch cbs =>
    have perm := w.sched.occupied_scheduleRange (ticketsFrom w.accepted.length cbs)
    by_cases nothing : cbs = []
    · subst nothing
      refine iff_of_true ?_ fun some => absurd rfl some
      rw [inv.drained_of_count] at before
      rw [inv'.drained_of_count]
      intro stopping away
      have none_before := before stopping away
      unfold waiting at none_before
      rw [none_before] at perm
      exact perm.eq_nil
    · have new : ticketsFrom w.accepted.length cbs ≠ [] := by
        intro empty
        have length := length_ticketsFrom w.accepted.length cbs
        rw [empty] at length
        exact nothing (List.eq_nil_of_length_eq_zero length.symm)
      have rule : Drained _ ↔ (w.sched.mStopping = true → Attended w) :=
        drained_stores inv' rfl rfl perm new
      exact rule.trans ⟨fun timely _ => timely, fun timely => timely nothing⟩
  | halts =>
    rw [inv'.drained_of_count]
    constructor
    · intro drained stored
      by_contra away
      exact stored (drained rfl away)
    · intro timely _ away
      by_contra stored
      exact away (timely stored)
  | stops tid | spawns tid =>
    refine iff_of_true (drained_of_attended ?_) trivial
    exact ⟨_, List.mem_append_right _ (List.mem_singleton_self _), rfl⟩
  | scans there pc | completes there pc | tests there pc | resumes there pc =>
    exact iff_of_true (drained_section inv there (by rw [pc]; rfl) edge) trivial

theorem drained_init : Drained (init : Workers β) := by
  intro stopping
  cases stopping

/-- Over every interleaving: no accepted task is abandoned at shutdown if and
only if every section of the run comes in time. -/
theorem drained_iff (as : List (SchedStep β)) :
    Runs.Always step Drained init as ↔ Runs.Along step Timely init as :=
  Runs.always_iff_along (I := Conserved) (fun inv edge => inv.next edge)
    (fun inv before edge => step_drained inv before edge) conserved_init drained_init

/-- The only worker leaves `run()`, and then a batch is stored by
`schedule(begin, end)`, or a task by a `schedule(cb)` that tested `m_stopping`
before it was set. -/
theorem drained_fails :
    (∃ w : Workers ℕ, Runs.exec step init
        [.spawn 1, .setStopping, .dequeue 0, .exitTest 0, .range [7]] = some w ∧ ¬ Drained w) ∧
      ∃ w : Workers ℕ, Runs.exec step init
        [.spawn 1, .enter 7 (-1), .setStopping, .dequeue 0, .exitTest 0, .store 0] = some w ∧
          ¬ Drained w := by
  refine ⟨⟨_, rfl, fun drained => ?_⟩, ⟨_, rfl, fun drained => ?_⟩⟩
  · have empty := (drained rfl fun x member => by cases List.mem_singleton.mp member; rfl).1
    cases empty
  · have empty := (drained rfl fun x member => by cases List.mem_singleton.mp member; rfl).1
    cases empty

end Sylar.Workers
