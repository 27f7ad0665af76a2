import Mathlib.Algebra.Ring.Nat
import Sylar.Schedule.IdleCount

/-!
# Empty callbacks

Neither overload of `schedule` looks at the callback it is given. An empty
`std::function` is counted in `task_number`, but the slot it is stored in reads as
free, so no worker takes it and nothing ever takes it off the count.

`Workers.without n` is the object as it would be without `n` such callbacks.

* `step_without`: under it, an empty callback is not seen, and every step is one of
  the four moves.
* `surplus_of_exec`: over every interleaving, each callback is still in one place, and
  `task_number` is the occupied slots, the running callbacks and all empty callbacks
  accepted so far.
* `stays_of_empties`: after the first of them no worker ever leaves `run()`.
-/

namespace Sylar

variable {α β : Type}

namespace Schedule

/-- An empty callback occupies nothing. -/
theorem occupied_placeFirst_none (threadId : Int) (slots : List (FuncAndthread α)) :
    occupied (placeFirst none threadId slots) = occupied slots := by
  induction slots with
  | nil => rfl
  | cons it rest ih =>
    unfold placeFirst
    cases here : it.mCb with
    | none =>
      rw [Option.isSome_none, if_neg Bool.false_ne_true, occupied_cons, occupied_cons, here]
      rfl
    | some a => rw [Option.isSome_some, if_pos rfl, occupied_cons, occupied_cons, here, ih]

/-- The slots and what is left over hold the callbacks of the batch that are not
empty, and what the slots held before. -/
theorem occupied_fillFree_option (slots : List (FuncAndthread α)) (cbs : List (Option α)) :
    (occupied (fillFree slots cbs).1 ++ (fillFree slots cbs).2.reduceOption).Perm
      (cbs.reduceOption ++ occupied slots) := by
  induction slots generalizing cbs with
  | nil =>
    show cbs.reduceOption.Perm (cbs.reduceOption ++ [])
    rw [List.append_nil]
  | cons it rest ih =>
    cases cbs with
    | nil =>
      show (occupied (it :: rest) ++ []).Perm (occupied (it :: rest))
      rw [List.append_nil]
    | cons cb cbs =>
      unfold fillFree
      cases here : it.mCb with
      | some a =>
        rw [Option.isSome_some, if_pos rfl, occupied_cons, occupied_cons, here]
        exact (List.Perm.cons a (ih (cb :: cbs))).trans List.perm_middle.symm
      | none =>
        rw [Option.isSome_none, if_neg Bool.false_ne_true, occupied_cons, occupied_cons, here]
        cases cb with
        | none =>
          rw [List.reduceOption_cons_of_none]
          exact ih cbs
        | some b =>
          rw [List.reduceOption_cons_of_some]
          exact (ih cbs).cons b

/-- The callbacks left over, in slots of their own. -/
theorem occupied_appended (cbs : List (Option α)) :
    occupied (cbs.map fun cb => (⟨cb, -1⟩ : FuncAndthread α)) = cbs.reduceOption := by
  unfold occupied List.reduceOption
  rw [List.filterMap_map]
  rfl

theorem occupied_scheduleRange_option (s : Schedule α) (cbs : List (Option α)) :
    (occupied (s.scheduleRange cbs).mTask).Perm (cbs.reduceOption ++ occupied s.mTask) := by
  show (occupied ((fillFree s.mTask cbs).1 ++ (fillFree s.mTask cbs).2.map fun cb => ⟨cb, -1⟩)).Perm
    _
  rw [occupied_append, occupied_appended]
  exact occupied_fillFree_option s.mTask cbs

end Schedule

/-! ## The object without its empty callbacks -/

namespace Workers

/-- The object with `n` taken off `task_number`. -/
def without (w : Workers β) (n : ℕ) : Workers β :=
  { w with sched := { w.sched with taskNumber := w.sched.taskNumber - n } }

@[simp] theorem without_waiting (w : Workers β) (n : ℕ) : (w.without n).waiting = w.waiting := rfl

@[simp] theorem without_running (w : Workers β) (n : ℕ) : (w.without n).running = w.running := rfl

@[simp] theorem without_taskNumber (w : Workers β) (n : ℕ) :
    (w.without n).sched.taskNumber = w.sched.taskNumber - n := rfl

theorem without_zero (w : Workers β) : w.without 0 = w := by
  obtain ⟨sched, _⟩ := w
  obtain ⟨mTask, taskNumber, _⟩ := sched
  simp [without]

variable {w w' : Workers β}

/-- A move is a move without the empty callbacks. -/
theorem Moved.without (move : Moved w w') (n : ℕ) : Moved (w.without n) (w'.without n) := by
  cases move with
  | stays waiting running finished accepted begun taskNumber =>
    refine .stays waiting running finished accepted begun ?_
    rw [without_taskNumber, without_taskNumber, taskNumber]
  | stores batch waiting running finished accepted begun taskNumber =>
    refine .stores batch waiting running finished accepted begun ?_
    rw [without_taskNumber, without_taskNumber, taskNumber]
    omega
  | begins task tid waiting running finished accepted begun taskNumber =>
    refine .begins task tid waiting running finished accepted begun ?_
    rw [without_taskNumber, without_taskNumber, taskNumber]
  | finishes task waiting running finished accepted begun taskNumber =>
    refine .finishes task waiting running finished accepted begun ?_
    rw [without_taskNumber, without_taskNumber, taskNumber]
    omega

/-- The count of the unfinished callbacks is too large by `n`. -/
def Surplus (n : ℕ) (w : Workers β) : Prop := Conserved (w.without n)

theorem Surplus.taskNumber {n : ℕ} (inv : Surplus n w) :
    w.sched.taskNumber = w.waiting.length + w.running.length + n := by
  have count := Conserved.taskNumber inv
  rw [without_taskNumber, without_waiting, without_running] at count
  omega

/-- With one callback too many on the count, the exit test fails. -/
theorem Surplus.leaves {n : ℕ} (inv : Surplus n w) (stored : n ≠ 0) : w.sched.leaves = false := by
  have count := inv.taskNumber
  unfold Schedule.leaves
  rw [Bool.and_eq_false_iff, beq_eq_false_iff_ne]
  right
  omega

end Workers

/-! ## Runs with empty callbacks -/

namespace CallerStep

/-- The empty callbacks that a step accepts. -/
def empties : CallerStep β → ℕ
  | .storeEmpty _ => 1
  | .batch cbs => cbs.countP Option.isNone
  | _ => 0

end CallerStep

namespace Callers

open Workers

/-- The empty callbacks accepted in a run. -/
def empties (as : List (CallerStep β)) : ℕ := (as.map CallerStep.empties).sum

variable {s t : Callers β} {a : CallerStep β} {as bs : List (CallerStep β)} {n : ℕ}

theorem reduceOption_numbered (k : ℕ) (cbs : List (Option β)) :
    (numbered k cbs).reduceOption = ticketsFrom k cbs.reduceOption := by
  induction cbs generalizing k with
  | nil => rfl
  | cons cb cbs ih =>
    cases cb with
    | none =>
      rw [numbered, List.reduceOption_cons_of_none, List.reduceOption_cons_of_none, ih]
    | some cb =>
      rw [numbered, List.reduceOption_cons_of_some, List.reduceOption_cons_of_some, ih]
      rfl

theorem length_numbered (k : ℕ) (cbs : List (Option β)) :
    (numbered k cbs).length = cbs.length := by
  induction cbs generalizing k with
  | nil => rfl
  | cons cb cbs ih => cases cb <;> simp only [numbered, List.length_cons, ih]

/-- A batch is its callbacks and its empty ones. -/
theorem length_batch (cbs : List (Option β)) :
    cbs.length = cbs.reduceOption.length + cbs.countP Option.isNone := by
  induction cbs with
  | nil => rfl
  | cons cb cbs ih =>
    cases cb with
    | none =>
      rw [List.reduceOption_cons_of_none, List.countP_cons_of_pos rfl, List.length_cons, ih]
      omega
    | some cb =>
      rw [List.reduceOption_cons_of_some, List.countP_cons_of_neg Bool.false_ne_true,
        List.length_cons, List.length_cons, ih]
      omega

/-- Without the empty callbacks accepted before it and in it, a step is a move. -/
theorem step_without (edge : s.step a = some t) (n : ℕ) :
    Moved (s.base.without n) (t.base.without (n + a.empties)) := by
  cases a with
  | sched b =>
    obtain ⟨base, inner, rfl⟩ := Option.map_eq_some_iff.mp edge
    exact (step_moved inner).without n
  | enterEmpty threadId =>
    cases edge
    split <;> exact .stays rfl (List.Perm.refl _) rfl rfl rfl rfl
  | storeEmpty i =>
    cases found : s.emptyCalls[i]? <;>
      simp only [step, found, Option.some.injEq, reduceCtorEq] at edge
    subst edge
    refine .stays (Schedule.occupied_placeFirst_none _ _) (List.Perm.refl _) rfl rfl rfl ?_
    show s.base.sched.taskNumber + 1 - (n + 1 : ℕ) = s.base.sched.taskNumber - n
    omega
  | batch cbs =>
    cases edge
    have perm := s.base.sched.occupied_scheduleRange_option (numbered s.base.accepted.length cbs)
    have same : (cbs.reduceOption.map fun cb => (cb, (-1 : Int))).map Prod.fst =
        cbs.reduceOption := by
      rw [List.map_map]
      exact List.map_id _
    have length := length_batch cbs
    refine .stores (cbs.reduceOption.map fun cb => (cb, -1)) ?_ rfl rfl rfl rfl ?_
    · rw [same, ← reduceOption_numbered]
      exact perm
    · show s.base.sched.taskNumber + (numbered s.base.accepted.length cbs).length -
        (n + cbs.countP Option.isNone : ℕ) = s.base.sched.taskNumber - n + _
      rw [length_numbered, List.length_map]
      omega

theorem surplus_next (inv : Surplus n s.base) (edge : s.step a = some t) :
    Surplus (n + a.empties) t.base :=
  Conserved.moved inv (step_without edge n)

theorem surplus_run (inv : Surplus n s.base) (run : Runs.exec step s as = some t) :
    Surplus (n + empties as) t.base := by
  induction as generalizing s n with
  | nil =>
    cases run
    exact inv
  | cons a as ih =>
    obtain ⟨u, edge, rest⟩ := Runs.exec_cons_eq_some.mp run
    have later := ih (surplus_next inv edge) rest
    rw [Nat.add_assoc] at later
    exact later

theorem surplus_exec (run : Runs.exec step init as = some s) : Surplus (empties as) s.base := by
  have start : Surplus 0 (init : Callers β).base := by
    unfold Surplus
    rw [without_zero]
    exact conserved_init
  have later := surplus_run start run
  rwa [Nat.zero_add] at later

/-- Over every interleaving with empty callbacks: each of the others is in exactly one
place and begun at most once, and `task_number` is the number of the occupied slots, of
the running callbacks and of all the empty callbacks accepted so far. -/
theorem surplus_of_exec (run : Runs.exec step init as = some s) :
    (∀ k < s.base.accepted.length,
      times k s.base.waiting + times k s.base.running + times k s.base.finished = 1 ∧
        times k (s.base.begun.map Prod.fst) ≤ 1) ∧
      s.base.sched.taskNumber =
        s.base.waiting.length + s.base.running.length + empties as := by
  have inv := surplus_exec run
  refine ⟨fun k accepted => ?_, inv.taskNumber⟩
  exact ⟨Conserved.times_places inv accepted, Conserved.times_begun inv accepted⟩

/-- Two empty callbacks, one in a batch, and a callback that waits: three are counted. -/
theorem surplus_of_exec_three :
    ∃ s : Callers ℕ, Runs.exec step init [.batch [none, some 7], .enterEmpty 5, .storeEmpty 0] =
        some s ∧
      s.base.sched.taskNumber = s.base.waiting.length + s.base.running.length + 2 := by
  have run : Runs.exec step init [.batch [none, some 7], .enterEmpty 5, .storeEmpty 0] =
      some (_ : Callers ℕ) := rfl
  exact ⟨_, run, (surplus_of_exec run).2⟩

/-- A worker inside `run()` stays there while the count is too large. -/
theorem step_inside (inv : Surplus n s.base) (stored : n ≠ 0) (edge : s.step a = some t) {i : ℕ}
    {x : Worker β} (there : s.base.workers[i]? = some x) (inside : x.pc.active = true) :
    ∃ y, t.base.workers[i]? = some y ∧ y.pc.active = true := by
  rcases step_base edge with ⟨b, -, inner⟩ | ⟨-, -, workers, -⟩
  · rcases step_active there inside inner with stays | ⟨leaves, -⟩
    · exact stays
    · rw [inv.leaves stored] at leaves
      cases leaves
  · exact ⟨x, workers ▸ there, inside⟩

/-- After an empty callback was accepted, no worker ever leaves `run()`: those inside
stay inside in every run from there, whatever is stopped or destroyed. -/
theorem stays_of_empties (run : Runs.exec step init as = some s) (stored : empties as ≠ 0)
    (more : Runs.exec step s bs = some t) {i : ℕ} {x : Worker β}
    (there : s.base.workers[i]? = some x) (inside : x.pc.active = true) :
    ∃ y, t.base.workers[i]? = some y ∧ y.pc.active = true := by
  have inv := surplus_exec run
  generalize empties as = n at inv stored
  clear run
  induction bs generalizing s n x with
  | nil =>
    cases more
    exact ⟨x, there, inside⟩
  | cons a bs ih =>
    obtain ⟨u, edge, rest⟩ := Runs.exec_cons_eq_some.mp more
    obtain ⟨y, still, active⟩ := step_inside inv stored edge there inside
    exact ih rest still active _ (surplus_next inv edge) (by omega)

end Callers

end Sylar
