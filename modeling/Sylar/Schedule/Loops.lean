import Sylar.Schedule.Empty
import Sylar.Schedule.Idle

/-!
# The loops of `run()`

The callers of both overloads, with empty callbacks among those they pass, and the
workers, each with its coroutine: a worker goes on after a failed exit test only as
far as its coroutine does. The `stop` of `Schedule` is the step that ends it all: it
calls `run()` under `schedule_mutex`, which the body of `idle` acquires first. A thread
that acquires a `std::shared_mutex` it holds is undefined, and no step follows.

* `steady_exec`: where a coroutine can be, over every run.
* `surplus_exec`: the count of the unfinished callbacks, over every run.
-/

namespace Sylar

variable {β : Type}

/-- The callers and the workers, with the coroutines of the workers. `held` is whether
the `stop` of `Schedule` has called `run()` under `schedule_mutex`. -/
structure RunLoops (β : Type) where
  callers : Callers β
  fibers : ℕ → Fiber
  held : Bool

/-- The steps: those of callers and workers, and those of the coroutine of the `i`-th
worker. `round` comes with the callbacks that `GetExpiredCb` has collected, any of them
empty. -/
inductive RunStep (β : Type) where
  | call (a : CallerStep β)
  | round (i : ℕ) (batch : List (Option β))
  | test (i : ℕ)

/-- The `stop` of `Schedule` keeps the lock while it calls `run()`. -/
def IdleKind.holds : IdleKind → CallerStep β → Bool
  | .schedule, .sched (.stop _) => true
  | _, _ => false

namespace RunStep

/-- The empty callbacks that a step accepts. -/
def empties : RunStep β → ℕ
  | .call a => a.empties
  | .round _ batch => batch.countP Option.isNone
  | .test _ => 0

end RunStep

namespace RunLoops

open Workers

def init : RunLoops β := ⟨Callers.init, fun _ => .yielded, false⟩

/-- The workers, with their coroutines. -/
def coroutines (s : RunLoops β) : Fibers β := ⟨s.callers.base, s.fibers⟩

/-- The coroutines after a step of the callers and workers. -/
def follow (kind : IdleKind) (s : RunLoops β) : CallerStep β → Option (ℕ → Fiber)
  | .sched a => s.coroutines.follow kind a
  | _ => some s.fibers

/-- The steps while the lock is given back. -/
def stepFree (kind : IdleKind) (s : RunLoops β) : RunStep β → Option (RunLoops β)
  | .call a => (s.callers.step a).bind fun callers => (s.follow kind a).map fun fibers =>
    ⟨callers, fibers, kind.holds a⟩
  | .round i batch =>
    if s.fibers i = .round then
      (if batch = [] then some s.callers else s.callers.step (.batch batch)).map fun callers =>
        { s with callers := callers, fibers := Function.update s.fibers i .yielded }
    else none
  | .test i =>
    if s.fibers i = .test then
      some { s with fibers := Function.update s.fibers i (kind.test s.callers.base.sched) }
    else none

def step (kind : IdleKind) (s : RunLoops β) (a : RunStep β) : Option (RunLoops β) :=
  if s.held then none else s.stepFree kind a

/-- The empty callbacks accepted in a run. -/
def empties (as : List (RunStep β)) : ℕ := (as.map RunStep.empties).sum

variable {kind : IdleKind} {s t : RunLoops β} {a : RunStep β} {as : List (RunStep β)} {n : ℕ}

theorem step_eq_some :
    s.step kind a = some t ↔ s.held = false ∧ s.stepFree kind a = some t := by
  unfold step
  rw [Option.ite_none_left_eq_some, Bool.not_eq_true]

theorem step_call {a : CallerStep β} (edge : s.stepFree kind (.call a) = some t) :
    ∃ callers fibers, s.callers.step a = some callers ∧ s.follow kind a = some fibers ∧
      t = ⟨callers, fibers, kind.holds a⟩ := by
  obtain ⟨callers, moved, edge⟩ := Option.bind_eq_some_iff.mp edge
  obtain ⟨fibers, followed, rfl⟩ := Option.map_eq_some_iff.mp edge
  exact ⟨callers, fibers, moved, followed, rfl⟩

theorem step_round {i : ℕ} {batch : List (Option β)}
    (edge : s.stepFree kind (.round i batch) = some t) :
    s.fibers i = .round ∧ ∃ callers,
      (callers = s.callers ∧ batch = [] ∨ s.callers.step (.batch batch) = some callers) ∧
      t = { s with callers := callers, fibers := Function.update s.fibers i .yielded } := by
  obtain ⟨here, edge⟩ := Option.ite_none_right_eq_some.mp edge
  obtain ⟨callers, stored, rfl⟩ := Option.map_eq_some_iff.mp edge
  refine ⟨here, callers, ?_, rfl⟩
  split_ifs at stored with empty
  · exact .inl ⟨(Option.some.inj stored).symm, empty⟩
  · exact .inr stored

/-! ## The coroutines -/

/-- What callers with empty callbacks, and batches, leave as it is. -/
theorem caller_same {callers : Callers β} {a : CallerStep β}
    (edge : s.callers.step a = some callers) (other : ∀ b, a ≠ .sched b) :
    callers.base.workers = s.callers.base.workers ∧
      callers.base.sched.mStopping = s.callers.base.sched.mStopping := by
  cases a with
  | sched b => exact absurd rfl (other b)
  | enterEmpty threadId =>
    cases edge
    split <;> exact ⟨rfl, rfl⟩
  | storeEmpty i =>
    cases found : s.callers.emptyCalls[i]? <;>
      simp only [Callers.step, found, Option.some.injEq, reduceCtorEq] at edge
    subst edge
    exact ⟨rfl, rfl⟩
  | batch cbs =>
    cases edge
    exact ⟨rfl, rfl⟩

theorem steady_next (inv : s.coroutines.Steady) (edge : s.step kind a = some t) :
    t.coroutines.Steady := by
  obtain ⟨-, edge⟩ := step_eq_some.mp edge
  cases a with
  | call a =>
    obtain ⟨callers, fibers, moved, followed, rfl⟩ := step_call edge
    by_cases sched : ∃ b, a = .sched b
    · obtain ⟨b, rfl⟩ := sched
      obtain ⟨base, inner, rfl⟩ := Option.map_eq_some_iff.mp moved
      have fiberStep : s.coroutines.step kind (.sched b) = some ⟨base, fibers⟩ := by
        show (s.coroutines.base.step b).bind _ = _
        rw [show s.coroutines.base.step b = some base from inner]
        show (s.coroutines.follow kind b).map _ = _
        rw [show s.coroutines.follow kind b = some fibers from followed]
        rfl
      exact inv.sched fiberStep
    · have other : ∀ b, a ≠ .sched b := fun b same => sched ⟨b, same⟩
      obtain ⟨workers, flag⟩ := caller_same moved other
      have same : fibers = s.fibers := by
        cases a with
        | sched b => exact absurd rfl (other b)
        | _ => exact (Option.some.inj followed).symm
      subst same
      refine ⟨fun i ends => flag.trans (inv.stopping i ends), fun i x there within => ?_⟩
      exact inv.scans i x (workers ▸ there) within
  | round i batch =>
    obtain ⟨here, callers, stored, rfl⟩ := step_round edge
    have within : (s.coroutines.fibers i).inside = true := by
      show (s.fibers i).inside = true
      rw [here]
      rfl
    rcases stored with ⟨rfl, -⟩ | stored
    · exact inv.inside rfl id within (by nofun)
    · obtain ⟨workers, flag⟩ := caller_same stored nofun
      exact inv.inside workers flag.trans within (by nofun)
  | test i =>
    obtain ⟨here, edge⟩ := Option.ite_none_right_eq_some.mp edge
    cases edge
    exact inv.test here

theorem steady_exec (run : Runs.exec (step kind) init as = some s) : s.coroutines.Steady := by
  have start : (init : RunLoops β).coroutines.Steady := Fibers.steady_init
  exact Runs.exec_inv (I := fun s => s.coroutines.Steady) steady_next start run

/-! ## The count -/

theorem surplus_next (inv : Surplus n s.callers.base) (edge : s.step kind a = some t) :
    Surplus (n + a.empties) t.callers.base := by
  obtain ⟨-, edge⟩ := step_eq_some.mp edge
  cases a with
  | call a =>
    obtain ⟨callers, fibers, moved, -, rfl⟩ := step_call edge
    exact Callers.surplus_next inv moved
  | round i batch =>
    obtain ⟨-, callers, stored, rfl⟩ := step_round edge
    rcases stored with ⟨rfl, rfl⟩ | stored
    · exact inv
    · exact Callers.surplus_next inv stored
  | test i =>
    obtain ⟨-, edge⟩ := Option.ite_none_right_eq_some.mp edge
    cases edge
    exact inv

theorem surplus_run (inv : Surplus n s.callers.base) (run : Runs.exec (step kind) s as = some t) :
    Surplus (n + empties as) t.callers.base := by
  induction as generalizing s n with
  | nil =>
    cases run
    exact inv
  | cons a as ih =>
    obtain ⟨u, edge, rest⟩ := Runs.exec_cons_eq_some.mp run
    have later := ih (surplus_next inv edge) rest
    rw [Nat.add_assoc] at later
    exact later

theorem surplus_exec (run : Runs.exec (step kind) init as = some s) :
    Surplus (empties as) s.callers.base := by
  have start : Surplus 0 (init : RunLoops β).callers.base := by
    unfold Surplus
    rw [without_zero]
    exact conserved_init
  have later := surplus_run start run
  rwa [Nat.zero_add] at later

end RunLoops

end Sylar
