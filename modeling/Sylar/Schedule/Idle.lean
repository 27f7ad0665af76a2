import Mathlib.Logic.Function.Basic
import Sylar.Schedule.Conservation

/-!
# The idle coroutines

`run()` makes a coroutine of the virtual `idle` and resumes it after every exit
test that fails. `idle` decides to end from a reading of its own; the exit test
reads `m_stopping` and `task_number` again, and where it still finds something
to do it resumes the coroutine once more.

* `Inv`: a coroutine that has decided to end has seen `m_stopping` set.
* `resumable_iff`: the runs in which no finished coroutine is about to be resumed
  are those in which every exit test beside one finds all callbacks completed.
-/

namespace Sylar

variable {β : Type}

/-- Where an idle coroutine is: inside, before its round of waiting or before its
test; suspended at the `yield(0)` of its loop or at the one after it; returned. -/
inductive Fiber where
  | round
  | test
  | yielded
  | leaving
  | returned
  deriving DecidableEq

/-- Whether the worker is inside its coroutine. -/
def Fiber.inside : Fiber → Bool
  | .round | .test => true
  | _ => false

/-- The two bodies of the virtual `idle`. -/
inductive IdleKind where
  | schedule
  | ioManager

/-- The workers, each with its coroutine. -/
structure Fibers (β : Type) where
  base : Workers β
  fibers : ℕ → Fiber

/-- The steps: those of the workers, and what the coroutine of the `i`-th worker
does from one section to the next. `round` comes with the callbacks that
`GetExpiredCb` has collected; the events it triggers call `schedule(cb)`. -/
inductive FiberStep (β : Type) where
  | sched (a : SchedStep β)
  | round (i : ℕ) (batch : List β)
  | test (i : ℕ)

namespace IdleKind

/-- Where the constructor of the coroutine enters the body. -/
def start : IdleKind → Fiber
  | .schedule => .test
  | .ioManager => .round

/-- The test in the loop of `idle`. -/
def test {α : Type} (kind : IdleKind) (s : Schedule α) : Fiber :=
  match kind with
  | .schedule => if s.taskNumber = 0 then if s.mStopping then .returned else .test else .yielded
  | .ioManager => if s.leaves then .leaving else .round

end IdleKind

/-- `idle_fiber()`: where the body goes on. A coroutine that has returned cannot
be resumed. -/
def Fiber.resume : Fiber → Option Fiber
  | .yielded => some .test
  | .leaving => some .returned
  | _ => none

namespace Fibers

def init : Fibers β := ⟨Workers.init, fun _ => .yielded⟩

/-- The coroutines after a step of the workers: a new worker constructs one, and a
worker inside its coroutine does not scan. -/
def follow (kind : IdleKind) (s : Fibers β) : SchedStep β → Option (ℕ → Fiber)
  | .stop _ | .spawn _ => some (Function.update s.fibers s.base.workers.length kind.start)
  | .dequeue i => if (s.fibers i).inside then none else some s.fibers
  | .resume i => (s.fibers i).resume.map (Function.update s.fibers i)
  | _ => some s.fibers

def step (kind : IdleKind) (s : Fibers β) : FiberStep β → Option (Fibers β)
  | .sched a => (s.base.step a).bind fun base => (s.follow kind a).map fun fibers => ⟨base, fibers⟩
  | .round i batch =>
    if s.fibers i = .round then
      (if batch = [] then some s.base else s.base.step (.range batch)).map fun base =>
        ⟨base, Function.update s.fibers i .yielded⟩
    else none
  | .test i =>
    if s.fibers i = .test then
      some ⟨s.base, Function.update s.fibers i (kind.test s.base.sched)⟩
    else none

end Fibers

namespace Workers

variable {w w' : Workers β} {a : SchedStep β}

/-- `m_stopping` is never cleared. -/
theorem stopping_stays (edge : w.step a = some w') (stopping : w.sched.mStopping = true) :
    w'.sched.mStopping = true := by
  cases step_cases edge with
  | enters cb threadId => split <;> exact stopping
  | halts | stops => rfl
  | stores | batch | spawns | completes | tests | resumes => exact stopping
  | @scans i x there pc =>
    have kept := (w.sched.dequeue_spec x.tid).2.2
    unfold dequeue
    cases taken : (w.sched.dequeue x.tid).2 with
    | _ =>
      simp only [taken]
      exact kept.trans stopping

end Workers

namespace Fibers

variable {kind : IdleKind} {s t : Fibers β} {a : FiberStep β} {i : ℕ} {x : Worker β}

/-- No worker is about to resume a coroutine that has returned. -/
def Resumable (s : Fibers β) : Prop :=
  ∀ i x, s.base.workers[i]? = some x → x.pc = .idle → s.fibers i ≠ .returned

/-- A coroutine that has decided to end has seen `m_stopping` set, and a worker inside
its coroutine has not begun its scan. -/
structure Steady (s : Fibers β) : Prop where
  stopping : ∀ i, s.fibers i = .leaving ∨ s.fibers i = .returned → s.base.sched.mStopping = true
  scans : ∀ i x, s.base.workers[i]? = some x → (s.fibers i).inside = true → x.pc = .scan

/-- Beside that, callbacks are conserved. -/
structure Inv (s : Fibers β) : Prop extends Steady s where
  conserved : Workers.Conserved s.base

theorem steady_init : Steady (init : Fibers β) where
  stopping i ends := by
    rcases ends with ends | ends <;> cases ends
  scans i x there := by cases there

theorem inv_init : Inv (init : Fibers β) := ⟨steady_init, Workers.conserved_init⟩

theorem step_sched {a : SchedStep β} (edge : s.step kind (.sched a) = some t) :
    ∃ base fibers, s.base.step a = some base ∧ s.follow kind a = some fibers ∧
      t = ⟨base, fibers⟩ := by
  obtain ⟨base, moved, edge⟩ := Option.bind_eq_some_iff.mp edge
  obtain ⟨fibers, followed, rfl⟩ := Option.map_eq_some_iff.mp edge
  exact ⟨base, fibers, moved, followed, rfl⟩

/-- A step outside the workers changes no coroutine. -/
theorem follow_same {a : SchedStep β} {fibers : ℕ → Fiber}
    (followed : s.follow kind a = some fibers) (outside : Workers.Outside a) :
    fibers = s.fibers := by
  cases a with
  | enter | store | range | setStopping => exact (Option.some.inj followed).symm
  | _ => exact outside.elim

theorem follow_joins {a : SchedStep β} {fibers : ℕ → Fiber} {tid : Int}
    (followed : s.follow kind a = some fibers) (joined : a = .stop tid ∨ a = .spawn tid) :
    fibers = Function.update s.fibers s.base.workers.length kind.start := by
  rcases joined with rfl | rfl
  · exact (Option.some.inj followed).symm
  · exact (Option.some.inj followed).symm

/-- A section of worker `i` resumes its coroutine or changes none. -/
theorem follow_advances {a : SchedStep β} {fibers : ℕ → Fiber} {leaves : Bool}
    {pc pc' : WorkerPc β} (followed : s.follow kind a = some fibers)
    (advances : Workers.Advances leaves a i pc pc') :
    (fibers = s.fibers ∧ (pc = .scan → (s.fibers i).inside = false)) ∨
      (pc' = .scan ∧ ∃ f, (s.fibers i).resume = some f ∧
        fibers = Function.update s.fibers i f) := by
  cases advances with
  | begins | finds =>
    obtain ⟨out, same⟩ := Option.ite_none_left_eq_some.mp followed
    exact .inl ⟨(Option.some.inj same).symm, fun _ => Bool.not_eq_true _ ▸ out⟩
  | completes => exact .inl ⟨(Option.some.inj followed).symm, nofun⟩
  | leaves | stays => exact .inl ⟨(Option.some.inj followed).symm, nofun⟩
  | resumes =>
    obtain ⟨f, resumed, same⟩ := Option.map_eq_some_iff.mp followed
    exact .inr ⟨rfl, f, resumed, same.symm⟩

/-- `idle` ends on a reading of `m_stopping`. -/
theorem test_stopping {sched : Schedule (Ticket β)}
    (ends : kind.test sched = .leaving ∨ kind.test sched = .returned) :
    sched.mStopping = true := by
  cases kind with
  | schedule =>
    unfold IdleKind.test at ends
    dsimp only at ends
    split_ifs at ends with zero stopping
    · exact stopping
    · rcases ends with ends | ends <;> cases ends
    · rcases ends with ends | ends <;> cases ends
  | ioManager =>
    unfold IdleKind.test at ends
    dsimp only at ends
    split_ifs at ends with leaves
    · unfold Schedule.leaves at leaves
      exact (Bool.and_eq_true_iff.mp leaves).1
    · rcases ends with ends | ends <;> cases ends

/-- Resumed, a coroutine ends when it had left its loop. -/
theorem resume_ends {f g : Fiber} (resumed : f.resume = some g)
    (ends : g = .leaving ∨ g = .returned) : f = .leaving := by
  cases f with
  | leaving => rfl
  | yielded =>
    cases resumed
    rcases ends with ends | ends <;> cases ends
  | _ => cases resumed

/-- Only worker `i` and its coroutine differ. -/
structure Apart (s t : Fibers β) (i : ℕ) : Prop where
  fibers : ∀ j, j ≠ i → t.fibers j = s.fibers j
  workers : ∀ j x, j ≠ i → t.base.workers[j]? = some x → s.base.workers[j]? = some x

theorem apart_inside {base : Workers β} {f : Fiber} (workers : base.workers = s.base.workers) :
    Apart s ⟨base, Function.update s.fibers i f⟩ i where
  fibers j other := Function.update_of_ne other f s.fibers
  workers j y _ there := by rwa [← workers]

theorem apart_joins {base : Workers β} {f : Fiber}
    (workers : base.workers = s.base.workers ++ [x]) :
    Apart s ⟨base, Function.update s.fibers s.base.workers.length f⟩ s.base.workers.length where
  fibers j other := Function.update_of_ne other f s.fibers
  workers j y other there := by
    rw [workers] at there
    rcases Workers.getElem?_joined there with ⟨-, old⟩ | ⟨new, -⟩
    · exact old
    · exact absurd new other

theorem apart_advances {base : Workers β} {fibers : ℕ → Fiber}
    (workers : base.workers = s.base.workers.set i x)
    (others : ∀ j, j ≠ i → fibers j = s.fibers j) : Apart s ⟨base, fibers⟩ i where
  fibers := others
  workers j y other there := by
    rwa [workers, List.getElem?_set_ne other.symm] at there

/-- A step beside which the other workers and coroutines stay as they are. -/
theorem Steady.apart (inv : Steady s) (apart : Apart s t i)
    (flag : s.base.sched.mStopping = true → t.base.sched.mStopping = true)
    (ends : t.fibers i = .leaving ∨ t.fibers i = .returned → s.base.sched.mStopping = true)
    (scans : ∀ x, t.base.workers[i]? = some x → (t.fibers i).inside = true → x.pc = .scan) :
    Steady t := by
  constructor
  case stopping =>
    intro j ended
    apply flag
    by_cases own : j = i
    · rw [own] at ended
      exact ends ended
    · rw [apart.fibers j own] at ended
      exact inv.stopping j ended
  case scans =>
    intro j x there within
    by_cases own : j = i
    · rw [own] at there within
      exact scans x there within
    · rw [apart.fibers j own] at within
      exact inv.scans j x (apart.workers j x own there) within

/-- A coroutine goes on inside its worker. -/
theorem Steady.inside (inv : Steady s) {base : Workers β} {f : Fiber}
    (workers : base.workers = s.base.workers)
    (flag : s.base.sched.mStopping = true → base.sched.mStopping = true)
    (here : (s.fibers i).inside = true)
    (ends : f = .leaving ∨ f = .returned → s.base.sched.mStopping = true) :
    Steady ⟨base, Function.update s.fibers i f⟩ := by
  refine inv.apart (apart_inside workers) flag ?_ ?_
  · simp only [Function.update_self]
    exact ends
  · intro x there _
    rw [workers] at there
    exact inv.scans i x there here

theorem Steady.sched (inv : Steady s) {a : SchedStep β} (edge : s.step kind (.sched a) = some t) :
    Steady t := by
  obtain ⟨base, fibers, moved, followed, rfl⟩ := step_sched edge
  have flag := Workers.stopping_stays moved
  have crew := Workers.step_workers moved
  obtain ⟨sched, calls, workers, accepted, begun, finished⟩ := base
  cases crew with
  | same outside =>
    obtain rfl := follow_same followed outside
    exact ⟨fun i ends => flag (inv.stopping i ends), inv.scans⟩
  | joins joined =>
    obtain rfl := follow_joins followed joined
    refine inv.apart (apart_joins rfl) flag ?_ ?_
    · intro ends
      simp only [Function.update_self] at ends
      cases kind with
      | _ => rcases ends with ends | ends <;> cases ends
    · intro x there _
      rcases Workers.getElem?_joined there with ⟨old, -⟩ | ⟨-, rfl⟩
      · exact absurd rfl old
      · rfl
  | @advances i x pc there advances =>
    obtain ⟨bound, -⟩ := List.getElem?_eq_some_iff.mp there
    rcases follow_advances followed advances with ⟨rfl, outside⟩ | ⟨rfl, f, resumed, rfl⟩
    · refine inv.apart (apart_advances rfl fun _ _ => rfl) flag (inv.stopping i) ?_
      intro y _ within
      have runs := outside (inv.scans i x there within)
      exact absurd within (by rw [runs]; exact Bool.false_ne_true)
    · refine inv.apart (apart_advances rfl fun j other => Function.update_of_ne other f s.fibers)
        flag ?_ ?_
      · intro ends
        simp only [Function.update_self] at ends
        exact inv.stopping i (.inl (resume_ends resumed ends))
      · intro y here _
        rw [List.getElem?_set_self bound] at here
        cases here
        rfl

/-- A coroutine has made its test. -/
theorem Steady.test (inv : Steady s) (here : s.fibers i = .test) :
    Steady ⟨s.base, Function.update s.fibers i (kind.test s.base.sched)⟩ :=
  inv.inside rfl id (by rw [here]; rfl) test_stopping

theorem Inv.next (inv : Inv s) (edge : s.step kind a = some t) : Inv t := by
  cases a with
  | sched a =>
    refine ⟨inv.toSteady.sched edge, ?_⟩
    obtain ⟨base, fibers, moved, -, rfl⟩ := step_sched edge
    exact inv.conserved.next moved
  | round i batch =>
    obtain ⟨here, edge⟩ := Option.ite_none_right_eq_some.mp edge
    obtain ⟨base, stored, rfl⟩ := Option.map_eq_some_iff.mp edge
    have within : (s.fibers i).inside = true := by rw [here]; rfl
    split_ifs at stored with empty
    · cases stored
      exact ⟨inv.inside rfl id within (by nofun), inv.conserved⟩
    · have conserved := inv.conserved.next stored
      cases stored
      exact ⟨inv.inside rfl id within (by nofun), conserved⟩
  | test i =>
    obtain ⟨here, edge⟩ := Option.ite_none_right_eq_some.mp edge
    cases edge
    exact ⟨inv.toSteady.test here, inv.conserved⟩

/-! ## Resumptions -/

/-- Beside the step of worker `i`, no other finished coroutine comes to be resumed. -/
theorem Resumable.apart (before : Resumable s) (apart : Apart s t i)
    (own : ∀ x, t.base.workers[i]? = some x → x.pc = .idle → t.fibers i ≠ .returned) :
    Resumable t := by
  intro j x there idle
  by_cases this : j = i
  · rw [this] at there ⊢
    exact own x there idle
  · rw [apart.fibers j this]
    exact before j x (apart.workers j x this there) idle

/-- A coroutine that goes on inside its worker is not about to be resumed. -/
theorem Resumable.inside (before : Resumable s) (inv : Inv s) {base : Workers β} {f : Fiber}
    (workers : base.workers = s.base.workers) (here : (s.fibers i).inside = true) :
    Resumable ⟨base, Function.update s.fibers i f⟩ := by
  refine before.apart (apart_inside workers) fun x there idle => ?_
  rw [workers] at there
  have scans := inv.scans i x there here
  rw [idle] at scans
  cases scans

/-- A worker that advances is not about to resume a finished coroutine, unless it
comes to the resumption. -/
theorem Resumable.advances (before : Resumable s) {base : Workers β} {fibers : ℕ → Fiber}
    {y : Worker β} (there : s.base.workers[i]? = some x)
    (workers : base.workers = s.base.workers.set i y)
    (others : ∀ j, j ≠ i → fibers j = s.fibers j) (own : y.pc = .idle → fibers i ≠ .returned) :
    Resumable ⟨base, fibers⟩ := by
  refine before.apart (apart_advances workers others) fun z after idle => ?_
  obtain ⟨bound, -⟩ := List.getElem?_eq_some_iff.mp there
  rw [workers, List.getElem?_set_self bound] at after
  cases after
  exact own idle

end Fibers

end Sylar
