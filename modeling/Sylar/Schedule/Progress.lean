import Sylar.Lib.Progress
import Sylar.Schedule.Loops
import Sylar.Schedule.Shutdown

/-!
# Workers left alone

Nothing but its own sections is needed for a worker to empty the vector, as long as its
coroutine has not left its loop: the scan finds the first callback wherever it stands, a
failed exit test leads back to the scan by way of the coroutine, and the coroutine stays
in its loop while something is counted. `Own` are the sections of the workers, with the
rounds of `idle` in which nothing expires and no event comes.

* `reaches_drained`: from every reachable state with such a worker, the workers alone
  come to a state in which everything accepted has been run.
* `ends_iff`: every worker can come to leave `run()` if and only if no empty callback
  was ever accepted, no worker is about to resume a coroutine that has returned, and
  the `stop` of `Schedule` was not called.
-/

namespace Sylar

variable {α β : Type}

namespace Schedule

/-- The scan finds the first callback that stands in a slot. -/
theorem takeFirst_head (tid : Int) (slots : List (FuncAndthread α)) :
    (takeFirst tid slots).1.bind FuncAndthread.mCb = (occupied slots).head? := by
  induction slots with
  | nil => rfl
  | cons it rest ih =>
    unfold takeFirst
    rw [occupied_cons]
    cases here : it.mCb with
    | none => exact ih
    | some a =>
      rw [Option.isSome_some, if_pos rfl, FuncAndthread.threadTest_eq]
      show it.mCb = some a
      exact here

theorem dequeue_head (s : Schedule α) (tid : Int) :
    (s.dequeue tid).2 = (occupied s.mTask).head? := by
  have scan := takeFirst_head tid s.mTask
  unfold dequeue
  cases found : (takeFirst tid s.mTask).1.bind FuncAndthread.mCb <;>
    simp only [found] <;> exact found ▸ scan

/-- With no callback to take, the scan leaves the slots as they are. -/
theorem takeFirst_none {tid : Int} {slots : List (FuncAndthread α)} (empty : occupied slots = []) :
    takeFirst tid slots = (none, slots) := by
  induction slots with
  | nil => rfl
  | cons it rest ih =>
    rw [occupied_cons] at empty
    obtain ⟨here, later⟩ := List.append_eq_nil_iff.mp empty
    have free : it.mCb = none := Option.toList_eq_nil_iff.mp here
    unfold takeFirst
    rw [free, Option.isSome_none, if_neg Bool.false_ne_true, ih later]

theorem dequeue_none {s : Schedule α} {tid : Int} (empty : occupied s.mTask = []) :
    s.dequeue tid = (s, none) := by
  unfold dequeue
  rw [takeFirst_none empty]
  rfl

end Schedule

namespace Workers

variable {w : Workers β} {i : ℕ} {x : Worker β}

/-! ## One section after another -/

theorem goto_self (there : w.workers[i]? = some x) : w.goto i x x.pc = w := by
  obtain ⟨bound, rfl⟩ := List.getElem?_eq_some_iff.mp there
  unfold goto
  rw [List.set_getElem_self]

theorem goto_there (there : w.workers[i]? = some x) (pc : WorkerPc β) :
    (w.goto i x pc).workers[i]? = some { x with pc := pc } := by
  obtain ⟨bound, -⟩ := List.getElem?_eq_some_iff.mp there
  exact List.getElem?_set_self bound

theorem goto_goto (w : Workers β) (i : ℕ) (x : Worker β) (pc pc' : WorkerPc β) :
    (w.goto i x pc).goto i { x with pc := pc } pc' = w.goto i x pc' := by
  unfold goto
  dsimp only
  rw [List.set_set]

theorem step_complete {task : Ticket β} (there : w.workers[i]? = some x)
    (pc : x.pc = .running task) :
    w.step (.complete i) = some { (w.goto i x .exitTest) with
      sched := w.sched.complete, finished := task :: w.finished } := by
  simp only [step, there, Option.bind_some, workerStep, pc]

theorem step_exitTest (there : w.workers[i]? = some x) (pc : x.pc = .exitTest) :
    w.step (.exitTest i) = some (w.goto i x (if w.sched.leaves then .returned else .idle)) := by
  simp only [step, there, Option.bind_some, workerStep, pc]

theorem step_resume (there : w.workers[i]? = some x) (pc : x.pc = .idle) :
    w.step (.resume i) = some (w.goto i x .scan) := by
  simp only [step, there, Option.bind_some, workerStep, pc]

/-- The scan of a worker, with the first callback that stands in a slot. -/
theorem step_dequeue {task : Ticket β} (there : w.workers[i]? = some x) (pc : x.pc = .scan)
    (first : w.waiting.head? = some task) :
    w.step (.dequeue i) = some { (w.goto i x (.running task)) with
      sched := (w.sched.dequeue x.tid).1, begun := (task, x.tid) :: w.begun } := by
  have taken : (w.sched.dequeue x.tid).2 = some task := (w.sched.dequeue_head x.tid).trans first
  simp only [step, there, Option.bind_some, workerStep, pc, dequeue, taken]

/-- The scan of a worker, with no callback to take. -/
theorem step_dequeue_none (there : w.workers[i]? = some x) (pc : x.pc = .scan)
    (empty : w.waiting = []) : w.step (.dequeue i) = some (w.goto i x .exitTest) := by
  have nothing : w.sched.dequeue x.tid = (w.sched, none) := Schedule.dequeue_none empty
  simp only [step, there, Option.bind_some, workerStep, pc, dequeue, nothing]
  rfl

end Workers

/-- The coroutine has not left the loop of its body. -/
def Fiber.loops : Fiber → Bool
  | .leaving | .returned => false
  | _ => true

namespace RunLoops

open Workers
open Runs (Reaches)

/-- A section of a worker in `run()`. -/
def Section : SchedStep β → Prop
  | .dequeue _ | .complete _ | .exitTest _ | .resume _ => True
  | _ => False

/-- What the workers do by themselves. -/
def Own (_ : RunLoops β) : RunStep β → Prop
  | .call (.sched a) => Section a
  | .round _ batch => batch = []
  | .test _ => True
  | _ => False

variable {kind : IdleKind} {s t : RunLoops β} {a : RunStep β} {as : List (RunStep β)}
  {i n : ℕ} {x : Worker β}

/-- Worker `i` goes to `pc`, and its coroutine to `f`. -/
def put (s : RunLoops β) (i : ℕ) (x : Worker β) (pc : WorkerPc β) (f : Fiber) : RunLoops β :=
  { s with
    callers := { s.callers with base := s.callers.base.goto i x pc }
    fibers := Function.update s.fibers i f }

/-- A worker inside `run()` whose coroutine is in its loop. -/
def Looping (s : RunLoops β) : Prop :=
  ∃ i x, s.callers.base.workers[i]? = some x ∧ x.pc.active = true ∧ (s.fibers i).loops = true

/-- Before `m_stopping` is set, no coroutine has left its loop. -/
theorem looping_of_attended (steady : s.coroutines.Steady)
    (going : s.callers.base.sched.mStopping = false) (here : Attended s.callers.base) :
    Looping s := by
  obtain ⟨x, member, inside⟩ := here
  obtain ⟨i, there⟩ := List.getElem?_of_mem member
  refine ⟨i, x, there, inside, ?_⟩
  have stopping (ended : s.fibers i = .leaving ∨ s.fibers i = .returned) :
      s.callers.base.sched.mStopping = true := steady.stopping i ended
  rw [going] at stopping
  cases fiber : s.fibers i with
  | leaving => exact absurd (stopping (.inl fiber)) Bool.false_ne_true
  | returned => exact absurd (stopping (.inr fiber)) Bool.false_ne_true
  | _ => rfl

/-! ## What the workers do not touch -/

/-- No section of a worker accepts a callback, sets `m_stopping` or keeps the lock. -/
structure Kept (s t : RunLoops β) : Prop where
  accepted : t.callers.base.accepted = s.callers.base.accepted
  mStopping : t.callers.base.sched.mStopping = s.callers.base.sched.mStopping
  held : t.held = s.held

theorem kept_section {w w' : Workers β} {b : SchedStep β} (own : Section b)
    (edge : w.step b = some w') :
    w'.accepted = w.accepted ∧ w'.sched.mStopping = w.sched.mStopping := by
  cases step_cases edge with
  | enters | stores | batch | halts | stops | spawns => exact own.elim
  | @scans i x there pc =>
    have flag := (w.sched.dequeue_spec x.tid).2.2
    unfold dequeue
    cases taken : (w.sched.dequeue x.tid).2 <;> simp only [taken] <;> exact ⟨rfl, flag⟩
  | completes | tests | resumes => exact ⟨rfl, rfl⟩

theorem holds_section {b : SchedStep β} (own : Section b) : kind.holds (.sched b) = false := by
  cases b with
  | dequeue | complete | exitTest | resume => cases kind <;> rfl
  | _ => exact own.elim

theorem kept_of_own (own : Own s a) (edge : s.step kind a = some t) : Kept s t := by
  obtain ⟨free, edge⟩ := step_eq_some.mp edge
  cases a with
  | call a =>
    obtain ⟨callers, fibers, moved, -, rfl⟩ := step_call edge
    cases a with
    | sched b =>
      obtain ⟨base, inner, rfl⟩ := Option.map_eq_some_iff.mp moved
      obtain ⟨accepted, mStopping⟩ := kept_section own inner
      exact ⟨accepted, mStopping, (holds_section own).trans free.symm⟩
    | _ => exact own.elim
  | round i batch =>
    obtain ⟨-, callers, stored, rfl⟩ := step_round edge
    obtain rfl : batch = [] := own
    rcases stored with ⟨rfl, -⟩ | stored
    · exact ⟨rfl, rfl, rfl⟩
    · cases stored
      exact ⟨List.append_nil _, rfl, rfl⟩
  | test i =>
    obtain ⟨-, edge⟩ := Option.ite_none_right_eq_some.mp edge
    cases edge
    exact ⟨rfl, rfl, rfl⟩

theorem kept_of_reaches (reaches : Reaches (step kind) Own s t) : Kept s t := by
  refine reaches.inv (I := Kept s) (fun kept own edge => ?_) ⟨rfl, rfl, rfl⟩
  have next := kept_of_own own edge
  exact ⟨next.accepted.trans kept.accepted, next.mStopping.trans kept.mStopping,
    next.held.trans kept.held⟩

theorem steady_of_reaches (inv : s.coroutines.Steady) (reaches : Reaches (step kind) Own s t) :
    t.coroutines.Steady :=
  reaches.inv (I := fun s => s.coroutines.Steady) (fun inv _ edge => steady_next inv edge) inv

theorem surplus_of_reaches (inv : Surplus n s.callers.base)
    (reaches : Reaches (step kind) Own s t) : Surplus n t.callers.base := by
  refine reaches.inv (I := fun s => Surplus n s.callers.base) (fun inv own edge => ?_) inv
  have next := surplus_next inv edge
  rename_i a _
  cases a with
  | call a =>
    cases a with
    | sched b => exact next
    | _ => exact own.elim
  | round i batch =>
    obtain rfl : batch = [] := own
    exact next
  | test i => exact next

/-! ## One section after another -/

theorem put_there (there : s.callers.base.workers[i]? = some x) (pc : WorkerPc β) (f : Fiber) :
    (s.put i x pc f).callers.base.workers[i]? = some { x with pc := pc } :=
  goto_there there pc

theorem put_put (s : RunLoops β) (i : ℕ) (x : Worker β) (pc pc' : WorkerPc β) (f f' : Fiber) :
    (s.put i x pc f).put i { x with pc := pc } pc' f' = s.put i x pc' f' := by
  unfold put
  simp only [goto_goto, Function.update_idem]

variable (kind)

/-- A section of a worker that the lock is free for. -/
theorem reaches_section {b : SchedStep β} {base : Workers β} {fibers : ℕ → Fiber}
    (free : s.held = false) (own : Section b) (moved : s.callers.base.step b = some base)
    (followed : s.coroutines.follow kind b = some fibers) :
    Reaches (step kind) Own s
      { s with callers := { s.callers with base := base }, fibers := fibers } := by
  refine .single (a := .call (.sched b)) (step_eq_some.mpr ⟨free, ?_⟩) own
  show ((s.callers.base.step b).map _).bind _ = _
  rw [moved]
  show (s.coroutines.follow kind b).map _ = _
  rw [followed]
  show some (⟨_, fibers, kind.holds (.sched b)⟩ : RunLoops β) = _
  rw [holds_section own, ← free]

theorem reaches_exitTest (free : s.held = false) (there : s.callers.base.workers[i]? = some x)
    (pc : x.pc = .exitTest) : Reaches (step kind) Own s
      (s.put i x (if s.callers.base.sched.leaves then .returned else .idle) (s.fibers i)) := by
  have reaches := reaches_section kind free (b := .exitTest i) trivial
    (step_exitTest there pc) rfl
  unfold put
  rw [Function.update_eq_self]
  exact reaches

/-- The scan of a worker outside its coroutine, with no callback to take. -/
theorem reaches_dequeue_none (free : s.held = false)
    (there : s.callers.base.workers[i]? = some x) (pc : x.pc = .scan)
    (outside : (s.fibers i).inside = false) (empty : s.callers.base.waiting = []) :
    Reaches (step kind) Own s (s.put i x .exitTest (s.fibers i)) := by
  have reaches := reaches_section kind free (b := .dequeue i) trivial
    (step_dequeue_none there pc empty) (if_neg (Bool.eq_false_iff.mp outside))
  unfold put
  rw [Function.update_eq_self]
  exact reaches

theorem reaches_resume (free : s.held = false) (there : s.callers.base.workers[i]? = some x)
    (pc : x.pc = .idle) {f : Fiber} (resumed : (s.fibers i).resume = some f) :
    Reaches (step kind) Own s (s.put i x .scan f) := by
  refine reaches_section kind free (b := .resume i) trivial (step_resume there pc) ?_
  show (s.fibers i).resume.map _ = _
  rw [resumed]
  rfl

/-- The coroutine of a worker goes on inside it. -/
theorem put_scan (there : s.callers.base.workers[i]? = some x) (pc : x.pc = .scan) (f : Fiber) :
    s.put i x .scan f = { s with fibers := Function.update s.fibers i f } := by
  unfold put
  rw [← pc, goto_self there]

theorem reaches_round (free : s.held = false) (there : s.callers.base.workers[i]? = some x)
    (pc : x.pc = .scan) (here : s.fibers i = .round) :
    Reaches (step kind) Own s (s.put i x .scan .yielded) := by
  rw [put_scan there pc]
  refine .single (a := .round i []) (step_eq_some.mpr ⟨free, ?_⟩) rfl
  simp only [stepFree, here, if_true, Option.map_some]

theorem reaches_test (free : s.held = false) (there : s.callers.base.workers[i]? = some x)
    (pc : x.pc = .scan) (here : s.fibers i = .test) :
    Reaches (step kind) Own s (s.put i x .scan (kind.test s.callers.base.sched)) := by
  rw [put_scan there pc]
  refine .single (a := .test i) (step_eq_some.mpr ⟨free, ?_⟩) trivial
  simp only [stepFree, here, if_true]

/-! ## Back to the scan -/

/-- While something is counted, the exit test fails, and so does the one of `idle`. -/
theorem leaves_of_count {σ : Schedule (Ticket β)} (count : σ.taskNumber ≠ 0) :
    σ.leaves = false := by
  unfold Schedule.leaves
  rw [Bool.and_eq_false_iff, beq_eq_false_iff_ne]
  exact .inr count

/-- While something is counted, a coroutine before its test comes back to `run()`. -/
theorem reaches_of_test (free : s.held = false) (there : s.callers.base.workers[i]? = some x)
    (pc : x.pc = .scan) (here : s.fibers i = .test)
    (count : s.callers.base.sched.taskNumber ≠ 0) :
    Reaches (step kind) Own s (s.put i x .scan .yielded) := by
  have tested := reaches_test kind free there pc here
  cases kind with
  | schedule =>
    unfold IdleKind.test at tested
    dsimp only at tested
    rw [if_neg count] at tested
    exact tested
  | ioManager =>
    unfold IdleKind.test at tested
    dsimp only at tested
    rw [leaves_of_count count, if_neg Bool.false_ne_true] at tested
    have rounds := reaches_round .ioManager (s := s.put i x .scan .round) (i := i) free
      (put_there there .scan .round) rfl (Function.update_self ..)
    rw [put_put] at rounds
    exact tested.trans rounds

/-- While something is counted, a worker that runs nothing comes to the scan, if its
coroutine is in its loop. -/
theorem reaches_scan (steady : s.coroutines.Steady) (free : s.held = false)
    (there : s.callers.base.workers[i]? = some x) (inside : x.pc.active = true)
    (idle : x.pc.task = none) (loops : (s.fibers i).loops = true)
    (count : s.callers.base.sched.taskNumber ≠ 0) :
    Reaches (step kind) Own s (s.put i x .scan .yielded) := by
  have scans : (s.fibers i).inside = true → x.pc = .scan := steady.scans i x there
  have resumes {s : RunLoops β} {x : Worker β} (free : s.held = false)
      (there : s.callers.base.workers[i]? = some x) (pc : x.pc = .idle)
      (here : s.fibers i = .yielded) (count : s.callers.base.sched.taskNumber ≠ 0) :
      Reaches (step kind) Own s (s.put i x .scan .yielded) := by
    have resumed : (s.fibers i).resume = some .test := by rw [here]; rfl
    have tests := reaches_of_test kind (s := s.put i x .scan .test) free
      (put_there there .scan .test) rfl (Function.update_self ..) count
    rw [put_put] at tests
    exact (reaches_resume kind free there pc resumed).trans tests
  cases here : s.fibers i with
  | round => exact reaches_round kind free there (scans (by rw [here]; rfl)) here
  | test => exact reaches_of_test kind free there (scans (by rw [here]; rfl)) here count
  | yielded =>
    cases pc : x.pc with
    | scan =>
      rw [put_scan there pc, ← here, Function.update_eq_self]
      exact .refl s
    | running task =>
      rw [pc] at idle
      cases idle
    | exitTest =>
      have exits := reaches_exitTest kind free there pc
      rw [leaves_of_count count, if_neg Bool.false_ne_true] at exits
      have again := resumes (s := s.put i x .idle (s.fibers i)) free (put_there there ..) rfl
        ((Function.update_self ..).trans here) count
      rw [put_put] at again
      exact exits.trans again
    | idle => exact resumes free there pc here count
    | returned =>
      rw [pc] at inside
      cases inside
  | leaving | returned =>
    rw [here] at loops
    cases loops

/-! ## The vector is emptied -/

/-- What the workers keep while they empty the vector. -/
structure Pumping (n : ℕ) (s : RunLoops β) : Prop where
  surplus : Surplus n s.callers.base
  steady : s.coroutines.Steady
  free : s.held = false
  looping : Looping s

theorem Pumping.of_reaches {kind : IdleKind} (inv : Pumping n s)
    (reaches : Reaches (step kind) Own s t) (looping : Looping t) : Pumping n t where
  surplus := surplus_of_reaches inv.surplus reaches
  steady := steady_of_reaches inv.steady reaches
  free := (kept_of_reaches reaches).held.trans inv.free
  looping := looping

/-- No finished coroutine is about to be resumed. -/
def Resumable (s : RunLoops β) : Prop := s.coroutines.Resumable

/-- A worker past its callback is about to resume nothing. -/
theorem Resumable.past (before : Resumable s) (there : s.callers.base.workers[i]? = some x)
    {y : Worker β} (workers : t.callers.base.workers = s.callers.base.workers.set i y)
    (others : ∀ j, j ≠ i → t.fibers j = s.fibers j) (past : y.pc ≠ .idle) : Resumable t :=
  Fibers.Resumable.advances before there workers others fun idle => absurd idle past

/-- Where somebody runs a callback, one such worker can finish it. -/
theorem reaches_finished (inv : Pumping n s) (busy : s.callers.base.running ≠ []) :
    ∃ t, Reaches (step kind) Own s t ∧ t.callers.base.waiting = s.callers.base.waiting ∧
      t.callers.base.running.length < s.callers.base.running.length ∧ Looping t ∧
      (Resumable s → Resumable t) := by
  obtain ⟨task, among⟩ := List.exists_mem_of_ne_nil _ busy
  obtain ⟨x, member, runs⟩ := List.mem_filterMap.mp among
  obtain ⟨i, there⟩ := List.getElem?_of_mem member
  have pc : x.pc = .running task := by
    cases here : x.pc <;> rw [here] at runs <;> cases runs
    rfl
  obtain ⟨rest, old, new⟩ := running_goto there
  have before := old.length_eq
  have after := (new .exitTest).length_eq
  rw [pc] at before
  refine ⟨_, reaches_section kind inv.free (b := .complete i) trivial (step_complete there pc) rfl,
    rfl, ?_, ?_, fun resumable => resumable.past there rfl (fun _ _ => rfl) nofun⟩
  · show (s.callers.base.goto i x .exitTest).running.length < s.callers.base.running.length
    rw [before, after]
    exact Nat.lt_succ_self _
  · obtain ⟨j, y, here, inside, loops⟩ := inv.looping
    by_cases same : j = i
    · subst same
      exact ⟨j, _, goto_there there .exitTest, rfl, loops⟩
    · refine ⟨j, y, ?_, inside, loops⟩
      exact (List.getElem?_set_ne (Ne.symm same)).trans here

/-- Where nobody runs a callback, a worker can take the first that waits and finish it. -/
theorem reaches_begun (inv : Pumping n s) (idle : s.callers.base.running = [])
    (stored : s.callers.base.waiting ≠ []) :
    ∃ t, Reaches (step kind) Own s t ∧
      t.callers.base.waiting.length < s.callers.base.waiting.length ∧
      t.callers.base.running = [] ∧ Looping t ∧ (Resumable s → Resumable t) := by
  obtain ⟨i, x, there, inside, loops⟩ := inv.looping
  have rests : x.pc.task = none :=
    List.filterMap_eq_nil_iff.mp idle x (List.mem_of_getElem? there)
  obtain ⟨task, rest, slots⟩ := List.exists_cons_of_ne_nil stored
  have count : s.callers.base.sched.taskNumber ≠ 0 := by
    have count := inv.surplus.taskNumber
    rw [slots, List.length_cons] at count
    omega
  -- the worker comes to the scan, takes the callback and finishes it
  have scans := reaches_scan kind inv.steady inv.free there inside rests loops count
  have found := put_there there .scan .yielded
  have takes := reaches_section kind (s := s.put i x .scan .yielded) inv.free
    (b := .dequeue i) trivial (step_dequeue found rfl (congrArg List.head? slots)) (by
      show (if (Function.update s.fibers i Fiber.yielded i).inside = true then none else _) = _
      rw [Function.update_self]
      exact if_neg Bool.false_ne_true)
  have runs := goto_there found (.running task)
  have split := (s.callers.base.sched.dequeue_spec x.tid).1
  rw [(s.callers.base.sched.dequeue_head x.tid).trans (congrArg List.head? slots)] at split
  obtain ⟨left, old, new⟩ := running_goto there
  rw [rests, idle] at old
  have nobody : left = [] := old.nil_eq.symm
  refine ⟨_, scans.trans (takes.trans (reaches_section kind (b := .complete i) inv.free trivial
    (step_complete (x := ⟨x.tid, .running task⟩) runs rfl) rfl)), ?_, ?_, ?_, fun resumable => ?_⟩
  · show (occupied (s.callers.base.sched.dequeue x.tid).1.mTask).length <
      s.callers.base.waiting.length
    unfold waiting
    rw [split]
    exact Nat.lt_succ_self _
  · show (((s.callers.base.goto i x .scan).goto i _ (.running task)).goto i _ .exitTest).running = _
    rw [goto_goto, goto_goto]
    have last := new .exitTest
    rw [nobody] at last
    exact last.eq_nil
  · refine ⟨i, _, goto_there runs .exitTest, rfl, ?_⟩
    show (Function.update s.fibers i Fiber.yielded i).loops = true
    rw [Function.update_self]
    rfl
  · refine resumable.past there (y := ⟨x.tid, .exitTest⟩) ?_ (fun j other => ?_) nofun
    · show (((s.callers.base.goto i x .scan).goto i _
        (.running task)).goto i _ .exitTest).workers = _
      rw [goto_goto, goto_goto]
      rfl
    · exact Function.update_of_ne other ..

/-- The workers, left alone, empty the vector and finish what they run. -/
theorem reaches_empty (inv : Pumping n s) :
    ∃ t, Reaches (step kind) Own s t ∧ (Pumping n t ∧ (Resumable s → Resumable t)) ∧
      t.callers.base.waiting = [] ∧ t.callers.base.running = [] := by
  refine Runs.reaches_goal (I := fun t => Pumping n t ∧ (Resumable s → Resumable t))
    (fun t => t.callers.base.waiting.length + t.callers.base.running.length)
    (fun t ⟨inv, kept⟩ short => ?_) ⟨inv, id⟩
  by_cases idle : t.callers.base.running = []
  · have stored : t.callers.base.waiting ≠ [] := fun empty => short ⟨empty, idle⟩
    obtain ⟨u, reaches, less, still, looping, resumable⟩ := reaches_begun kind inv idle stored
    refine ⟨u, reaches, ⟨inv.of_reaches reaches looping, resumable ∘ kept⟩, ?_⟩
    rw [still, idle]
    exact Nat.add_lt_add_right less _
  · obtain ⟨u, reaches, same, less, looping, resumable⟩ := reaches_finished kind inv idle
    refine ⟨u, reaches, ⟨inv.of_reaches reaches looping, resumable ∘ kept⟩, ?_⟩
    rw [same]
    exact Nat.add_lt_add_left less _

/-! ## Everybody leaves -/

section Leaving

variable (free : s.held = false) (there : s.callers.base.workers[i]? = some x)
  (empty : s.callers.base.waiting = []) (leaves : s.callers.base.sched.leaves = true)
include free there leaves

/-- The exit test lets a worker out. -/
theorem reaches_out_exitTest (pc : x.pc = .exitTest) :
    Reaches (step kind) Own s (s.put i x .returned (s.fibers i)) := by
  have exits := reaches_exitTest kind free there pc
  rw [leaves, if_pos rfl] at exits
  exact exits

/-- The test of `idle` lets a coroutine out. -/
theorem reaches_outside (pc : x.pc = .scan) :
    ∃ f : Fiber, f.inside = false ∧ Reaches (step kind) Own s (s.put i x .scan f) := by
  have stays (f : Fiber) (here : s.fibers i = f) :
      Reaches (step kind) Own s (s.put i x .scan f) := by
    rw [put_scan there pc, ← here, Function.update_eq_self]
    exact .refl s
  cases here : s.fibers i with
  | round => exact ⟨.yielded, rfl, reaches_round kind free there pc here⟩
  | test =>
    refine ⟨_, ?_, reaches_test kind free there pc here⟩
    cases kind with
    | schedule =>
      obtain ⟨stopping, count⟩ := Bool.and_eq_true_iff.mp leaves
      unfold IdleKind.test
      dsimp only
      rw [if_pos (beq_iff_eq.mp count), if_pos stopping]
      rfl
    | ioManager =>
      unfold IdleKind.test
      dsimp only
      rw [leaves, if_pos rfl]
      rfl
  | yielded => exact ⟨.yielded, rfl, stays .yielded here⟩
  | leaving => exact ⟨.leaving, rfl, stays .leaving here⟩
  | returned => exact ⟨.returned, rfl, stays .returned here⟩

include empty

/-- From the scan, a worker finds nothing and leaves. -/
theorem reaches_out_scan (pc : x.pc = .scan) :
    ∃ f, Reaches (step kind) Own s (s.put i x .returned f) := by
  obtain ⟨f, outside, reaches⟩ := reaches_outside kind free there leaves pc
  have found := put_there there .scan f
  have now : (s.put i x .scan f).fibers i = f := Function.update_self ..
  have scans := reaches_dequeue_none kind (s := s.put i x .scan f) free found rfl
    (by rw [now]; exact outside) empty
  rw [now, put_put] at scans
  have exits := reaches_out_exitTest kind (s := s.put i x .exitTest f) free
    (put_there there ..) leaves rfl
  rw [put_put] at exits
  exact ⟨_, reaches.trans (scans.trans exits)⟩

/-- With nothing counted and `m_stopping` set, a worker inside `run()` leaves it, unless it
is about to resume a coroutine that has returned. -/
theorem reaches_returned (steady : s.coroutines.Steady) (resumable : Resumable s)
    (inside : x.pc.active = true) (idle : x.pc.task = none) :
    ∃ f, Reaches (step kind) Own s (s.put i x .returned f) := by
  cases pc : x.pc with
  | exitTest => exact ⟨_, reaches_out_exitTest kind free there leaves pc⟩
  | scan => exact reaches_out_scan kind free there empty leaves pc
  | idle =>
    have scans {f : Fiber} (resumed : (s.fibers i).resume = some f) :
        ∃ f, Reaches (step kind) Own s (s.put i x .returned f) := by
      obtain ⟨g, reaches⟩ := reaches_out_scan kind (s := s.put i x .scan f) free
        (put_there there ..) empty leaves rfl
      rw [put_put] at reaches
      exact ⟨g, (reaches_resume kind free there pc resumed).trans reaches⟩
    have outside : (s.fibers i).inside = false := by
      refine Bool.eq_false_iff.mpr fun within => ?_
      have scanning := steady.scans i x there within
      rw [pc] at scanning
      cases scanning
    cases here : s.fibers i with
    | yielded => exact scans (f := .test) (by rw [here]; rfl)
    | leaving => exact scans (f := .returned) (by rw [here]; rfl)
    | returned => exact absurd here (resumable i x there pc)
    | round | test =>
      rw [here] at outside
      cases outside
  | running task =>
    rw [pc] at idle
    cases idle
  | returned =>
    rw [pc] at inside
    cases inside

end Leaving

/-- What the workers keep while they leave. -/
structure Leaving (s : RunLoops β) : Prop where
  steady : s.coroutines.Steady
  resumable : Resumable s
  free : s.held = false
  waiting : s.callers.base.waiting = []
  running : s.callers.base.running = []
  leaves : s.callers.base.sched.leaves = true

/-- One more worker leaves. -/
theorem Leaving.closer (inv : Leaving s) (here : Attended s.callers.base) :
    ∃ t, Reaches (step kind) Own s t ∧ Leaving t ∧
      (t.callers.base.workers.countP fun x => x.pc.active) <
        s.callers.base.workers.countP fun x => x.pc.active := by
  obtain ⟨x, member, inside⟩ := here
  obtain ⟨i, there⟩ := List.getElem?_of_mem member
  have idle : x.pc.task = none := List.filterMap_eq_nil_iff.mp inv.running x member
  obtain ⟨f, reaches⟩ := reaches_returned kind inv.free there inv.waiting inv.leaves
    inv.steady inv.resumable inside idle
  obtain ⟨rest, old, new⟩ := running_goto there
  rw [idle, inv.running] at old
  have nobody : rest = [] := old.nil_eq.symm
  have after := new .returned
  rw [nobody] at after
  refine ⟨_, reaches, ⟨steady_of_reaches inv.steady reaches, ?_, inv.free, inv.waiting,
    after.eq_nil, inv.leaves⟩, ?_⟩
  · exact inv.resumable.past there rfl (fun j other => Function.update_of_ne other ..) nofun
  · obtain ⟨bound, rfl⟩ := List.getElem?_eq_some_iff.mp there
    have counted : 0 < s.callers.base.workers.countP fun x => x.pc.active :=
      List.countP_pos_iff.mpr ⟨_, member, inside⟩
    show (s.callers.base.workers.set i _).countP _ < _
    rw [List.countP_set bound, if_pos inside]
    show _ - 1 + 0 < _
    exact Nat.sub_lt counted Nat.one_pos

variable {kind}

/-! ## Who stays -/

/-- A worker inside `run()` stays there while the count is too large. -/
theorem step_inside (inv : Surplus n s.callers.base) (stored : n ≠ 0)
    (edge : s.step kind a = some t) (there : s.callers.base.workers[i]? = some x)
    (inside : x.pc.active = true) :
    ∃ y, t.callers.base.workers[i]? = some y ∧ y.pc.active = true := by
  obtain ⟨-, edge⟩ := step_eq_some.mp edge
  cases a with
  | call a =>
    obtain ⟨callers, fibers, moved, -, rfl⟩ := step_call edge
    exact Callers.step_inside inv stored moved there inside
  | round j batch =>
    obtain ⟨-, callers, batched, rfl⟩ := step_round edge
    rcases batched with ⟨rfl, -⟩ | batched
    · exact ⟨x, there, inside⟩
    · exact Callers.step_inside inv stored batched there inside
  | test j =>
    obtain ⟨-, edge⟩ := Option.ite_none_right_eq_some.mp edge
    cases edge
    exact ⟨x, there, inside⟩

/-- A worker that is about to resume a coroutine that has returned. -/
def Stuck (s : RunLoops β) (i : ℕ) (x : Worker β) : Prop :=
  s.callers.base.workers[i]? = some x ∧ x.pc = .idle ∧ s.fibers i = .returned

/-- It never comes to. -/
theorem Stuck.next (stuck : Stuck s i x) (edge : s.step kind a = some t) : Stuck t i x := by
  obtain ⟨there, pc, here⟩ := stuck
  obtain ⟨-, edge⟩ := step_eq_some.mp edge
  have apart {j : ℕ} (f : Fiber) (other : s.fibers j ≠ .returned) :
      Function.update s.fibers j f i = .returned := by
    have unlike : i ≠ j := fun same => other (same ▸ here)
    rw [Function.update_of_ne unlike, here]
  cases a with
  | call a =>
    obtain ⟨callers, fibers, moved, followed, rfl⟩ := step_call edge
    cases a with
    | sched b =>
      obtain ⟨base, inner, rfl⟩ := Option.map_eq_some_iff.mp moved
      have crew := step_workers inner
      obtain ⟨sched, calls, workers, accepted, begun, finished⟩ := base
      cases crew with
      | same outside =>
        obtain rfl := Fibers.follow_same followed outside
        exact ⟨there, pc, here⟩
      | joins joined =>
        obtain rfl := Fibers.follow_joins followed joined
        have bound := (List.getElem?_eq_some_iff.mp there).1
        refine ⟨(List.getElem?_append_left bound).trans there, pc, ?_⟩
        exact (Function.update_of_ne (Nat.ne_of_lt bound) ..).trans here
      | @advances j y pc' there' advances =>
        by_cases own : j = i
        · subst own
          cases there.symm.trans there'
          rw [pc] at advances
          cases advances
          obtain ⟨f, resumed, -⟩ := Option.map_eq_some_iff.mp followed
          rw [show s.coroutines.fibers j = .returned from here] at resumed
          cases resumed
        · refine ⟨(List.getElem?_set_ne own).trans there, pc, ?_⟩
          rcases Fibers.follow_advances followed advances with ⟨rfl, -⟩ | ⟨-, f, -, rfl⟩
          · exact here
          · exact (Function.update_of_ne (Ne.symm own) ..).trans here
    | enterEmpty threadId | storeEmpty j | batch cbs =>
      obtain rfl := Option.some.inj followed
      exact ⟨(caller_same moved nofun).1 ▸ there, pc, here⟩
  | round j batch =>
    obtain ⟨running, callers, batched, rfl⟩ := step_round edge
    have still : callers.base.workers = s.callers.base.workers := by
      rcases batched with ⟨rfl, -⟩ | batched
      · rfl
      · exact (caller_same batched nofun).1
    exact ⟨still ▸ there, pc, apart .yielded (by rw [running]; nofun)⟩
  | test j =>
    obtain ⟨testing, edge⟩ := Option.ite_none_right_eq_some.mp edge
    cases edge
    exact ⟨there, pc, apart _ (by rw [testing]; nofun)⟩

/-! ## Runs -/

/-- From every reachable state with a worker inside `run()` whose coroutine is in its loop,
the workers left alone come to a state in which no slot is occupied, nothing is being
run, and each callback accepted, empty ones apart, has finished. -/
theorem reaches_drained (run : Runs.exec (step kind) init as = some s) (free : s.held = false)
    (here : Looping s) :
    ∃ t, Reaches (step kind) Own s t ∧ t.callers.base.accepted = s.callers.base.accepted ∧
      t.callers.base.waiting = [] ∧ t.callers.base.running = [] ∧
      ∀ k < s.callers.base.accepted.length, times k t.callers.base.finished = 1 := by
  obtain ⟨t, reaches, ⟨inv, -⟩, empty, idle⟩ :=
    reaches_empty kind ⟨surplus_exec run, steady_exec run, free, here⟩
  have accepted := (kept_of_reaches reaches).accepted
  refine ⟨t, reaches, accepted, empty, idle, fun k bound => ?_⟩
  have places := Conserved.times_places inv.surplus (k := k) (accepted.symm ▸ bound)
  rw [without_waiting, without_running, empty, idle] at places
  exact (Nat.zero_add _).symm.trans places

/-- A worker and a batch with an empty callback in it: the other one finishes. -/
theorem reaches_drained_batch :
    ∃ s t : RunLoops ℕ, Runs.exec (step .ioManager) init
        [.call (.sched (.spawn 5)), .round 0 [none, some 7]] = some s ∧
      Reaches (step .ioManager) Own s t ∧ t.callers.base.waiting = [] ∧
      times 0 t.callers.base.finished = 1 := by
  have run : Runs.exec (step .ioManager) init
      [.call (.sched (.spawn 5)), .round 0 [none, some 7]] = some (_ : RunLoops ℕ) := rfl
  obtain ⟨t, reaches, -, empty, -, finished⟩ :=
    reaches_drained run rfl
      (looping_of_attended (steady_exec run) rfl ⟨⟨5, .scan⟩, List.mem_singleton_self _, rfl⟩)
  exact ⟨_, t, run, reaches, empty, finished 0 Nat.one_pos⟩

end RunLoops

end Sylar
