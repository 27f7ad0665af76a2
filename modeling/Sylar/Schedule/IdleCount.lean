import Mathlib.Data.List.ReduceOption
import Sylar.Schedule.Conservation

/-!
# The count of the idle workers

`idele_thread_cout` starts at 0. `run()` takes one off it in the section that takes
a callback, the line that would add one again is commented out, and `start()` leaves
it alone. `GetIdleThread()` returns it, and `IOmanager::hasThread()` tests it.

The runs are those of `Workers`, with the calls of both overloads whose callbacks may
be empty: such a callback leaves its slot free, and no worker takes it.

* `step_tallied`: what a step does to the count and to the callbacks begun.
* `drifted_of_exec`: over every interleaving the count is minus the number of the
  callbacks begun, and `hasThread()` is false.
* `idle_counted_iff`: the runs in which it is the number of the workers that are not
  running a task are those that no worker joins.
-/

namespace Sylar

variable {α β : Type}

namespace Schedule

/-- `Schedule::GetIdleThread()`. -/
def getIdleThread (s : Schedule α) : Int := s.ideleThreadCout

/-- `IOmanager::hasThread()`. -/
def hasThread (s : Schedule α) : Bool := decide (s.ideleThreadCout > 0)

/-- The section of the scan takes one off the count when it takes a callback. -/
theorem dequeue_count (s : Schedule α) (tid : Int) :
    (s.dequeue tid).1.ideleThreadCout + (s.dequeue tid).2.toList.length = s.ideleThreadCout := by
  unfold dequeue
  cases found : (takeFirst tid s.mTask).1.bind FuncAndthread.mCb with
  | none =>
    simp only [found]
    exact Int.add_zero _
  | some cb =>
    simp only [found]
    exact Int.sub_add_cancel s.ideleThreadCout 1

end Schedule

/-! ## The count against the workers -/

namespace Workers

/-- The workers that are not running a task. -/
def idleThreads (w : Workers β) : ℕ := w.workers.countP fun x => x.pc.task.isNone

/-- The count is the number of the workers that are not running a task. -/
structure Counted (w : Workers β) : Prop where
  idle : w.sched.getIdleThread = w.idleThreads
  nonneg : 0 ≤ w.sched.getIdleThread
  bounded : w.sched.getIdleThread ≤ w.workers.length

variable {w w' : Workers β} {a : SchedStep β} {i : ℕ} {x : Worker β}

/-- A worker either runs a task or does not. -/
theorem idleThreads_add_running (w : Workers β) :
    w.idleThreads + w.running.length = w.workers.length := by
  have split := List.length_eq_countP_add_countP (fun x : Worker β => x.pc.task.isNone)
    (l := w.workers)
  have busy : w.running.length = w.workers.countP fun x => x.pc.task.isSome :=
    List.length_filterMap_eq_countP
  have other : w.workers.countP (fun x => decide ¬x.pc.task.isNone = true) =
      w.workers.countP fun x => x.pc.task.isSome := by
    refine List.countP_congr fun x _ => ?_
    cases x.pc.task <;> simp
  unfold idleThreads
  omega

/-- What a step does to the count and to the callbacks begun: both stay, or a worker
takes a callback and one comes off the count. -/
inductive Tallied (w w' : Workers β) : Prop where
  | stays (count : w'.sched.ideleThreadCout = w.sched.ideleThreadCout)
      (begun : w'.begun = w.begun)
  | takes {i : ℕ} {x : Worker β} (task : Ticket β) (there : w.workers[i]? = some x)
      (count : w'.sched.ideleThreadCout + 1 = w.sched.ideleThreadCout)
      (begun : w'.begun = (task, x.tid) :: w.begun)

theorem tallied_dequeue (there : w.workers[i]? = some x) : Tallied w (w.dequeue i x) := by
  have count := w.sched.dequeue_count x.tid
  unfold dequeue
  cases taken : (w.sched.dequeue x.tid).2 with
  | none =>
    rw [taken] at count
    simp only [taken]
    exact .stays ((Int.add_zero _).symm.trans count) rfl
  | some task =>
    rw [taken] at count
    simp only [taken]
    exact .takes task there count rfl

theorem step_tallied (edge : w.step a = some w') : Tallied w w' := by
  cases step_cases edge with
  | enters cb threadId => split <;> exact .stays rfl rfl
  | scans there pc => exact tallied_dequeue there
  | stores | batch | halts | stops | spawns | completes | tests | resumes => exact .stays rfl rfl

/-! ## Who joins -/

/-- A thread enters `run()`: one of `start()`, or the caller of `stop()`. -/
def Starts : SchedStep β → Prop
  | .stop _ | .spawn _ => True
  | _ => False

/-- A step that a thread enters `run()` by adds one worker, and no worker is removed. -/
theorem length_workers_of_step (edge : w.step a = some w') :
    Starts a ∧ w'.workers.length = w.workers.length + 1 ∨
      ¬ Starts a ∧ w'.workers.length = w.workers.length := by
  have crew := step_workers edge
  generalize w'.workers = after at crew ⊢
  cases crew with
  | same outside =>
    refine .inr ⟨fun starts => ?_, rfl⟩
    cases a with
    | stop tid | spawn tid => exact outside
    | _ => exact starts
  | joins joined =>
    refine .inl ⟨?_, List.length_append⟩
    rcases joined with rfl | rfl <;> trivial
  | @advances i x pc there adv =>
    refine .inr ⟨fun starts => ?_, List.length_set⟩
    generalize x.pc = before at adv
    cases adv <;> exact starts

theorem workers_eq_nil_of_step (edge : w.step a = some w') (after : w'.workers = []) :
    w.workers = [] := by
  apply List.eq_nil_of_length_eq_zero
  rcases length_workers_of_step edge with ⟨-, length⟩ | ⟨-, length⟩ <;>
    rw [after, List.length_nil] at length <;> omega

/-- Without workers, a thread that enters `run()` is what makes the first. -/
theorem workers_eq_nil_iff (nobody : w.workers = []) (edge : w.step a = some w') :
    w'.workers = [] ↔ ¬ Starts a := by
  rcases length_workers_of_step edge with ⟨starts, length⟩ | ⟨outside, length⟩
  · refine iff_of_false (fun after => ?_) (not_not_intro starts)
    rw [after, List.length_nil] at length
    omega
  · rw [nobody] at length
    exact iff_of_true (List.eq_nil_of_length_eq_zero length) outside

/-! ## The drift -/

/-- The count is minus the number of the callbacks begun, those being run among them;
and only workers begin them. -/
structure Drifted (w : Workers β) : Prop where
  count : w.sched.ideleThreadCout = -(w.begun.length : Int)
  running : w.running.length ≤ w.begun.length
  taken : w.workers = [] → w.begun = []

theorem drifted_init : Drifted (init : Workers β) := ⟨rfl, Nat.le_refl _, fun _ => rfl⟩

theorem running_le_of_step (inv : w.running.length ≤ w.begun.length)
    (edge : w.step a = some w') : w'.running.length ≤ w'.begun.length := by
  cases step_moved edge with
  | stays _ running _ _ begun _ =>
    rw [running.length_eq, begun]
    exact inv
  | stores batch _ running _ _ begun _ =>
    rw [running, begun]
    exact inv
  | begins task tid _ running _ _ begun _ =>
    rw [running.length_eq, begun, List.length_cons, List.length_cons]
    exact Nat.succ_le_succ inv
  | finishes task _ running _ _ begun _ =>
    have fewer := running.length_eq
    rw [List.length_cons] at fewer
    rw [begun]
    omega

theorem Drifted.next (inv : Drifted w) (edge : w.step a = some w') : Drifted w' := by
  obtain ⟨drift, running, taken⟩ := inv
  have within := running_le_of_step running edge
  cases step_tallied edge with
  | stays count begun =>
    refine ⟨?_, within, fun after => ?_⟩
    · rw [count, begun, drift]
    · rw [begun]
      exact taken (workers_eq_nil_of_step edge after)
  | takes task there count begun =>
    refine ⟨?_, within, fun after => ?_⟩
    · rw [begun, List.length_cons, Int.natCast_add]
      omega
    · rw [workers_eq_nil_of_step edge after] at there
      cases there

/-- The slots and the accepted callbacks are no part of it. -/
theorem Drifted.congr (inv : Drifted w)
    (count : w'.sched.ideleThreadCout = w.sched.ideleThreadCout)
    (workers : w'.workers = w.workers) (begun : w'.begun = w.begun) : Drifted w' := by
  refine ⟨?_, ?_, ?_⟩
  · rw [count, begun]
    exact inv.count
  · unfold Workers.running
    rw [workers, begun]
    exact inv.running
  · rw [workers, begun]
    exact inv.taken

/-- Nobody is ever seen to be idle. -/
theorem Drifted.hasThread (inv : Drifted w) : w.sched.hasThread = false := by
  have count := inv.count
  exact decide_eq_false (by omega)

/-- With one worker, idle or not, the count is wrong. -/
theorem Drifted.counted_iff (inv : Drifted w) : Counted w ↔ w.workers = [] := by
  have all := w.idleThreads_add_running
  have running := inv.running
  have drift : w.sched.getIdleThread = -(w.begun.length : Int) := inv.count
  constructor
  · intro counted
    have idle := counted.idle
    exact List.eq_nil_of_length_eq_zero (by omega)
  · intro nobody
    have zero : w.sched.getIdleThread = 0 := by
      rw [drift, inv.taken nobody]
      rfl
    rw [nobody, List.length_nil] at all
    refine ⟨?_, Int.le_of_eq zero.symm, ?_⟩
    · omega
    · rw [zero]
      exact Int.natCast_nonneg _

end Workers

/-! ## Callers with empty callbacks -/

/-- The workers, with the calls of `schedule(cb, threadId)` between the test of
`m_stopping` and the locked section whose callback is empty. -/
structure Callers (β : Type) where
  base : Workers β
  emptyCalls : List Int

/-- The steps: those of the workers, the two sections of `schedule(cb, threadId)` with
an empty callback, and `schedule(begin, end)` on callbacks that may be empty. -/
inductive CallerStep (β : Type) where
  | sched (a : SchedStep β)
  | enterEmpty (threadId : Int)
  | storeEmpty (i : ℕ)
  | batch (cbs : List (Option β))

/-- Consecutive tickets for the callbacks of a batch that are not empty. -/
def numbered : ℕ → List (Option β) → List (Option (Ticket β))
  | _, [] => []
  | k, none :: cbs => none :: numbered k cbs
  | k, some cb :: cbs => some ⟨k, cb⟩ :: numbered (k + 1) cbs

namespace Callers

open Workers

def init : Callers β := ⟨Workers.init, []⟩

def step (s : Callers β) : CallerStep β → Option (Callers β)
  | .sched a => (s.base.step a).map fun base => { s with base := base }
  | .enterEmpty threadId =>
    some (if s.base.sched.mStopping then s
      else { s with emptyCalls := s.emptyCalls ++ [threadId] })
  | .storeEmpty i => match s.emptyCalls[i]? with
    | some threadId =>
      some {
        base := { s.base with sched := s.base.sched.schedule none threadId }
        emptyCalls := s.emptyCalls.eraseIdx i }
    | none => none
  | .batch cbs =>
    some { s with
      base := { s.base with
        sched := s.base.sched.scheduleRange (numbered s.base.accepted.length cbs)
        accepted := s.base.accepted ++ cbs.reduceOption.map fun cb => (cb, -1) } }

/-- Whether a thread enters `run()` in the step. -/
def Starts : CallerStep β → Prop
  | .sched a => Workers.Starts a
  | _ => False

variable {s t : Callers β} {a : CallerStep β}

/-- A step is one of the workers, or changes neither them nor the count. -/
theorem step_base (edge : s.step a = some t) :
    (∃ b, a = .sched b ∧ s.base.step b = some t.base) ∨
      ¬ Starts a ∧ t.base.sched.ideleThreadCout = s.base.sched.ideleThreadCout ∧
        t.base.workers = s.base.workers ∧ t.base.begun = s.base.begun := by
  cases a with
  | sched b =>
    obtain ⟨base, inner, rfl⟩ := Option.map_eq_some_iff.mp edge
    exact .inl ⟨b, rfl, inner⟩
  | enterEmpty threadId =>
    cases edge
    split <;> exact .inr ⟨id, rfl, rfl, rfl⟩
  | storeEmpty i =>
    cases found : s.emptyCalls[i]? <;>
      simp only [step, found, Option.some.injEq, reduceCtorEq] at edge
    subst edge
    exact .inr ⟨id, rfl, rfl, rfl⟩
  | batch cbs =>
    cases edge
    exact .inr ⟨id, rfl, rfl, rfl⟩

theorem drifted_next (inv : Drifted s.base) (edge : s.step a = some t) : Drifted t.base := by
  rcases step_base edge with ⟨b, -, inner⟩ | ⟨-, count, workers, begun⟩
  · exact inv.next inner
  · exact inv.congr count workers begun

/-- Over every interleaving, `GetIdleThread()` is minus the number of the callbacks
ever begun, and `hasThread()` is false. -/
theorem drifted_of_exec {as : List (CallerStep β)} (run : Runs.exec step init as = some s) :
    s.base.sched.getIdleThread = -(s.base.begun.length : Int) ∧
      s.base.sched.hasThread = false := by
  have inv : Drifted s.base :=
    Runs.exec_inv (I := fun s => Drifted s.base) drifted_next drifted_init run
  exact ⟨inv.count, inv.hasThread⟩

/-- From a state where the count is right, the one after the step has it right unless
the step brings a worker. -/
theorem counted_step_iff (inv : Drifted s.base) (before : Counted s.base)
    (edge : s.step a = some t) : Counted t.base ↔ ¬ Starts a := by
  have nobody := inv.counted_iff.mp before
  rw [(drifted_next inv edge).counted_iff]
  rcases step_base edge with ⟨b, rfl, inner⟩ | ⟨outside, -, workers, -⟩
  · exact workers_eq_nil_iff nobody inner
  · rw [workers]
    exact iff_of_true nobody outside

/-- The runs in which `idele_thread_cout` is the number of the workers that are not
running a task in every state are those in which no thread enters `run()`. -/
theorem idle_counted_iff (as : List (CallerStep β)) :
    Runs.Always step (fun s => Counted s.base) init as ↔
      Runs.Along step (fun _ a => ¬ Starts a) init as :=
  Runs.always_iff_along (I := fun s => Drifted s.base) drifted_next counted_step_iff
    drifted_init (drifted_init.counted_iff.mpr rfl)

/-- One worker that has run one task: it is not running any, and the count is -1. -/
theorem idle_counted_fails :
    ¬ ∀ as, Runs.Always step (fun s : Callers ℕ => Counted s.base) init as := by
  intro always
  have counted := (always [.sched (.spawn 5), .sched (.enter 7 (-1)), .sched (.store 0),
    .sched (.dequeue 0), .sched (.complete 0)]).last rfl
  have below : ¬ (0 : Int) ≤ -1 := by decide
  exact below counted.nonneg

end Callers

end Sylar
