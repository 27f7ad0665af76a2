import Mathlib.Data.Nat.Notation
import Sylar.Schedule.Model

/-!
# What a step does to the workers

`m_threads` grows by the calls of `run()`, and each section of `run()` moves the
one worker it belongs to. `Crew` says so once, and the invariants about where the
workers are follow from it.

* `step_cases`: what each step does, with the place of the worker that takes it.
* `step_workers`: every step leaves the workers, adds one or advances one.
* `step_active`: a worker leaves `run()` only by an exit test that succeeds.
-/

namespace Sylar.Workers

variable {β : Type}

/-- What a step does: one case for each, with the call that is stored or the place
where the worker stood that takes the section. -/
inductive StepCases (w : Workers β) : SchedStep β → Workers β → Prop
  | enters (cb : β) (threadId : Int) :
    StepCases w (.enter cb threadId)
      (if w.sched.mStopping then w else { w with calls := w.calls ++ [(cb, threadId)] })
  | stores {i : ℕ} {cb : β} {threadId : Int} (found : w.calls[i]? = some (cb, threadId)) :
    StepCases w (.store i)
      { w with
        sched := w.sched.schedule (some ⟨w.accepted.length, cb⟩) threadId
        calls := w.calls.eraseIdx i
        accepted := w.accepted ++ [(cb, threadId)] }
  | batch (cbs : List β) :
    StepCases w (.range cbs)
      { w with
        sched := w.sched.scheduleRange ((ticketsFrom w.accepted.length cbs).map some)
        accepted := w.accepted ++ cbs.map fun cb => (cb, -1) }
  | halts : StepCases w .setStopping { w with sched := { w.sched with mStopping := true } }
  | stops (tid : Int) :
    StepCases w (.stop tid)
      { w with
        sched := { w.sched with mStopping := true }
        workers := w.workers ++ [⟨tid, .scan⟩] }
  | spawns (tid : Int) : StepCases w (.spawn tid) { w with workers := w.workers ++ [⟨tid, .scan⟩] }
  | scans {i : ℕ} {x : Worker β} (there : w.workers[i]? = some x) (pc : x.pc = .scan) :
    StepCases w (.dequeue i) (w.dequeue i x)
  | completes {i : ℕ} {x : Worker β} {task : Ticket β} (there : w.workers[i]? = some x)
      (pc : x.pc = .running task) :
    StepCases w (.complete i)
      { (w.goto i x .exitTest) with
        sched := w.sched.complete, finished := task :: w.finished }
  | tests {i : ℕ} {x : Worker β} (there : w.workers[i]? = some x) (pc : x.pc = .exitTest) :
    StepCases w (.exitTest i) (w.goto i x (if w.sched.leaves then .returned else .idle))
  | resumes {i : ℕ} {x : Worker β} (there : w.workers[i]? = some x) (pc : x.pc = .idle) :
    StepCases w (.resume i) (w.goto i x .scan)

/-- How a section of `run()` moves the worker it belongs to. -/
inductive Advances (leaves : Bool) : SchedStep β → ℕ → WorkerPc β → WorkerPc β → Prop
  | begins {i : ℕ} {task : Ticket β} : Advances leaves (.dequeue i) i .scan (.running task)
  | finds {i : ℕ} : Advances leaves (.dequeue i) i .scan .exitTest
  | completes {i : ℕ} {task : Ticket β} :
    Advances leaves (.complete i) i (.running task) .exitTest
  | leaves {i : ℕ} : leaves = true → Advances leaves (.exitTest i) i .exitTest .returned
  | stays {i : ℕ} : leaves = false → Advances leaves (.exitTest i) i .exitTest .idle
  | resumes {i : ℕ} : Advances leaves (.resume i) i .idle .scan

/-- The steps that no worker takes and no worker joins by. -/
def Outside : SchedStep β → Prop
  | .enter .. | .store _ | .range _ | .setStopping => True
  | _ => False

/-- What a step does to the workers: nothing, a new one, or one that advances. -/
inductive Crew (w : Workers β) : SchedStep β → List (Worker β) → Prop
  | same {a : SchedStep β} : Outside a → Crew w a w.workers
  | joins {a : SchedStep β} {tid : Int} : a = .stop tid ∨ a = .spawn tid →
    Crew w a (w.workers ++ [⟨tid, .scan⟩])
  | advances {a : SchedStep β} {i : ℕ} {x : Worker β} {pc : WorkerPc β} :
    w.workers[i]? = some x → Advances w.sched.leaves a i x.pc pc →
    Crew w a (w.workers.set i { x with pc := pc })

variable {w w' : Workers β} {a : SchedStep β} {x : Worker β} {i : ℕ}

theorem getElem?_joined {l : List (Worker β)} {x y : Worker β} {i : ℕ}
    (there : (l ++ [y])[i]? = some x) :
    (i ≠ l.length ∧ l[i]? = some x) ∨ (i = l.length ∧ x = y) := by
  rcases Nat.lt_trichotomy i l.length with before | last | after
  · rw [List.getElem?_append_left before] at there
    exact .inl ⟨Nat.ne_of_lt before, there⟩
  · rw [last, List.getElem?_concat_length] at there
    exact .inr ⟨last, (Option.some.inj there).symm⟩
  · rw [List.getElem?_eq_none (by rw [List.length_append, List.length_singleton]; omega)] at there
    cases there

theorem step_cases (edge : w.step a = some w') : StepCases w a w' := by
  cases a with
  | enter cb threadId =>
    cases edge
    exact .enters cb threadId
  | store j =>
    cases found : w.calls[j]? <;> simp only [step, found, Option.some.injEq, reduceCtorEq] at edge
    subst edge
    exact .stores found
  | range cbs =>
    cases edge
    exact .batch cbs
  | setStopping =>
    cases edge
    exact .halts
  | stop tid =>
    cases edge
    exact .stops tid
  | spawn tid =>
    cases edge
    exact .spawns tid
  | dequeue i =>
    obtain ⟨x, there, edge⟩ := Option.bind_eq_some_iff.mp edge
    cases pc : x.pc <;> simp only [workerStep, pc, Option.some.injEq, reduceCtorEq] at edge
    subst edge
    exact .scans there pc
  | complete i =>
    obtain ⟨x, there, edge⟩ := Option.bind_eq_some_iff.mp edge
    cases pc : x.pc <;> simp only [workerStep, pc, Option.some.injEq, reduceCtorEq] at edge
    subst edge
    exact .completes there pc
  | exitTest i =>
    obtain ⟨x, there, edge⟩ := Option.bind_eq_some_iff.mp edge
    cases pc : x.pc <;> simp only [workerStep, pc, Option.some.injEq, reduceCtorEq] at edge
    subst edge
    exact .tests there pc
  | resume i =>
    obtain ⟨x, there, edge⟩ := Option.bind_eq_some_iff.mp edge
    cases pc : x.pc <;> simp only [workerStep, pc, Option.some.injEq, reduceCtorEq] at edge
    subst edge
    exact .resumes there pc

theorem crew_dequeue (there : w.workers[i]? = some x) (pc : x.pc = .scan) :
    Crew w (.dequeue i) (w.dequeue i x).workers := by
  unfold dequeue
  cases taken : (w.sched.dequeue x.tid).2 with
  | none =>
    simp only [taken]
    refine .advances there ?_
    rw [pc]
    exact .finds
  | some task =>
    simp only [taken]
    refine .advances there ?_
    rw [pc]
    exact .begins

theorem crew_exitTest (there : w.workers[i]? = some x) (pc : x.pc = .exitTest) :
    Crew w (.exitTest i)
      (w.goto i x (if w.sched.leaves then .returned else .idle)).workers := by
  refine .advances there ?_
  rw [pc]
  cases leaves : w.sched.leaves with
  | false => exact .stays rfl
  | true => exact .leaves rfl

theorem step_workers (edge : w.step a = some w') : Crew w a w'.workers := by
  cases step_cases edge with
  | enters cb threadId => split <;> exact .same trivial
  | stores found => exact .same trivial
  | batch cbs => exact .same trivial
  | halts => exact .same trivial
  | stops tid => exact .joins (.inl rfl)
  | spawns tid => exact .joins (.inr rfl)
  | scans there pc => exact crew_dequeue there pc
  | completes there pc =>
    refine .advances there ?_
    rw [pc]
    exact .completes
  | tests there pc => exact crew_exitTest there pc
  | resumes there pc =>
    refine .advances there ?_
    rw [pc]
    exact .resumes

/-! ## Leaving `run()` -/

theorem sched_exitTest (edge : w.step (.exitTest i) = some w') : w'.sched = w.sched := by
  cases step_cases edge
  rfl

/-- After its section a worker is inside `run()`, or its exit test has succeeded. -/
theorem Advances.stays_or {leaves : Bool} {pc pc' : WorkerPc β}
    (adv : Advances leaves a i pc pc') : pc'.active = true ∨ leaves = true ∧ a = .exitTest i := by
  cases adv with
  | leaves free => exact .inr ⟨free, rfl⟩
  | _ => exact .inl rfl

/-- A worker inside `run()` stays there, unless the step is its exit test and
the test succeeds. -/
theorem step_active (there : w.workers[i]? = some x) (inside : x.pc.active = true)
    (edge : w.step a = some w') :
    (∃ x', w'.workers[i]? = some x' ∧ x'.pc.active = true) ∨
      w.sched.leaves = true ∧ w'.sched = w.sched := by
  obtain ⟨bound, -⟩ := List.getElem?_eq_some_iff.mp there
  have crew := step_workers edge
  generalize w'.workers = after at crew ⊢
  cases crew with
  | same outside => exact .inl ⟨x, there, inside⟩
  | joins joined => exact .inl ⟨x, (List.getElem?_append_left bound).trans there, inside⟩
  | @advances j y pc found adv =>
    by_cases same : j = i
    · subst same
      rcases adv.stays_or with stays | ⟨leaves, rfl⟩
      · exact .inl ⟨_, List.getElem?_set_self bound, stays⟩
      · exact .inr ⟨leaves, sched_exitTest edge⟩
    · exact .inl ⟨x, (List.getElem?_set_ne same).trans there, inside⟩

end Sylar.Workers
