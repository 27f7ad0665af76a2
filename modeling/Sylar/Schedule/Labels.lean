import Sylar.Lib.Places
import Sylar.Schedule.IdleCount

/-!
# Callbacks with labels

A scheduler does not look at the callbacks it is given. What is known of them when they
are scheduled, such as the object they were made for, can be followed through its slots
and workers.

* `Conserved.labels`: the labels in the three places of the accepted callbacks.
* `onWay_step`: a step that schedules nothing under a label leaves what is on its way.
* `Busy.outside`: where every worker runs something, only an end of it gets further.
-/

namespace Sylar

variable {β γ : Type}

/-- The same step, with other callbacks. -/
def SchedStep.map (f : β → γ) : SchedStep β → SchedStep γ
  | .enter cb threadId => .enter (f cb) threadId
  | .store i => .store i
  | .range cbs => .range (cbs.map f)
  | .setStopping => .setStopping
  | .stop tid => .stop tid
  | .spawn tid => .spawn tid
  | .dequeue i => .dequeue i
  | .complete i => .complete i
  | .exitTest i => .exitTest i
  | .resume i => .resume i

def CallerStep.map (f : β → γ) : CallerStep β → CallerStep γ
  | .sched a => .sched (a.map f)
  | .enterEmpty threadId => .enterEmpty threadId
  | .storeEmpty i => .storeEmpty i
  | .batch cbs => .batch (cbs.map (Option.map f))

theorem cb_ticketsFrom (k : ℕ) (cbs : List β) : (ticketsFrom k cbs).map Ticket.cb = cbs := by
  induction cbs generalizing k with
  | nil => rfl
  | cons cb cbs ih => rw [ticketsFrom, List.map_cons, ih]

/-- The labels of callbacks. -/
def labels (label : β → Option γ) (tasks : List (Ticket β)) : List γ :=
  tasks.filterMap fun task => label task.cb

namespace Workers

variable {w : Workers β} {label : β → Option γ}

theorem labels_tickets (w : Workers β) (label : β → Option γ) :
    labels label w.tickets = w.accepted.filterMap fun p => label p.1 := by
  have through : ((ticketsFrom 0 (w.accepted.map Prod.fst)).map Ticket.cb).filterMap label =
      (w.accepted.map Prod.fst).filterMap label := by
    rw [cb_ticketsFrom]
  rw [List.filterMap_map, List.filterMap_map] at through
  exact through

/-- The labels of the accepted callbacks are those of the callbacks that wait, run and
have finished, and the labels of the begun ones those that run and have finished. -/
theorem Conserved.labels (inv : Conserved w) (label : β → Option γ) :
    (labels label w.waiting ++ labels label w.running ++ labels label w.finished).Perm
        (w.accepted.filterMap fun p => label p.1) ∧
      (labels label (w.begun.map Prod.fst)).Perm
        (labels label w.running ++ labels label w.finished) := by
  have places := inv.places.filterMap fun task => label task.cb
  have begun := inv.begun.filterMap fun task => label task.cb
  rw [List.filterMap_append, List.filterMap_append] at places
  rw [List.filterMap_append] at begun
  exact ⟨w.labels_tickets label ▸ places, begun⟩

/-- What is on its way to the scheduler, or accepted by it, under a label. -/
def onWay (label : β → Option γ) (w : Workers β) : List γ :=
  (w.calls.filterMap fun p => label p.1) ++ w.accepted.filterMap fun p => label p.1

/-- Nothing is scheduled that `hit` holds of. -/
def Without (hit : β → Bool) : SchedStep β → Prop
  | .enter cb _ => hit cb = false
  | .range cbs => ∀ cb ∈ cbs, hit cb = false
  | _ => True

variable {w' : Workers β} {a : SchedStep β} {i : ℕ} {x : Worker β}

theorem dequeue_history (w : Workers β) (i : ℕ) (x : Worker β) :
    (w.dequeue i x).calls = w.calls ∧ (w.dequeue i x).accepted = w.accepted := by
  unfold dequeue
  cases taken : (w.sched.dequeue x.tid).2 <;> simp only [taken] <;> exact ⟨rfl, rfl⟩

theorem onWay_step (none : Without (fun cb => (label cb).isSome) a) (edge : w.step a = some w') :
    (onWay label w').Perm (onWay label w) := by
  unfold onWay
  cases step_cases edge with
  | enters cb threadId =>
    have nothing : label cb = Option.none :=
      Option.isNone_iff_eq_none.mp (Option.isSome_eq_false_iff.mp none)
    split
    · exact List.Perm.refl _
    · dsimp only
      rw [List.filterMap_append, Places.filterMap_singleton, nothing]
      exact List.Perm.of_eq (congrArg (· ++ _) (List.append_nil _))
  | @stores i cb threadId found =>
    obtain ⟨rest, before, -, after⟩ := Places.filterMap_set found fun p => label p.1
    dsimp only at before
    rw [after, List.filterMap_append, Places.filterMap_singleton]
    refine List.Perm.trans ?_ (before.append_right _).symm
    rw [← List.append_assoc]
    refine List.perm_append_comm.trans ?_
    rw [List.append_assoc]
  | batch cbs =>
    have nothing : (cbs.map fun cb => (cb, (-1 : Int))).filterMap (fun p => label p.1) = [] := by
      refine List.filterMap_eq_nil_iff.mpr fun p member => ?_
      obtain ⟨cb, among, rfl⟩ := List.mem_map.mp member
      exact Option.isNone_iff_eq_none.mp (Option.isSome_eq_false_iff.mp (none cb among))
    rw [List.filterMap_append, nothing, List.append_nil]
  | @scans i x there pc =>
    obtain ⟨calls, accepted⟩ := dequeue_history w i x
    rw [calls, accepted]
  | halts | stops | spawns | completes | tests | resumes => exact List.Perm.refl _

/-- A task that is scheduled is on its way, unless the scheduler is stopping. -/
theorem onWay_enter (label : β → Option γ) {cb : β} {threadId : Int}
    (edge : w.step (.enter cb threadId) = some w') :
    (onWay label w').Perm
      ((if w.sched.mStopping then [] else (label cb).toList) ++ onWay label w) := by
  cases edge
  unfold onWay
  split
  · exact List.Perm.refl _
  · dsimp only
    rw [List.filterMap_append, Places.filterMap_singleton, ← List.append_assoc]
    exact List.perm_append_comm.append_right _

/-- What was begun stays begun. -/
theorem begun_suffix (edge : w.step a = some w') : w.begun <:+ w'.begun := by
  cases step_moved edge with
  | stays _ _ _ _ same _ | stores _ _ _ _ _ same _ | finishes _ _ _ _ _ same _ =>
    exact same ▸ List.suffix_refl _
  | begins task tid _ _ _ _ more _ =>
    rw [more]
    exact List.suffix_cons ..

/-! ## The task of a worker -/

/-- The callback that worker `i` runs. -/
def taskOf (w : Workers β) (i : ℕ) : Option β :=
  (w.workers[i]?.bind fun x => x.pc.task).map Ticket.cb

/-- Only a worker that begins or ends a task changes the task it runs. -/
theorem taskOf_step (edge : w.step a = some w') (i : ℕ) :
    taskOf w' i = taskOf w i ∨ a = .dequeue i ∧ taskOf w i = none ∨
      a = .complete i ∧ taskOf w' i = none := by
  have crew := step_workers edge
  unfold taskOf
  generalize w'.workers = after at crew ⊢
  cases crew with
  | same outside => exact .inl rfl
  | @joins tid joined =>
    refine .inl ?_
    by_cases inside : i < w.workers.length
    · rw [List.getElem?_append_left inside]
    · rw [List.getElem?_append_right (Nat.le_of_not_lt inside),
        List.getElem?_eq_none (Nat.le_of_not_lt inside)]
      cases i - w.workers.length <;> rfl
  | @advances j x pc there adv =>
    obtain ⟨bound, -⟩ := List.getElem?_eq_some_iff.mp there
    by_cases same : j = i
    · subst same
      rw [List.getElem?_set_self bound, there]
      show (pc.task).map Ticket.cb = x.pc.task.map Ticket.cb ∨
        _ ∧ x.pc.task.map Ticket.cb = none ∨ _ ∧ pc.task.map Ticket.cb = none
      generalize x.pc = before at adv
      cases adv with
      | begins => exact .inr (.inl ⟨rfl, rfl⟩)
      | completes => exact .inr (.inr ⟨rfl, rfl⟩)
      | finds | leaves | stays | resumes => exact .inl rfl
    · exact .inl (by rw [List.getElem?_set_ne same])

/-- A callback that a worker runs is running. -/
theorem mem_running_of_taskOf {cb : β} (here : taskOf w i = some cb) :
    ∃ task ∈ w.running, task.cb = cb := by
  obtain ⟨task, runs, same⟩ := Option.map_eq_some_iff.mp here
  obtain ⟨x, there, pc⟩ := Option.bind_eq_some_iff.mp runs
  exact ⟨task, List.mem_filterMap.mpr ⟨x, List.mem_of_getElem? there, pc⟩, same⟩

/-- The worker of a task is inside `run()`. -/
theorem active_of_taskOf {cb : β} (here : taskOf w i = some cb) :
    ∃ x, w.workers[i]? = some x ∧ x.pc.active = true := by
  obtain ⟨ticket, runs, -⟩ := Option.map_eq_some_iff.mp here
  obtain ⟨x, there, pc⟩ := Option.bind_eq_some_iff.mp runs
  refine ⟨x, there, ?_⟩
  cases place : x.pc <;> rw [place] at pc <;> cases pc
  rfl

/-- Every worker inside `run()` runs a callback. -/
def Busy (w : Workers β) : Prop :=
  ∀ i x, w.workers[i]? = some x → x.pc.active = true → (taskOf w i).isSome

/-- Where all workers are busy, a step is that of another thread, brings a worker, or ends
a callback. -/
theorem Busy.outside (busy : Busy w) (edge : w.step a = some w') :
    (w'.workers = w.workers ∧ w'.begun = w.begun ∧ ∀ i, a ≠ .dequeue i) ∨
      (∃ tid, a = .stop tid ∨ a = .spawn tid) ∨
      ∃ i x, a = .complete i ∧ w.workers[i]? = some x ∧ x.pc.active = true := by
  have runs {i : ℕ} {x : Worker β} (there : w.workers[i]? = some x) (inside : x.pc.active = true) :
      x.pc.task.isSome := by
    have here := busy i x there inside
    rwa [taskOf, there, Option.bind_some, Option.isSome_map] at here
  cases step_cases edge with
  | enters cb threadId => split <;> exact .inl ⟨rfl, rfl, fun i same => by cases same⟩
  | stores | batch | halts => exact .inl ⟨rfl, rfl, fun i same => by cases same⟩
  | stops tid => exact .inr (.inl ⟨tid, .inl rfl⟩)
  | spawns tid => exact .inr (.inl ⟨tid, .inr rfl⟩)
  | scans there pc | tests there pc | resumes there pc =>
    have here := runs there (by rw [pc]; rfl)
    rw [pc] at here
    cases here
  | @completes i x ticket there pc => exact .inr (.inr ⟨i, x, rfl, there, by rw [pc]; rfl⟩)

end Workers

/-! ## Callers with empty callbacks -/

namespace Callers

open Workers (onWay)

/-- Nothing is scheduled that `hit` holds of. -/
def Without (hit : β → Bool) : CallerStep β → Prop
  | .sched a => Workers.Without hit a
  | .batch cbs => ∀ cb ∈ cbs.reduceOption, hit cb = false
  | _ => True

variable {s t : Callers β} {a : CallerStep β} {label : β → Option γ}

/-- A batch is on its way. -/
theorem onWay_batch (label : β → Option γ) {cbs : List (Option β)}
    (edge : s.step (.batch cbs) = some t) :
    (onWay label t.base).Perm (cbs.reduceOption.filterMap label ++ onWay label s.base) := by
  cases edge
  unfold onWay
  dsimp only
  have new : (cbs.reduceOption.map fun cb => (cb, (-1 : Int))).filterMap (fun p => label p.1) =
      cbs.reduceOption.filterMap label := List.filterMap_map ..
  rw [List.filterMap_append, new, ← List.append_assoc]
  exact List.perm_append_comm

theorem onWay_step (none : Without (fun cb => (label cb).isSome) a) (edge : s.step a = some t) :
    (onWay label t.base).Perm (onWay label s.base) := by
  cases a with
  | sched b =>
    obtain ⟨base, inner, rfl⟩ := Option.map_eq_some_iff.mp edge
    exact Workers.onWay_step none inner
  | enterEmpty threadId =>
    cases edge
    split <;> exact List.Perm.refl _
  | storeEmpty i =>
    cases found : s.emptyCalls[i]? <;>
      simp only [step, found, Option.some.injEq, reduceCtorEq] at edge
    subst edge
    exact List.Perm.refl _
  | batch cbs =>
    have nothing : cbs.reduceOption.filterMap label = [] :=
      List.filterMap_eq_nil_iff.mpr fun cb member =>
        Option.isNone_iff_eq_none.mp (Option.isSome_eq_false_iff.mp (none cb member))
    have moved := onWay_batch label edge
    rwa [nothing, List.nil_append] at moved

theorem begun_suffix (edge : s.step a = some t) : s.base.begun <:+ t.base.begun := by
  rcases step_base edge with ⟨b, -, inner⟩ | ⟨-, -, -, same⟩
  · exact Workers.begun_suffix inner
  · exact same ▸ List.suffix_refl _

/-- What other threads schedule has no label. -/
theorem without_map {δ : Type} {f : δ → β} (none : ∀ cb, label (f cb) = none) (a : CallerStep δ) :
    Without (fun cb => (label cb).isSome) (a.map f) := by
  have bare (cb : δ) : (label (f cb)).isSome = false := by
    rw [none cb]
    rfl
  cases a with
  | sched b =>
    cases b with
    | enter cb threadId => exact bare cb
    | range cbs =>
      intro cb member
      obtain ⟨old, -, rfl⟩ := List.mem_map.mp member
      exact bare old
    | _ => trivial
  | batch cbs =>
    intro cb member
    obtain ⟨old, among, same⟩ := List.mem_map.mp (List.reduceOption_mem_iff.mp member)
    obtain ⟨cb', -, rfl⟩ := Option.map_eq_some_iff.mp same
    exact bare cb'
  | _ => trivial

end Callers

end Sylar
