import Mathlib.Data.List.Perm.Basic
import Mathlib.Data.List.Nodup
import Mathlib.Data.List.Range
import Mathlib.Tactic.Ring
import Sylar.Schedule.Crew

/-!
# No task is lost or run twice

The three places of an accepted callback are the slots of `m_task`, the workers
that run it, and the history of the finished ones. `Moved` says once what a
step can do to them; `Conserved` is the invariant that follows.

* `step_moved`: every section of the scheduler is one of the four moves.
* `Conserved.next`, `conserved_of_exec`: the invariant over every interleaving.
* `one_place_each`: each accepted callback is in one place and begun at most
  once, the counter is exact, and `run()` is left only with nothing to do.
-/

namespace Sylar

variable {α β : Type}

/-! ## The slots -/

/-- The callbacks that stand in slots. -/
def occupied (slots : List (FuncAndthread α)) : List α := slots.filterMap FuncAndthread.mCb

theorem occupied_cons (it : FuncAndthread α) (rest : List (FuncAndthread α)) :
    occupied (it :: rest) = it.mCb.toList ++ occupied rest := by
  unfold occupied
  cases here : it.mCb with
  | none => rw [List.filterMap_cons_none here]; rfl
  | some a => rw [List.filterMap_cons_some here]; rfl

theorem occupied_append (slots more : List (FuncAndthread α)) :
    occupied (slots ++ more) = occupied slots ++ occupied more :=
  List.filterMap_append

namespace Schedule

/-- Whether a slot is reused or appended, the callback is stored once. -/
theorem occupied_placeFirst (a : α) (threadId : Int) (slots : List (FuncAndthread α)) :
    (occupied (placeFirst (some a) threadId slots)).Perm (a :: occupied slots) := by
  induction slots with
  | nil => exact List.Perm.refl _
  | cons it rest ih =>
    unfold placeFirst
    cases here : it.mCb with
    | none =>
      rw [Option.isSome_none, if_neg Bool.false_ne_true, occupied_cons, occupied_cons, here]
      exact List.Perm.refl _
    | some b =>
      rw [Option.isSome_some, if_pos rfl, occupied_cons, occupied_cons, here]
      exact (List.Perm.cons b ih).trans (List.Perm.swap a b _)

/-- The slots filled and the callbacks left over are the batch. -/
theorem occupied_fillFree (slots : List (FuncAndthread α)) (as : List α) :
    ∃ stored left, as = stored ++ left ∧
      (fillFree slots (as.map some)).2 = left.map some ∧
      (occupied (fillFree slots (as.map some)).1).Perm (stored ++ occupied slots) := by
  induction slots generalizing as with
  | nil => exact ⟨[], as, rfl, rfl, List.Perm.refl _⟩
  | cons it rest ih =>
    cases as with
    | nil => exact ⟨[], [], rfl, rfl, List.Perm.refl _⟩
    | cons a as =>
      simp only [List.map_cons, fillFree]
      cases here : it.mCb with
      | none =>
        obtain ⟨stored, left, split, rest_left, perm⟩ := ih as
        rw [Option.isSome_none, if_neg Bool.false_ne_true]
        refine ⟨a :: stored, left, congrArg (a :: ·) split, rest_left, ?_⟩
        rw [occupied_cons, occupied_cons, here]
        exact List.Perm.cons a perm
      | some b =>
        obtain ⟨stored, left, split, rest_left, perm⟩ := ih (a :: as)
        rw [Option.isSome_some, if_pos rfl]
        refine ⟨stored, left, split, rest_left, ?_⟩
        rw [occupied_cons, occupied_cons, here]
        exact (List.Perm.cons b perm).trans List.perm_middle.symm

theorem occupied_left (as : List α) :
    occupied ((as.map some).map fun cb => (⟨cb, -1⟩ : FuncAndthread α)) = as := by
  induction as with
  | nil => rfl
  | cons a as ih => rw [List.map_cons, List.map_cons, occupied_cons, ih]; rfl

/-- `schedule(begin, end)` stores every callback of the batch once. -/
theorem occupied_scheduleRange (s : Schedule α) (as : List α) :
    (occupied (s.scheduleRange (as.map some)).mTask).Perm (as ++ occupied s.mTask) := by
  obtain ⟨stored, left, split, rest_left, perm⟩ := occupied_fillFree s.mTask as
  show (occupied ((fillFree s.mTask (as.map some)).1 ++
    (fillFree s.mTask (as.map some)).2.map fun cb => ⟨cb, -1⟩)).Perm _
  rw [occupied_append, rest_left, occupied_left]
  have grown := perm.append_right left
  rw [List.append_assoc] at grown
  have swapped : (occupied s.mTask ++ left).Perm (left ++ occupied s.mTask) :=
    List.perm_append_comm
  nth_rewrite 2 [split]
  rw [List.append_assoc]
  exact grown.trans (swapped.append_left stored)

/-- A batch that may hold empty callbacks stores nothing but its callbacks. -/
theorem mem_fillFree (slots : List (FuncAndthread α)) (cbs : List (Option α)) (a : α) :
    (a ∈ occupied (fillFree slots cbs).1 → some a ∈ cbs ∨ a ∈ occupied slots) ∧
      ∀ cb ∈ (fillFree slots cbs).2, cb ∈ cbs := by
  induction slots generalizing cbs with
  | nil => exact ⟨.inr, fun cb member => member⟩
  | cons it rest ih =>
    cases cbs with
    | nil => exact ⟨.inr, List.forall_mem_nil _⟩
    | cons first cbs =>
      unfold fillFree
      by_cases full : it.mCb.isSome = true
      · rw [if_pos full, occupied_cons, occupied_cons, List.mem_append, List.mem_append]
        refine ⟨fun member => ?_, (ih (first :: cbs)).2⟩
        rcases member with here | later
        · exact .inr (.inl here)
        · exact ((ih (first :: cbs)).1 later).imp_right .inr
      · rw [if_neg full, occupied_cons, occupied_cons, List.mem_append, List.mem_append,
          List.mem_cons]
        refine ⟨fun member => ?_, fun cb member => ?_⟩
        · rcases member with here | later
          · exact .inl (.inl (Option.mem_toList.mp here).symm)
          · rcases (ih cbs).1 later with new | old
            · exact .inl (.inr new)
            · exact .inr (.inr old)
        · exact List.mem_cons_of_mem first ((ih cbs).2 cb member)

theorem mem_scheduleRange {s : Schedule α} {cbs : List (Option α)} {a : α}
    (member : a ∈ occupied (s.scheduleRange cbs).mTask) :
    some a ∈ cbs ∨ a ∈ occupied s.mTask := by
  have filled := mem_fillFree s.mTask cbs a
  unfold scheduleRange at member
  dsimp only at member
  rw [occupied_append, List.mem_append] at member
  rcases member with slot | appended
  · exact filled.1 slot
  · obtain ⟨it, inside, stored⟩ := List.mem_filterMap.mp appended
    obtain ⟨cb, left, rfl⟩ := List.mem_map.mp inside
    exact .inl (stored ▸ filled.2 cb left)

/-- The scan takes the first occupied slot; it finds nothing only when there is
none. -/
theorem takeFirst_spec (tid : Int) (slots : List (FuncAndthread α)) :
    occupied slots =
      ((takeFirst tid slots).1.bind FuncAndthread.mCb).toList ++
        occupied (takeFirst tid slots).2 := by
  induction slots with
  | nil => rfl
  | cons it rest ih =>
    unfold takeFirst
    cases here : it.mCb with
    | none =>
      rw [Option.isSome_none, if_neg Bool.false_ne_true, occupied_cons, here, ih]
      rw [occupied_cons, here]
      rfl
    | some a =>
      rw [Option.isSome_some, if_pos rfl, FuncAndthread.threadTest_eq, occupied_cons, here]
      rfl

/-- The section of the scan: the callback taken leaves the slots, and the other
slots and the counter stay. -/
theorem dequeue_spec (s : Schedule α) (tid : Int) :
    occupied s.mTask = (s.dequeue tid).2.toList ++ occupied (s.dequeue tid).1.mTask ∧
      (s.dequeue tid).1.taskNumber = s.taskNumber ∧
      (s.dequeue tid).1.mStopping = s.mStopping := by
  have scan := takeFirst_spec tid s.mTask
  unfold dequeue
  cases found : (takeFirst tid s.mTask).1.bind FuncAndthread.mCb with
  | none =>
    rw [found] at scan
    simp only [found]
    exact ⟨scan, trivial, trivial⟩
  | some a =>
    rw [found] at scan
    simp only [found]
    exact ⟨scan, trivial, trivial⟩

end Schedule

/-! ## Tickets -/

theorem ticketsFrom_append (k : ℕ) (as bs : List β) :
    ticketsFrom k (as ++ bs) = ticketsFrom k as ++ ticketsFrom (k + as.length) bs := by
  induction as generalizing k with
  | nil => rfl
  | cons a as ih =>
    have shift : k + 1 + as.length = k + (as.length + 1) := by omega
    simp only [List.cons_append, ticketsFrom, ih, List.length_cons, shift]

@[simp] theorem length_ticketsFrom (k : ℕ) (as : List β) :
    (ticketsFrom k as).length = as.length := by
  induction as generalizing k with
  | nil => rfl
  | cons a as ih => simp only [ticketsFrom, List.length_cons, ih]

theorem number_ticketsFrom (k : ℕ) (as : List β) :
    (ticketsFrom k as).map Ticket.number = List.range' k as.length := by
  induction as generalizing k with
  | nil => rfl
  | cons a as ih => simp only [ticketsFrom, List.map_cons, ih, List.length_cons, List.range'_succ]

theorem mem_ticketsFrom {k : ℕ} {as : List β} {t : Ticket β} :
    t ∈ ticketsFrom k as ↔ k ≤ t.number ∧ as[t.number - k]? = some t.cb := by
  induction as generalizing k with
  | nil => simp [ticketsFrom]
  | cons a as ih =>
    obtain ⟨j, b⟩ := t
    simp only [ticketsFrom, List.mem_cons, ih, Ticket.mk.injEq]
    by_cases here : j = k
    · subst here
      simp [eq_comm]
    · by_cases later : k ≤ j
      · obtain ⟨d, rfl⟩ : ∃ d, j = k + 1 + d := ⟨j - (k + 1), by omega⟩
        have first : k + 1 + d - k = d + 1 := by omega
        have second : k + 1 + d - (k + 1) = d := by omega
        rw [first, second, List.getElem?_cons_succ]
        simp only [here, false_and, false_or]
        exact and_congr_left fun _ => iff_of_true (by omega) (by omega)
      · refine iff_of_false ?_ fun both => later both.1
        rintro (both | both)
        · exact here both.1
        · omega

/-- How often the callback with the number `k` stands in a list. -/
def times (k : ℕ) (l : List (Ticket β)) : ℕ := (l.map Ticket.number).count k

theorem times_append (k : ℕ) (l m : List (Ticket β)) :
    times k (l ++ m) = times k l + times k m := by
  unfold times
  rw [List.map_append, List.count_append]

theorem times_perm {k : ℕ} {l m : List (Ticket β)} (perm : l.Perm m) : times k l = times k m :=
  (perm.map _).count_eq k

theorem times_ticketsFrom {k : ℕ} {as : List β} (accepted : k < as.length) :
    times k (ticketsFrom 0 as) = 1 := by
  unfold times
  rw [number_ticketsFrom]
  apply List.count_eq_one_of_mem List.nodup_range'
  rw [List.mem_range'_1]
  omega

namespace Workers

variable {w w' : Workers β} {i : ℕ} {x : Worker β} {a : SchedStep β}

/-- The accepted callbacks in slots. -/
def waiting (w : Workers β) : List (Ticket β) := occupied w.sched.mTask

/-- The accepted callbacks that a worker is running. -/
def running (w : Workers β) : List (Ticket β) := w.workers.filterMap fun x => x.pc.task

/-- Every accepted callback, under its number. -/
def tickets (w : Workers β) : List (Ticket β) := ticketsFrom 0 (w.accepted.map Prod.fst)

/-- What one section does to the places of the accepted callbacks. -/
inductive Moved (w w' : Workers β) : Prop where
  /-- No callback moves. -/
  | stays
      (waiting : w'.waiting = w.waiting) (running : w'.running.Perm w.running)
      (finished : w'.finished = w.finished) (accepted : w'.accepted = w.accepted)
      (begun : w'.begun = w.begun) (taskNumber : w'.sched.taskNumber = w.sched.taskNumber)
  /-- A batch is accepted and stored. -/
  | stores (batch : List (β × Int))
      (waiting : w'.waiting.Perm
        (ticketsFrom w.accepted.length (batch.map Prod.fst) ++ w.waiting))
      (running : w'.running = w.running) (finished : w'.finished = w.finished)
      (accepted : w'.accepted = w.accepted ++ batch) (begun : w'.begun = w.begun)
      (taskNumber : w'.sched.taskNumber = w.sched.taskNumber + batch.length)
  /-- A worker takes a callback out of its slot and begins it. -/
  | begins (task : Ticket β) (tid : Int)
      (waiting : w.waiting = task :: w'.waiting) (running : w'.running.Perm (task :: w.running))
      (finished : w'.finished = w.finished) (accepted : w'.accepted = w.accepted)
      (begun : w'.begun = (task, tid) :: w.begun)
      (taskNumber : w'.sched.taskNumber = w.sched.taskNumber)
  /-- A worker has finished its callback. -/
  | finishes (task : Ticket β)
      (waiting : w'.waiting = w.waiting) (running : w.running.Perm (task :: w'.running))
      (finished : w'.finished = task :: w.finished) (accepted : w'.accepted = w.accepted)
      (begun : w'.begun = w.begun) (taskNumber : w'.sched.taskNumber = w.sched.taskNumber - 1)

/-- A worker that goes on changes its own entry only. -/
theorem running_goto (there : w.workers[i]? = some x) :
    ∃ rest, w.running.Perm (x.pc.task.toList ++ rest) ∧
      ∀ pc, (w.goto i x pc).running.Perm (pc.task.toList ++ rest) := by
  obtain ⟨bound, rfl⟩ := List.getElem?_eq_some_iff.mp there
  have split : ∀ (y : Worker β) (ys : List (Worker β)),
      (y :: ys).filterMap (fun x => x.pc.task) =
        y.pc.task.toList ++ ys.filterMap fun x => x.pc.task := by
    intro y ys
    cases task : y.pc.task with
    | none => simp only [List.filterMap_cons, task, Option.toList_none, List.nil_append]
    | some t => simp only [List.filterMap_cons, task, Option.toList_some, List.singleton_append]
  refine ⟨(w.workers.eraseIdx i).filterMap fun x => x.pc.task, ?_, fun pc => ?_⟩
  · have perm := (List.getElem_cons_eraseIdx_perm bound).symm.filterMap fun x => x.pc.task
    rwa [split] at perm
  · have perm := (List.set_perm_cons_eraseIdx bound
      { w.workers[i] with pc := pc }).filterMap fun x => x.pc.task
    rwa [split] at perm

/-- Going between two points without a callback moves nothing. -/
theorem moved_goto {pc : WorkerPc β} (there : w.workers[i]? = some x) (before : x.pc.task = none)
    (after : pc.task = none) : Moved w (w.goto i x pc) := by
  obtain ⟨rest, old, new⟩ := running_goto there
  have same := new pc
  rw [before] at old
  rw [after] at same
  exact .stays rfl (same.trans old.symm) rfl rfl rfl rfl

theorem moved_dequeue (there : w.workers[i]? = some x) (before : x.pc.task = none) :
    Moved w (w.dequeue i x) := by
  obtain ⟨rest, old, new⟩ := running_goto there
  obtain ⟨slots, count, -⟩ := w.sched.dequeue_spec x.tid
  rw [before] at old
  unfold dequeue
  cases taken : (w.sched.dequeue x.tid).2 with
  | none =>
    simp only [taken] at slots ⊢
    exact .stays slots.symm ((new .exitTest).trans old.symm) rfl rfl rfl count
  | some task =>
    simp only [taken] at slots ⊢
    have moved := (new (.running task)).trans (old.symm.cons task)
    exact .begins task x.tid slots moved rfl rfl rfl count

theorem moved_complete {task : Ticket β} (there : w.workers[i]? = some x)
    (pc : x.pc = .running task) :
    Moved w { (w.goto i x .exitTest) with
      sched := w.sched.complete, finished := task :: w.finished } := by
  obtain ⟨rest, old, new⟩ := running_goto there
  have after := new .exitTest
  rw [pc] at old
  exact .finishes task rfl (old.trans (after.symm.cons task)) rfl rfl rfl rfl

theorem running_append (w : Workers β) (tid : Int) :
    (w.workers ++ [(⟨tid, .scan⟩ : Worker β)]).filterMap (fun x => x.pc.task) = w.running := by
  rw [List.filterMap_append]
  exact List.append_nil _

/-- Every section is one of the four moves. -/
theorem step_moved (edge : w.step a = some w') : Moved w w' := by
  cases step_cases edge with
  | enters cb threadId => split <;> exact .stays rfl (List.Perm.refl _) rfl rfl rfl rfl
  | @stores i cb threadId found =>
    exact .stores [(cb, threadId)] (Schedule.occupied_placeFirst _ _ _) rfl rfl rfl rfl rfl
  | batch cbs =>
    have same : (cbs.map fun cb => (cb, (-1 : Int))).map Prod.fst = cbs := by
      rw [List.map_map]
      exact List.map_id cbs
    have perm := w.sched.occupied_scheduleRange (ticketsFrom w.accepted.length cbs)
    refine .stores (cbs.map fun cb => (cb, -1)) ?_ rfl rfl rfl rfl ?_
    · rw [same]
      exact perm
    · simp [Schedule.scheduleRange]
  | halts => exact .stays rfl (List.Perm.refl _) rfl rfl rfl rfl
  | stops tid => exact .stays rfl (List.Perm.of_eq (running_append w tid)) rfl rfl rfl rfl
  | spawns tid => exact .stays rfl (List.Perm.of_eq (running_append w tid)) rfl rfl rfl rfl
  | scans there pc => exact moved_dequeue there (by rw [pc]; rfl)
  | completes there pc => exact moved_complete there pc
  | tests there pc =>
    apply moved_goto there (by rw [pc]; rfl)
    split <;> rfl
  | resumes there pc => exact moved_goto there (by rw [pc]; rfl) rfl

/-! ## The invariant -/

/-- The three places hold the accepted callbacks and nothing else, what was
begun is running or finished, and the counter is the number of the unfinished. -/
structure Conserved (w : Workers β) : Prop where
  places : (w.waiting ++ w.running ++ w.finished).Perm w.tickets
  begun : (w.begun.map Prod.fst).Perm (w.running ++ w.finished)
  taskNumber : w.sched.taskNumber = w.waiting.length + w.running.length

theorem conserved_init : Conserved (init : Workers β) :=
  ⟨List.Perm.refl _, List.Perm.refl _, rfl⟩

theorem Conserved.moved (inv : Conserved w) (move : Moved w w') : Conserved w' := by
  obtain ⟨places, started, count⟩ := inv
  cases move with
  | stays waiting running finished accepted begun taskNumber =>
    refine ⟨?_, ?_, ?_⟩
    · unfold tickets
      rw [waiting, finished, accepted]
      exact ((running.append_left _).append_right _).trans places
    · rw [begun, finished]
      exact started.trans (running.symm.append_right _)
    · rw [taskNumber, waiting, running.length_eq, count]
  | stores batch waiting running finished accepted begun taskNumber =>
    refine ⟨?_, ?_, ?_⟩
    · unfold tickets
      rw [running, finished, accepted, List.map_append, ticketsFrom_append, List.length_map,
        Nat.zero_add]
      have grown := (waiting.append_right w.running).append_right w.finished
      have regroup (l : List (Ticket β)) : l ++ w.waiting ++ w.running ++ w.finished =
          l ++ (w.waiting ++ w.running ++ w.finished) := by
        simp only [List.append_assoc]
      rw [regroup] at grown
      exact grown.trans ((places.append_left _).trans List.perm_append_comm)
    · rw [begun, running, finished]
      exact started
    · have length := waiting.length_eq
      rw [List.length_append, length_ticketsFrom, List.length_map] at length
      rw [taskNumber, running, length, count]
      omega
  | begins task tid waiting running finished accepted begun taskNumber =>
    rw [waiting] at places count
    refine ⟨?_, ?_, ?_⟩
    · unfold tickets
      rw [finished, accepted]
      refine List.Perm.trans ?_ places
      exact ((running.append_left _).trans List.perm_middle).append_right _
    · rw [begun, finished]
      exact (started.cons task).trans (running.symm.append_right _)
    · have length := running.length_eq
      rw [List.length_cons] at length count
      rw [taskNumber, length, count]
      omega
  | finishes task waiting running finished accepted begun taskNumber =>
    refine ⟨?_, ?_, ?_⟩
    · unfold tickets
      rw [waiting, finished, accepted]
      refine List.Perm.trans ?_ places
      refine List.perm_middle.trans ?_
      refine ((List.perm_middle.symm.trans (running.symm.append_left _)).append_right _)
    · rw [begun, finished]
      refine started.trans ((running.append_right _).trans ?_)
      exact List.perm_middle.symm
    · have length := running.length_eq
      rw [List.length_cons] at length
      rw [taskNumber, waiting, count, length]
      omega

theorem Conserved.next (inv : Conserved w) (edge : w.step a = some w') : Conserved w' :=
  inv.moved (step_moved edge)

theorem conserved_of_exec {as : List (SchedStep β)} (run : Runs.exec step init as = some w) :
    Conserved w :=
  Runs.exec_inv (fun inv edge => Conserved.next inv edge) conserved_init run

/-- With nothing left to count, no slot is occupied and nothing is being run. -/
theorem Conserved.idle (inv : Conserved w) (zero : w.sched.taskNumber = 0) :
    w.waiting = [] ∧ w.running = [] := by
  have count := inv.taskNumber
  have both : w.waiting.length = 0 ∧ w.running.length = 0 := by omega
  exact ⟨List.eq_nil_of_length_eq_zero both.1, List.eq_nil_of_length_eq_zero both.2⟩

/-- An accepted callback is in one place. -/
theorem Conserved.times_places (inv : Conserved w) {k : ℕ} (accepted : k < w.accepted.length) :
    times k w.waiting + times k w.running + times k w.finished = 1 := by
  have all := times_perm (k := k) inv.places
  have one : times k w.tickets = 1 := times_ticketsFrom (by rwa [List.length_map])
  rw [times_append, times_append] at all
  omega

/-- A callback is begun at most once. -/
theorem Conserved.times_begun (inv : Conserved w) {k : ℕ} (accepted : k < w.accepted.length) :
    times k (w.begun.map Prod.fst) ≤ 1 := by
  have all := times_perm (k := k) inv.begun
  have places := inv.times_places accepted
  rw [times_append] at all
  omega

/-- What stands in a place was accepted under its number. -/
theorem Conserved.accepted_of_mem (inv : Conserved w) {t : Ticket β}
    (member : t ∈ w.waiting ++ w.running ++ w.finished) :
    ∃ threadId, w.accepted[t.number]? = some (t.cb, threadId) := by
  have ticket := (mem_ticketsFrom.mp ((inv.places.mem_iff).mp member)).2
  rw [Nat.sub_zero, List.getElem?_map, Option.map_eq_some_iff] at ticket
  obtain ⟨⟨cb, threadId⟩, found, rfl⟩ := ticket
  exact ⟨threadId, found⟩

/-! ## Leaving `run()` -/

/-- Worker `i` leaves `run()` between two states. -/
def Returns (w w' : Workers β) (i : ℕ) : Prop :=
  (∃ x, w.workers[i]? = some x ∧ x.pc.active = true) ∧
    ∃ x, w'.workers[i]? = some x ∧ x.pc.active = false

/-- A worker leaves `run()` only when no slot is occupied and nothing runs. -/
theorem Conserved.returns (inv : Conserved w) (edge : w.step a = some w') (leave : Returns w w' i) :
    (w.waiting = [] ∧ w.running = []) ∧ w'.waiting = [] ∧ w'.running = [] := by
  obtain ⟨⟨x, there, inside⟩, y, after, outside⟩ := leave
  rcases step_active there inside edge with ⟨x', still, active⟩ | ⟨leaves, same⟩
  · obtain rfl : x' = y := Option.some.inj (still.symm.trans after)
    exact absurd active (by rw [outside]; exact Bool.false_ne_true)
  · unfold Schedule.leaves at leaves
    rw [Bool.and_eq_true, beq_iff_eq] at leaves
    exact ⟨inv.idle leaves.2, (inv.next edge).idle (same ▸ leaves.2)⟩

/-- Over every interleaving: each accepted callback is in exactly one place, one
slot, one worker or the finished ones, and was begun at most once; the places
hold accepted callbacks only; `task_number` counts the occupied slots and the
running callbacks; and a worker leaves `run()` only in a step with no occupied
slot and no running callback. -/
theorem one_place_each {as : List (SchedStep β)} (run : Runs.exec step init as = some w) :
    (∀ k < w.accepted.length,
      times k w.waiting + times k w.running + times k w.finished = 1 ∧
        times k (w.begun.map Prod.fst) ≤ 1) ∧
      (∀ t ∈ w.waiting ++ w.running ++ w.finished,
        ∃ threadId, w.accepted[t.number]? = some (t.cb, threadId)) ∧
      w.sched.taskNumber = w.waiting.length + w.running.length ∧
      ∀ a w' i, w.step a = some w' → Returns w w' i →
        (w.waiting = [] ∧ w.running = []) ∧ w'.waiting = [] ∧ w'.running = [] := by
  have inv := conserved_of_exec run
  refine ⟨fun k accepted => ?_, fun t member => ?_, inv.taskNumber, fun a w' i edge leave => ?_⟩
  · exact ⟨inv.times_places accepted, inv.times_begun accepted⟩
  · exact inv.accepted_of_mem member
  · exact inv.returns edge leave

/-- A batch of two, with one worker that is running the second. -/
theorem one_place_each_batch :
    ∃ w : Workers ℕ, Runs.exec step init
        [.range [7, 8], .spawn 5, .dequeue 0, .complete 0, .exitTest 0, .resume 0, .dequeue 0] =
          some w ∧
      w.sched.taskNumber = 1 ∧
      ∀ k < 2, times k w.waiting + times k w.running + times k w.finished = 1 := by
  have run : Runs.exec step init
      [.range [7, 8], .spawn 5, .dequeue 0, .complete 0, .exitTest 0, .resume 0, .dequeue 0] =
        some (_ : Workers ℕ) := rfl
  refine ⟨_, run, rfl, fun k accepted => ?_⟩
  exact ((one_place_each run).1 k accepted).1

end Workers

end Sylar
