import Sylar.Schedule.Enqueue
import Sylar.Schedule.Progress

/-!
# Overtaking

`m_task` is no queue: a callback stays in the slot it was stored in, the scan takes
the first occupied slot, and a store reuses the first free one. Every callback that
is taken from before a waiting one frees a slot there, and the next one stored
overtakes it. How long a callback waits depends on the number of occupied slots before
its own, which `overtake` counts along the labels alone.

* `step_stands`: a step moves the counter and leaves the callback in its slot, or the
  callback is begun.
* `stands_iff`: over every interleaving, the counter says where the callback waits
  and when it is begun.
* `overtaken`: a callback in the second slot can be passed by any number of others.
-/

namespace Sylar

variable {α β : Type}

namespace Schedule

variable {before rest : List (FuncAndthread α)} {a : α} {threadId tid : Int}

/-! ## The slots before a place -/

theorem placeFirst_full (full : free before = 0) :
    placeFirst (some a) threadId (before ++ rest) =
      before ++ placeFirst (some a) threadId rest := by
  induction before with
  | nil => rfl
  | cons it before ih =>
    unfold free at full ih
    rw [List.countP_cons] at full
    have busy : it.mCb.isSome = true := by
      cases here : it.mCb with
      | none =>
        rw [here, Option.isNone_none, if_pos rfl] at full
        cases full
      | some b => rfl
    show placeFirst (some a) threadId (it :: (before ++ rest)) = it :: (before ++ _)
    rw [placeFirst, if_pos busy, ih (Nat.eq_zero_of_add_eq_zero full).1]

theorem placeFirst_free (room : free before ≠ 0) :
    placeFirst (some a) threadId (before ++ rest) =
      placeFirst (some a) threadId before ++ rest := by
  induction before with
  | nil => exact absurd rfl room
  | cons it before ih =>
    show placeFirst (some a) threadId (it :: (before ++ rest)) = _
    unfold free at room ih
    rw [placeFirst, placeFirst]
    cases here : it.mCb with
    | none =>
      rw [Option.isSome_none, if_neg Bool.false_ne_true, if_neg Bool.false_ne_true]
      rfl
    | some b =>
      rw [List.countP_cons, here, Option.isNone_some, if_neg Bool.false_ne_true] at room
      rw [Option.isSome_some, if_pos rfl, if_pos rfl, ih room]
      rfl

theorem fillFree_cons_full {it : FuncAndthread α} (full : it.mCb = some a) (cb : Option α)
    (cbs : List (Option α)) :
    fillFree (it :: rest) (cb :: cbs) =
      (it :: (fillFree rest (cb :: cbs)).1, (fillFree rest (cb :: cbs)).2) := by
  rw [fillFree, full, Option.isSome_some, if_pos rfl]

theorem fillFree_cons_free {it : FuncAndthread α} (empty : it.mCb = none) (cb : Option α)
    (cbs : List (Option α)) :
    fillFree (it :: rest) (cb :: cbs) =
      ({ it with mCb := cb } :: (fillFree rest cbs).1, (fillFree rest cbs).2) := by
  rw [fillFree, empty, Option.isSome_none, if_neg Bool.false_ne_true]

/-- The first loop of `schedule(begin, end)` goes on behind a place with what it has left
there. -/
theorem fillFree_append (before rest : List (FuncAndthread α)) (cbs : List (Option α)) :
    fillFree (before ++ rest) cbs =
      ((fillFree before cbs).1 ++ (fillFree rest (fillFree before cbs).2).1,
        (fillFree rest (fillFree before cbs).2).2) := by
  induction before generalizing cbs with
  | nil => rfl
  | cons it before ih =>
    cases cbs with
    | nil => rw [fillFree_none, fillFree_none, fillFree_none]
    | cons cb cbs =>
      rw [List.cons_append]
      cases here : it.mCb with
      | none =>
        rw [fillFree_cons_free here, fillFree_cons_free here, ih]
        rfl
      | some b =>
        rw [fillFree_cons_full here, fillFree_cons_full here, ih]
        rfl

/-- How many of the slots before a place are occupied after a batch. -/
theorem length_occupied_fillFree (before : List (FuncAndthread α)) (cbs : List α) :
    (occupied (fillFree before (cbs.map some)).1).length =
      min before.length ((occupied before).length + cbs.length) := by
  obtain ⟨stored, left, split, rest, perm⟩ := occupied_fillFree before cbs
  have inside := free_add_occupied before
  have leftOver := length_left before cbs
  have length := perm.length_eq
  have whole := congrArg List.length split
  rw [rest, List.length_map] at leftOver
  rw [List.length_append] at length whole
  omega

theorem takeFirst_before (some : occupied before ≠ []) :
    takeFirst tid (before ++ rest) =
      ((takeFirst tid before).1, (takeFirst tid before).2 ++ rest) := by
  induction before with
  | nil => exact absurd rfl some
  | cons it before ih =>
    show takeFirst tid (it :: (before ++ rest)) = _
    rw [takeFirst, takeFirst]
    cases here : it.mCb with
    | none =>
      rw [occupied_cons, here] at some
      rw [Option.isSome_none, if_neg Bool.false_ne_true, if_neg Bool.false_ne_true, ih some]
      rfl
    | some b =>
      rw [Option.isSome_some, if_pos rfl, if_pos rfl, FuncAndthread.threadTest_eq]
      rfl

/-- The scan takes one callback from before a place, if one stands there. -/
theorem length_occupied_takeFirst (tid : Int) (some : occupied before ≠ []) :
    (occupied (takeFirst tid before).2).length + 1 = (occupied before).length := by
  obtain ⟨a, more, first⟩ := List.exists_cons_of_ne_nil some
  have scan := takeFirst_spec tid before
  rw [takeFirst_head, first] at scan
  rw [first]
  exact (congrArg List.length scan).symm

/-! ## A callback in its slot -/

/-- The callback `k` stands in the slot `p`, with `n` callbacks in the slots before. -/
def Stands (slots : List (FuncAndthread (Ticket β))) (k p n : ℕ) : Prop :=
  (∃ cb, slots[p]?.bind FuncAndthread.mCb = some ⟨k, cb⟩) ∧
    (occupied (slots.take p)).length = n

variable {slots after : List (FuncAndthread (Ticket β))} {it : FuncAndthread (Ticket β)}
  {k p n : ℕ} {task : Ticket β} {tasks : List (Ticket β)}

theorem stands_append (before after : List (FuncAndthread (Ticket β))) {cb : β}
    (here : it.mCb = some ⟨k, cb⟩) :
    Stands (before ++ it :: after) k before.length (occupied before).length := by
  refine ⟨⟨cb, ?_⟩, ?_⟩
  · rw [List.getElem?_append_right (Nat.le_refl _), Nat.sub_self]
    exact here
  · rw [List.take_left']
    rfl

theorem Stands.split (stands : Stands slots k p n) :
    ∃ before it after cb, slots = before ++ it :: after ∧ before.length = p ∧
      (occupied before).length = n ∧ it.mCb = some ⟨k, cb⟩ := by
  obtain ⟨⟨cb, there⟩, ahead⟩ := stands
  obtain ⟨it, found, here⟩ := Option.bind_eq_some_iff.mp there
  obtain ⟨bound, rfl⟩ := List.getElem?_eq_some_iff.mp found
  refine ⟨slots.take p, slots[p], slots.drop (p + 1), cb, ?_, ?_, ahead, here⟩
  · rw [List.getElem_cons_drop, List.take_append_drop]
  · exact List.length_take_of_le (Nat.le_of_lt bound)

/-- A store goes before a waiting callback wherever there is room. -/
theorem Stands.placeFirst (stands : Stands slots k p n) (task : Ticket β) (threadId : Int) :
    Stands (placeFirst (some task) threadId slots) k p (min p (n + 1)) := by
  obtain ⟨before, it, after, cb, rfl, rfl, rfl, here⟩ := stands.split
  have inside := free_add_occupied before
  by_cases full : free before = 0
  · have busy : it.mCb.isSome = true := by
      rw [here]
      rfl
    rw [placeFirst_full full, Schedule.placeFirst, if_pos busy]
    have same : min before.length ((occupied before).length + 1) = (occupied before).length := by
      omega
    rw [same]
    exact stands_append before _ here
  · have grown := (occupied_placeFirst task threadId before).length_eq
    have length := length_placeFirst task threadId before
    have moved := stands_append (Schedule.placeFirst (some task) threadId before) after here
    rw [List.length_cons] at grown
    rw [placeFirst_free full]
    have place : (Schedule.placeFirst (some task) threadId before).length = before.length := by
      omega
    have number : min before.length ((occupied before).length + 1) =
        (occupied before).length + 1 := by omega
    rw [place, grown] at moved
    rw [number]
    exact moved

theorem Stands.scheduleRange {s : Schedule (Ticket β)} (stands : Stands s.mTask k p n)
    (tasks : List (Ticket β)) :
    Stands (s.scheduleRange (tasks.map some)).mTask k p (min p (n + tasks.length)) := by
  obtain ⟨before, it, after, cb, slots, rfl, rfl, here⟩ := stands.split
  have stays (left : List (Option (Ticket β))) :
      ∃ later, (fillFree (it :: after) left).1 = it :: later := by
    cases left with
    | nil => exact ⟨after, rfl⟩
    | cons first left =>
      refine ⟨(fillFree after (first :: left)).1, ?_⟩
      rw [fillFree_cons_full here]
  obtain ⟨later, kept⟩ := stays (fillFree before (tasks.map some)).2
  have moved := stands_append (fillFree before (tasks.map some)).1
    (later ++ (fillFree s.mTask (tasks.map some)).2.map fun cb => ⟨cb, -1⟩) here
  rw [length_filled, length_occupied_fillFree] at moved
  have slots' : (s.scheduleRange (tasks.map some)).mTask =
      (fillFree before (tasks.map some)).1 ++
        it :: (later ++ (fillFree s.mTask (tasks.map some)).2.map fun cb => ⟨cb, -1⟩) := by
    show (fillFree s.mTask (tasks.map some)).1 ++ _ = _
    nth_rewrite 1 [slots]
    rw [fillFree_append, kept, List.append_assoc]
    rfl
  rw [slots']
  exact moved

/-- A scan takes a callback from before the waiting one, if one stands there, and else
the waiting one. -/
theorem Stands.takeFirst (stands : Stands slots k p n) (tid : Int) :
    (n ≠ 0 ∧ Stands (takeFirst tid slots).2 k p (n - 1)) ∨
      n = 0 ∧ ∃ cb, (Schedule.takeFirst tid slots).1.bind FuncAndthread.mCb = some ⟨k, cb⟩ := by
  obtain ⟨before, it, after, cb, rfl, rfl, rfl, here⟩ := stands.split
  by_cases empty : occupied before = []
  · refine .inr ⟨congrArg List.length empty, cb, ?_⟩
    rw [takeFirst_head, occupied_append, empty, occupied_cons, here]
    rfl
  · refine .inl ⟨fun none => empty (List.eq_nil_of_length_eq_zero none), ?_⟩
    have fewer := length_occupied_takeFirst tid empty
    have moved := stands_append (Schedule.takeFirst tid before).2 after here
    rw [length_takeFirst] at moved
    rw [takeFirst_before empty]
    have number : (occupied before).length - 1 =
        (occupied (Schedule.takeFirst tid before).2).length := by omega
    rw [number]
    exact moved

end Schedule

/-! ## The counter -/

/-- What a step does to the number of callbacks before the slot `p`, while one waits in
it; `none` once that one is taken. -/
def overtake (p n : ℕ) : SchedStep β → Option ℕ
  | .store _ => some (min p (n + 1))
  | .range cbs => some (min p (n + cbs.length))
  | .dequeue _ => if n = 0 then none else some (n - 1)
  | _ => some n

namespace Workers

open Schedule

variable {w w' s t : Workers β} {a : SchedStep β} {as bs : List (SchedStep β)} {k p n : ℕ}

theorem step_stands (stands : Stands w.sched.mTask k p n) (edge : w.step a = some w') :
    (∃ n', overtake p n a = some n' ∧ Stands w'.sched.mTask k p n') ∨
      overtake p n a = none ∧ 0 < times k (w'.begun.map Prod.fst) := by
  cases step_cases edge with
  | enters cb threadId => split <;> exact .inl ⟨n, rfl, stands⟩
  | @stores i cb threadId found => exact .inl ⟨_, rfl, stands.placeFirst _ _⟩
  | batch cbs =>
    have moved := stands.scheduleRange (ticketsFrom w.accepted.length cbs)
    rw [length_ticketsFrom] at moved
    exact .inl ⟨_, rfl, moved⟩
  | halts | stops | spawns | completes | tests | resumes => exact .inl ⟨n, rfl, stands⟩
  | @scans i x there pc =>
    obtain ⟨slots, taken⟩ := w.sched.dequeue_eq x.tid
    rcases stands.takeFirst x.tid with ⟨some, moved⟩ | ⟨none, cb, first⟩
    · refine .inl ⟨n - 1, if_neg some, ?_⟩
      rw [← slots] at moved
      unfold dequeue
      cases taken' : (w.sched.dequeue x.tid).2 <;> simp only [taken'] <;> exact moved
    · refine .inr ⟨if_pos none, ?_⟩
      rw [first] at taken
      unfold dequeue
      simp only [taken]
      exact List.count_pos_iff.mpr List.mem_cons_self

/-- What was begun stays begun. -/
theorem begun_of_step (edge : w.step a = some w') (begun : 0 < times k (w.begun.map Prod.fst)) :
    0 < times k (w'.begun.map Prod.fst) := by
  cases step_moved edge with
  | stays _ _ _ _ same _ | stores _ _ _ _ _ same _ | finishes _ _ _ _ _ same _ =>
    rw [same]
    exact begun
  | begins task tid _ _ _ _ more _ =>
    rw [more]
    exact List.count_pos_iff.mpr (List.mem_cons_of_mem _ (List.count_pos_iff.mp begun))

theorem run_stands (stands : Stands s.sched.mTask k p n) (run : Runs.exec step s as = some t) :
    (∃ n', Runs.exec (overtake p) n as = some n' ∧ Stands t.sched.mTask k p n') ∨
      Runs.exec (overtake p) n as = none ∧ 0 < times k (t.begun.map Prod.fst) := by
  induction as generalizing s n with
  | nil =>
    cases run
    exact .inl ⟨n, rfl, stands⟩
  | cons a as ih =>
    obtain ⟨u, edge, rest⟩ := Runs.exec_cons_eq_some.mp run
    show (∃ n', (overtake p n a).bind _ = some n' ∧ _) ∨ (overtake p n a).bind _ = none ∧ _
    rcases step_stands stands edge with ⟨n', count, stands'⟩ | ⟨taken, begun⟩
    · rw [count]
      exact ih stands' rest
    · rw [taken]
      refine .inr ⟨rfl, ?_⟩
      exact Runs.exec_inv (I := fun u : Workers β => 0 < times k (u.begun.map Prod.fst))
        (fun begun edge => begun_of_step edge begun) begun rest

/-- A callback that stands in a slot has not been begun. -/
theorem Conserved.times_begun_of_stands (inv : Conserved w) (stands : Stands w.sched.mTask k p n) :
    times k (w.begun.map Prod.fst) = 0 := by
  obtain ⟨before, it, after, cb, slots, -, -, here⟩ := stands.split
  have waits : 0 < times k w.waiting := by
    refine List.count_pos_iff.mpr (List.mem_map.mpr ⟨⟨k, cb⟩, ?_, rfl⟩)
    unfold waiting
    rw [slots]
    exact List.mem_filterMap.mpr ⟨it, List.mem_append_right _ List.mem_cons_self, here⟩
  have ticket : ⟨k, cb⟩ ∈ w.waiting ++ w.running ++ w.finished := by
    refine List.mem_append_left _ (List.mem_append_left _ ?_)
    unfold waiting
    rw [slots]
    exact List.mem_filterMap.mpr ⟨it, List.mem_append_right _ List.mem_cons_self, here⟩
  obtain ⟨threadId, accepted⟩ := inv.accepted_of_mem ticket
  have places := inv.times_places (List.getElem?_eq_some_iff.mp accepted).1
  have begun := times_perm (k := k) inv.begun
  rw [times_append] at begun
  dsimp only at places
  omega

/-- Over every interleaving: a callback that stands in the slot `p` with `n` callbacks
before it stands there, with as many before it as `overtake` has counted, until the
dequeue that the counter stops at, and that one begins it. -/
theorem stands_iff (run : Runs.exec step init as = some s)
    (stands : Stands s.sched.mTask k p n) (more : Runs.exec step s bs = some t) :
    (∀ n', Stands t.sched.mTask k p n' ↔ Runs.exec (overtake p) n bs = some n') ∧
      (times k (t.begun.map Prod.fst) = 1 ↔ Runs.exec (overtake p) n bs = none) := by
  have inv : Conserved t :=
    Runs.exec_inv (fun inv edge => Conserved.next inv edge) (conserved_of_exec run) more
  rcases run_stands stands more with ⟨n', count, stands'⟩ | ⟨taken, begun⟩
  · rw [count, inv.times_begun_of_stands stands']
    refine ⟨fun m => ?_, iff_of_false (by decide) (Option.some_ne_none n')⟩
    exact ⟨fun other => congrArg some (stands'.2.symm.trans other.2),
      fun same => Option.some.inj same ▸ stands'⟩
  · have once : times k (t.begun.map Prod.fst) = 1 := by
      have bound : k < t.accepted.length := by
        obtain ⟨task, among, number⟩ := List.mem_map.mp (List.count_pos_iff.mp begun)
        have place := inv.begun.mem_iff.mp among
        rw [List.mem_append] at place
        have placed : task ∈ t.waiting ++ t.running ++ t.finished := by
          rw [List.append_assoc, List.mem_append, List.mem_append]
          exact .inr place
        obtain ⟨threadId, accepted⟩ := inv.accepted_of_mem placed
        rw [number] at accepted
        exact (List.getElem?_eq_some_iff.mp accepted).1
      have most := inv.times_begun bound
      omega
    rw [taken]
    refine ⟨fun m => iff_of_false (fun stands' => ?_) (fun same => by cases same),
      iff_of_true once rfl⟩
    rw [inv.times_begun_of_stands stands'] at begun
    cases begun

/-- The first of two callbacks is taken, and one that comes later goes into its slot. -/
theorem stands_iff_passed :
    ∃ t : Workers ℕ, Runs.exec step init ([.range [7, 8]] ++ [.spawn 5, .dequeue 0, .range [9]]) =
        some t ∧ Stands t.sched.mTask 1 1 1 := by
  have run : Runs.exec step init [.range [7, 8]] = some (_ : Workers ℕ) := rfl
  have whole : Runs.exec step init ([.range [7, 8]] ++ [.spawn 5, .dequeue 0, .range [9]]) =
      some (_ : Workers ℕ) := rfl
  have more := (Runs.exec_append_eq_some run).symm.trans whole
  exact ⟨_, whole, ((stands_iff run ⟨⟨8, rfl⟩, rfl⟩ more).1 1).mpr rfl⟩

/-- One more callback is stored while the first one waits, and the worker takes that
first one: `n` of them have passed the second by. -/
structure Crowded (w : Workers ℕ) (n : ℕ) : Prop where
  stopping : w.sched.mStopping = false
  calls : w.calls = []
  workers : w.workers = [⟨5, .scan⟩]
  mTask : ∃ first, w.sched.mTask = [⟨some first, -1⟩, ⟨some ⟨1, 8⟩, -1⟩]
  taskNumber : w.sched.taskNumber = 2
  begun : w.begun.length = n

/-- A turn of the worker, with one callback stored in it. -/
def turn : List (SchedStep ℕ) :=
  [.enter 9 (-1), .dequeue 0, .complete 0, .exitTest 0, .resume 0, .store 0]

theorem Crowded.next {w : Workers ℕ} (inv : Crowded w n) :
    ∃ w', Runs.exec step w turn = some w' ∧ Crowded w' (n + 1) := by
  obtain ⟨sched, calls, workers, accepted, begun, finished⟩ := w
  obtain ⟨mTask, taskNumber, mStopping, idle, tickles⟩ := sched
  obtain ⟨stopping, none, one, ⟨first, slots⟩, count, length⟩ := inv
  dsimp only at stopping none one slots count length
  subst stopping none one slots count length
  exact ⟨_, rfl, rfl, rfl, rfl, ⟨_, rfl⟩, rfl, rfl⟩

/-- A callback in the second slot can be passed by any number of callbacks that were
accepted after it. -/
theorem overtaken (n : ℕ) : ∃ as w, Runs.exec step (init : Workers ℕ) as = some w ∧
    w.begun.length = n ∧ Stands w.sched.mTask 1 1 1 := by
  have crowded : ∃ as w, Runs.exec step (init : Workers ℕ) as = some w ∧ Crowded w n := by
    induction n with
    | zero => exact ⟨[.spawn 5, .range [7, 8]], _, rfl, rfl, rfl, rfl, ⟨_, rfl⟩, rfl, rfl⟩
    | succ n ih =>
      obtain ⟨as, w, run, crowded⟩ := ih
      obtain ⟨w', more, crowded'⟩ := crowded.next
      exact ⟨as ++ turn, w', (Runs.exec_append_eq_some run).trans more, crowded'⟩
  obtain ⟨as, w, run, crowded⟩ := crowded
  obtain ⟨first, slots⟩ := crowded.mTask
  refine ⟨as, w, run, crowded.begun, ?_⟩
  rw [slots]
  exact ⟨⟨8, rfl⟩, rfl⟩

end Workers

end Sylar
