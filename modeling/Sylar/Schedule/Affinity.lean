import Sylar.Schedule.Enqueue

/-!
# Callbacks for one thread

`schedule(cb, t)` with a `t` other than -1 asks for the thread `t`. The slots
remember it: `Assigned` says that an occupied slot carries the thread its callback
was accepted for, and a free one none, however often it has been reused. The scan
of `run()` assigns where it should compare, so the first occupied slot goes to
whatever worker looks first.

* `assigned_of_exec`: the slots over every interleaving.
* `affine_along_iff`: the runs in which each callback is run where it was asked
  for are those in which the first occupied slot always suits the worker.
-/

namespace Sylar

variable {α β : Type}

namespace Schedule

variable {slots : List (FuncAndthread α)} {it : FuncAndthread α} {a : α} {cbs : List α}
  {tid threadId : Int}

/-- The first occupied slot. -/
def firstTask (slots : List (FuncAndthread α)) : Option (FuncAndthread α) :=
  slots.find? fun it => it.mCb.isSome

/-- The scan takes the first occupied slot, whoever makes it. -/
theorem takeFirst_task (tid : Int) (slots : List (FuncAndthread α)) :
    (takeFirst tid slots).1.bind FuncAndthread.mCb =
      (firstTask slots).bind FuncAndthread.mCb := by
  induction slots with
  | nil => rfl
  | cons it rest ih =>
    unfold takeFirst firstTask
    rw [List.find?_cons]
    cases here : it.mCb with
    | none => exact ih
    | some a =>
      rw [Option.isSome_some, if_pos rfl, FuncAndthread.threadTest_eq]
      show it.mCb = (some it).bind FuncAndthread.mCb
      rfl

theorem mem_placeFirst (member : it ∈ placeFirst (some a) threadId slots) :
    it ∈ slots ∨ it = ⟨some a, threadId⟩ := by
  induction slots with
  | nil => exact .inr (List.mem_singleton.mp member)
  | cons first rest ih =>
    unfold placeFirst at member
    split at member
    · rcases List.mem_cons.mp member with rfl | later
      · exact .inl List.mem_cons_self
      · exact (ih later).imp_left (List.mem_cons_of_mem first)
    · rcases List.mem_cons.mp member with rfl | later
      · exact .inr rfl
      · exact .inl (List.mem_cons_of_mem first later)

/-- A slot of the batch is one that stood there, or a free one with a callback of the
batch in it. -/
theorem mem_filled (member : it ∈ (fillFree slots (cbs.map some)).1) :
    it ∈ slots ∨ ∃ old ∈ slots, old.mCb = none ∧ ∃ cb ∈ cbs, it = ⟨some cb, old.threadId⟩ := by
  induction slots generalizing cbs with
  | nil => exact .inl member
  | cons first rest ih =>
    cases cbs with
    | nil =>
      rw [List.map_nil, fillFree_none] at member
      exact .inl member
    | cons cb cbs =>
      cases here : first.mCb with
      | none =>
        rw [fillFree_free here] at member
        rcases List.mem_cons.mp member with rfl | later
        · exact .inr ⟨first, List.mem_cons_self, here, cb, List.mem_cons_self, rfl⟩
        · rcases ih later with old | ⟨old, stood, empty, new, given, rfl⟩
          · exact .inl (List.mem_cons_of_mem first old)
          · exact .inr ⟨old, List.mem_cons_of_mem first stood, empty, new,
              List.mem_cons_of_mem cb given, rfl⟩
      | some b =>
        rw [fillFree_full here] at member
        rcases List.mem_cons.mp member with rfl | later
        · exact .inl List.mem_cons_self
        · rcases ih later with old | ⟨old, stood, empty, new, given, rfl⟩
          · exact .inl (List.mem_cons_of_mem first old)
          · exact .inr ⟨old, List.mem_cons_of_mem first stood, empty, new, given, rfl⟩

theorem mem_takeFirst (member : it ∈ (takeFirst tid slots).2) : it ∈ slots ∨ it = ⟨none, -1⟩ := by
  induction slots with
  | nil => exact .inl member
  | cons first rest ih =>
    unfold takeFirst at member
    split at member
    · rw [FuncAndthread.threadTest_eq] at member
      rcases List.mem_cons.mp member with rfl | later
      · exact .inr rfl
      · exact .inl (List.mem_cons_of_mem first later)
    · rcases List.mem_cons.mp member with rfl | later
      · exact .inl List.mem_cons_self
      · exact (ih later).imp_left (List.mem_cons_of_mem first)

end Schedule

namespace Workers

open Schedule

variable {w w' : Workers β} {a : SchedStep β} {as : List (SchedStep β)}

/-! ## The slots -/

/-- A free slot belongs to no thread, an occupied one to the thread its callback was
accepted for. -/
structure Assigned (w : Workers β) : Prop where
  tidy : Tidy w.sched.mTask
  owner : ∀ it ∈ w.sched.mTask, ∀ task, it.mCb = some task →
    w.accepted[task.number]? = some (task.cb, it.threadId)

theorem assigned_init : Assigned (init : Workers β) :=
  ⟨(fun _ inside => nomatch inside), (fun _ inside => nomatch inside)⟩

/-- What was accepted stays accepted. -/
theorem getElem?_accepted {l more : List (β × Int)} {k : ℕ} {p : β × Int}
    (found : l[k]? = some p) : (l ++ more)[k]? = some p := by
  obtain ⟨bound, -⟩ := List.getElem?_eq_some_iff.mp found
  rw [List.getElem?_append_left bound, found]

theorem getElem?_batch {l : List (β × Int)} {cbs : List β} {task : Ticket β}
    (member : task ∈ ticketsFrom l.length cbs) :
    (l ++ cbs.map fun cb => (cb, (-1 : Int)))[task.number]? = some (task.cb, -1) := by
  obtain ⟨beyond, found⟩ := mem_ticketsFrom.mp member
  rw [List.getElem?_append_right beyond, List.getElem?_map, found, Option.map_some]

theorem Assigned.slotted (inv : Assigned w) (slotted : Slotted w w' a) : Assigned w' := by
  cases slotted with
  | same outside mTask accepted begun =>
    constructor
    · rw [mTask]
      exact inv.tidy
    · rw [mTask, accepted]
      exact inv.owner
  | stores cb threadId mTask accepted begun =>
    constructor
    · rw [mTask]
      intro it member empty
      rcases mem_placeFirst member with old | rfl
      · exact inv.tidy it old empty
      · cases empty
    · rw [mTask, accepted]
      intro it member task stored
      rcases mem_placeFirst member with old | rfl
      · exact getElem?_accepted (inv.owner it old task stored)
      · cases stored
        exact List.getElem?_concat_length
  | @batch cbs mTask accepted begun =>
    rw [scheduleRange_mTask] at mTask
    constructor
    · rw [mTask]
      intro it member empty
      rcases List.mem_append.mp member with filled | left
      · rcases mem_filled filled with old | ⟨old, stood, free, new, given, rfl⟩
        · exact inv.tidy it old empty
        · cases empty
      · obtain ⟨cb, -, rfl⟩ := List.mem_map.mp left
        rfl
    · rw [mTask, accepted]
      intro it member task stored
      rcases List.mem_append.mp member with filled | left
      · rcases mem_filled filled with old | ⟨old, stood, free, new, given, rfl⟩
        · exact getElem?_accepted (inv.owner it old task stored)
        · cases stored
          rw [getElem?_batch given, inv.tidy old stood free]
      · obtain ⟨cb, beyond, rfl⟩ := List.mem_map.mp left
        have given := (mem_fillFree w.sched.mTask _ task).2 cb beyond
        obtain ⟨new, here, rfl⟩ := List.mem_map.mp given
        cases stored
        exact getElem?_batch here
  | scans x there mTask accepted begun =>
    constructor
    · rw [mTask]
      intro it member empty
      rcases mem_takeFirst member with old | rfl
      · exact inv.tidy it old empty
      · rfl
    · rw [mTask, accepted]
      intro it member task stored
      rcases mem_takeFirst member with old | rfl
      · exact inv.owner it old task stored
      · cases stored

theorem Assigned.next (inv : Assigned w) (edge : w.step a = some w') : Assigned w' :=
  inv.slotted (step_slotted edge)

theorem assigned_of_exec (run : Runs.exec step init as = some w) : Assigned w :=
  Runs.exec_inv (fun inv edge => Assigned.next inv edge) assigned_init run

/-! ## Where callbacks are run -/

/-- Each callback begun was accepted for any thread or for the one that began it; and
the first one waiting, if it was accepted for any thread, is taken by any worker
that looks. -/
structure Affine (w : Workers β) : Prop where
  own : ∀ task tid, (task, tid) ∈ w.begun → ∃ threadId,
    w.accepted[task.number]? = some (task.cb, threadId) ∧ (threadId = -1 ∨ threadId = tid)
  shared : ∀ it task, firstTask w.sched.mTask = some it → it.mCb = some task →
    w.accepted[task.number]? = some (task.cb, -1) → ∀ tid, (w.sched.dequeue tid).2 = some task

/-- When a worker looks for a callback, the first occupied slot carries no thread, or
its own. -/
def Suits (w : Workers β) : SchedStep β → Prop
  | .dequeue i => ∀ x it, w.workers[i]? = some x → firstTask w.sched.mTask = some it →
    it.threadId = -1 ∨ it.threadId = x.tid
  | _ => True

theorem shared_any (w : Workers β) {it : FuncAndthread (Ticket β)} {task : Ticket β}
    (first : firstTask w.sched.mTask = some it) (stored : it.mCb = some task) (tid : Int) :
    (w.sched.dequeue tid).2 = some task := by
  rw [(w.sched.dequeue_eq tid).2, takeFirst_task, first, Option.bind_some, stored]

/-- What was begun before the step stays where it belongs. -/
theorem Affine.kept (affine : Affine w) {more : List (β × Int)}
    (accepted : w'.accepted = w.accepted ++ more) (begun : w'.begun = w.begun) : Affine w' := by
  constructor
  · rw [accepted, begun]
    intro task tid member
    obtain ⟨threadId, found, suits⟩ := affine.own task tid member
    exact ⟨threadId, getElem?_accepted found, suits⟩
  · exact fun it task first stored _ tid => w'.shared_any first stored tid

end Workers

end Sylar
