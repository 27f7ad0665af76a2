import Sylar.Lib.HighWater
import Sylar.Schedule.Conservation

/-!
# The two ways into `m_task`

`schedule(cb)` looks for a free slot for each callback, `schedule(begin, end)`
passes over the slots once and appends what is left. Both append only where no
slot is free, so the vector is never longer than it has had to be. They place
the callbacks alike, but the batch looks at `m_stopping` nowhere, and returns
without a `tickle` when the free slots have taken all of it.

* `filled_eq_placeEach`: where the slots are tidy, the batch stands where the single
  callbacks would.
* `agrees_iff`: the batches that do what the single calls do.
* `length_isPeak`: the length of `m_task` over every interleaving.
-/

namespace Sylar

variable {α β : Type}

namespace Schedule

/-- `schedule(cb, threadId)`, with the test of `m_stopping` at its head. -/
def scheduleCb (s : Schedule α) (cb : Option α) (threadId : Int) : Schedule α :=
  if s.mStopping then s else s.schedule cb threadId

/-- `schedule(cb)` on each callback in order. -/
def scheduleEach (s : Schedule α) (cbs : List (Option α)) : Schedule α :=
  cbs.foldl (fun s cb => s.scheduleCb cb (-1)) s

/-- The slots after `schedule(cb)` on each callback. -/
def placeEach (cbs : List α) (slots : List (FuncAndthread α)) : List (FuncAndthread α) :=
  cbs.foldl (fun slots cb => placeFirst (some cb) (-1) slots) slots

/-- The slots that can be reused. -/
def free (slots : List (FuncAndthread α)) : ℕ := slots.countP fun it => it.mCb.isNone

/-- A slot that can be reused belongs to no thread. -/
def Tidy (slots : List (FuncAndthread α)) : Prop :=
  ∀ it ∈ slots, it.mCb = none → it.threadId = -1

/-- A callback of a batch that was left over, in a slot of its own. -/
def appended (cb : Option α) : FuncAndthread α := ⟨cb, -1⟩

variable {slots rest : List (FuncAndthread α)} {it : FuncAndthread α} {cb a : α} {cbs : List α}

/-! ## One slot at a time -/

section Slots

theorem free_add_occupied (slots : List (FuncAndthread α)) :
    free slots + (occupied slots).length = slots.length := by
  induction slots with
  | nil => rfl
  | cons it rest ih =>
    unfold free at ih ⊢
    rw [occupied_cons, List.countP_cons, List.length_append, List.length_cons]
    cases it.mCb with
    | none => simp only [Option.isNone_none, Option.toList_none, List.length_nil, if_true]; omega
    | some a =>
      simp only [Option.isNone_some, Option.toList_some, List.length_singleton,
        Bool.false_eq_true, if_false]
      omega

theorem placeEach_full (full : it.mCb = some a) :
    placeEach cbs (it :: rest) = it :: placeEach cbs rest := by
  induction cbs generalizing rest with
  | nil => rfl
  | cons cb cbs ih =>
    have placed : placeFirst (some cb) (-1) (it :: rest) =
        it :: placeFirst (some cb) (-1) rest := by
      rw [placeFirst, full, Option.isSome_some, if_pos rfl]
    show placeEach cbs (placeFirst (some cb) (-1) (it :: rest)) = _
    rw [placed]
    exact ih

theorem placeEach_free (empty : it.mCb = none) :
    placeEach (cb :: cbs) (it :: rest) = ⟨some cb, -1⟩ :: placeEach cbs rest := by
  have placed : placeFirst (some cb) (-1) (it :: rest) = ⟨some cb, -1⟩ :: rest := by
    rw [placeFirst, empty, Option.isSome_none, if_neg Bool.false_ne_true]
    rfl
  show placeEach cbs (placeFirst (some cb) (-1) (it :: rest)) = _
  rw [placed]
  exact placeEach_full rfl

theorem placeEach_nil (cbs : List α) :
    placeEach cbs [] = (cbs.map some).map appended := by
  induction cbs with
  | nil => rfl
  | cons cb cbs ih =>
    show placeEach cbs [⟨some cb, -1⟩] = _
    rw [placeEach_full rfl, ih]
    rfl

theorem fillFree_full (full : it.mCb = some a) (cb : α) (cbs : List α) :
    fillFree (it :: rest) ((cb :: cbs).map some) =
      (it :: (fillFree rest ((cb :: cbs).map some)).1,
        (fillFree rest ((cb :: cbs).map some)).2) := by
  rw [List.map_cons, fillFree, full, Option.isSome_some, if_pos rfl]

theorem fillFree_free (empty : it.mCb = none) (cb : α) (cbs : List α) :
    fillFree (it :: rest) ((cb :: cbs).map some) =
      ({ it with mCb := some cb } :: (fillFree rest (cbs.map some)).1,
        (fillFree rest (cbs.map some)).2) := by
  rw [List.map_cons, fillFree, empty, Option.isSome_none, if_neg Bool.false_ne_true]

theorem fillFree_none (slots : List (FuncAndthread α)) : fillFree slots [] = (slots, []) := by
  cases slots <;> rfl

/-- What is left over is what does not fit into the free slots. -/
theorem length_left (slots : List (FuncAndthread α)) (cbs : List α) :
    (fillFree slots (cbs.map some)).2.length = cbs.length - free slots := by
  induction slots generalizing cbs with
  | nil => simp [fillFree, free]
  | cons it rest ih =>
    cases cbs with
    | nil => rw [List.map_nil, fillFree_none, List.length_nil, List.length_nil, Nat.zero_sub]
    | cons cb cbs =>
      unfold free at ih ⊢
      rw [List.countP_cons]
      cases here : it.mCb with
      | none =>
        rw [fillFree_free here, ih, List.length_cons, Option.isNone_none, if_pos rfl]
        omega
      | some a =>
        rw [fillFree_full here, ih, Option.isNone_some, if_neg Bool.false_ne_true, Nat.add_zero]

theorem length_filled (slots : List (FuncAndthread α)) (cbs : List α) :
    (fillFree slots (cbs.map some)).1.length = slots.length := by
  induction slots generalizing cbs with
  | nil => rfl
  | cons it rest ih =>
    cases cbs with
    | nil => rw [List.map_nil, fillFree_none]
    | cons cb cbs =>
      cases here : it.mCb with
      | none => rw [fillFree_free here, List.length_cons, ih, List.length_cons]
      | some a => rw [fillFree_full here, List.length_cons, ih, List.length_cons]

end Slots

/-! ## Where the callbacks come to stand -/

/-- In tidy slots the batch stands where the single callbacks would. -/
theorem filled_eq_placeEach (tidy : Tidy slots) (cbs : List α) :
    (fillFree slots (cbs.map some)).1 ++ (fillFree slots (cbs.map some)).2.map appended =
      placeEach cbs slots := by
  induction slots generalizing cbs with
  | nil => exact (placeEach_nil cbs).symm
  | cons it rest ih =>
    have below : Tidy rest := fun other inside => tidy other (List.mem_cons_of_mem it inside)
    cases cbs with
    | nil =>
      rw [List.map_nil, fillFree_none]
      exact List.append_nil _
    | cons cb cbs =>
      cases here : it.mCb with
      | none =>
        have reused : { it with mCb := some cb } = (⟨some cb, -1⟩ : FuncAndthread α) := by
          rw [tidy it List.mem_cons_self here]
        rw [fillFree_free here, placeEach_free here, reused, List.cons_append, ih below]
      | some a => rw [fillFree_full here, placeEach_full here, List.cons_append, ih below]

/-- A batch that fills every free slot shows whether the slots are tidy. -/
theorem tidy_of_filled (fits : free slots < cbs.length)
    (same : (fillFree slots (cbs.map some)).1 ++ (fillFree slots (cbs.map some)).2.map appended =
      placeEach cbs slots) : Tidy slots := by
  induction slots generalizing cbs with
  | nil => exact fun it inside => nomatch inside
  | cons it rest ih =>
    cases cbs with
    | nil => exact absurd fits (Nat.not_lt_zero _)
    | cons cb cbs =>
      unfold free at ih fits
      rw [List.countP_cons, List.length_cons] at fits
      intro other inside empty
      cases here : it.mCb with
      | none =>
        rw [here, Option.isNone_none, if_pos rfl] at fits
        rw [fillFree_free here, placeEach_free here, List.cons_append] at same
        obtain ⟨first, later⟩ := List.cons.inj same
        rcases List.mem_cons.mp inside with rfl | below
        · exact congrArg FuncAndthread.threadId first
        · exact ih (by omega) later other below empty
      | some a =>
        rw [here, Option.isNone_some, if_neg Bool.false_ne_true] at fits
        rw [fillFree_full here, placeEach_full here, List.cons_append] at same
        obtain ⟨-, later⟩ := List.cons.inj same
        rcases List.mem_cons.mp inside with rfl | below
        · rw [here] at empty
          cases empty
        · exact ih (by rw [List.length_cons]; omega) later other below empty

/-! ## The two calls -/

variable {s : Schedule α}

theorem scheduleEach_running (running : s.mStopping = false) (cbs : List α) :
    (s.scheduleEach (cbs.map some)).mTask = placeEach cbs s.mTask ∧
      (s.scheduleEach (cbs.map some)).taskNumber = s.taskNumber + cbs.length := by
  induction cbs generalizing s with
  | nil => exact ⟨rfl, (Int.add_zero _).symm⟩
  | cons cb cbs ih =>
    have taken : s.scheduleCb (some cb) (-1) = s.schedule (some cb) (-1) :=
      if_neg (by rw [running]; exact Bool.false_ne_true)
    have each : s.scheduleEach ((cb :: cbs).map some) =
        (s.schedule (some cb) (-1)).scheduleEach (cbs.map some) := by
      rw [← taken]
      rfl
    obtain ⟨slots, count⟩ := ih (s := s.schedule (some cb) (-1)) running
    rw [each]
    refine ⟨slots, count.trans ?_⟩
    show s.taskNumber + 1 + (cbs.length : Int) = s.taskNumber + ((cbs.length + 1 : ℕ) : Int)
    omega

theorem scheduleRange_mTask (s : Schedule α) (cbs : List α) :
    (s.scheduleRange (cbs.map some)).mTask =
      (fillFree s.mTask (cbs.map some)).1 ++ (fillFree s.mTask (cbs.map some)).2.map appended :=
  rfl

theorem occupied_growth (s : Schedule α) (cbs : List α) :
    (occupied (s.scheduleRange (cbs.map some)).mTask).length =
      cbs.length + (occupied s.mTask).length := by
  rw [(s.occupied_scheduleRange cbs).length_eq, List.length_append]

/-- The batch wakes a worker exactly when the free slots have not taken all of it. -/
theorem tickles_scheduleRange (s : Schedule α) (cbs : List α) :
    s.tickles < (s.scheduleRange (cbs.map some)).tickles ↔ free s.mTask < cbs.length := by
  have left := length_left s.mTask cbs
  have tickles : (s.scheduleRange (cbs.map some)).tickles =
      if (fillFree s.mTask (cbs.map some)).2.isEmpty then s.tickles else s.tickles + 1 := rfl
  rw [tickles]
  cases rest : (fillFree s.mTask (cbs.map some)).2 with
  | nil =>
    rw [rest, List.length_nil] at left
    rw [List.isEmpty_nil, if_pos rfl]
    omega
  | cons cb more =>
    rw [rest, List.length_cons] at left
    rw [List.isEmpty_cons, if_neg Bool.false_ne_true]
    omega

/-- The batch does what the single calls do: the same slots and the same count; it
stores nothing once `m_stopping` is set; and it wakes a worker when it has stored
something. -/
structure Agrees (s : Schedule α) (cbs : List α) : Prop where
  mTask : (s.scheduleRange (cbs.map some)).mTask = (s.scheduleEach (cbs.map some)).mTask
  taskNumber :
    (s.scheduleRange (cbs.map some)).taskNumber = (s.scheduleEach (cbs.map some)).taskNumber
  refuses : s.mStopping = true → (s.scheduleRange (cbs.map some)).mTask = s.mTask ∧
    (s.scheduleRange (cbs.map some)).taskNumber = s.taskNumber
  wakes : (occupied s.mTask).length < (occupied (s.scheduleRange (cbs.map some)).mTask).length →
    s.tickles < (s.scheduleRange (cbs.map some)).tickles

theorem agrees_nil (s : Schedule α) : Agrees s [] := by
  have slots : (s.scheduleRange ([].map some)).mTask = s.mTask := by
    rw [scheduleRange_mTask, List.map_nil, fillFree_none]
    exact List.append_nil _
  have count : (s.scheduleRange ([].map some)).taskNumber = s.taskNumber := Int.add_zero _
  refine ⟨slots, count, fun _ => ⟨slots, count⟩, fun more => ?_⟩
  rw [slots] at more
  exact absurd more (Nat.lt_irrefl _)

/-- The batch does what the single calls do if and only if it is empty, or
`m_stopping` is not set, there are more callbacks than free slots, and the free
slots belong to no thread. -/
theorem agrees_iff (s : Schedule α) (cbs : List α) : Agrees s cbs ↔
    cbs = [] ∨ (s.mStopping = false ∧ free s.mTask < cbs.length ∧ Tidy s.mTask) := by
  constructor
  · intro agrees
    cases cbs with
    | nil => exact .inl rfl
    | cons cb cbs =>
      have grows := occupied_growth s (cb :: cbs)
      rw [List.length_cons] at grows
      have running : s.mStopping = false := by
        by_contra stopping
        have same := (agrees.refuses (Bool.not_eq_false _ ▸ stopping)).1
        rw [same] at grows
        omega
      have fits : free s.mTask < (cb :: cbs).length :=
        (tickles_scheduleRange s (cb :: cbs)).mp (agrees.wakes (by omega))
      refine .inr ⟨running, fits, tidy_of_filled fits ?_⟩
      exact agrees.mTask.trans (scheduleEach_running running (cb :: cbs)).1
  · rintro (rfl | ⟨running, fits, tidy⟩)
    · exact agrees_nil s
    · obtain ⟨slots, count⟩ := scheduleEach_running running cbs
      refine ⟨(filled_eq_placeEach tidy cbs).trans slots.symm, ?_, fun stopping => ?_, fun _ => ?_⟩
      · rw [count, scheduleRange, List.length_map]
      · rw [running] at stopping
        cases stopping
      · exact (tickles_scheduleRange s cbs).mpr fits

/-! ## The length of `m_task` -/

theorem length_placeFirst (a : α) (threadId : Int) (slots : List (FuncAndthread α)) :
    (placeFirst (some a) threadId slots).length =
      max slots.length ((occupied slots).length + 1) := by
  induction slots with
  | nil => rfl
  | cons it rest ih =>
    have inside := free_add_occupied rest
    unfold placeFirst
    rw [occupied_cons, List.length_append]
    cases it.mCb with
    | none =>
      rw [Option.isSome_none, if_neg Bool.false_ne_true, List.length_cons, List.length_cons,
        Option.toList_none, List.length_nil]
      omega
    | some b =>
      rw [Option.isSome_some, if_pos rfl, List.length_cons, List.length_cons, ih,
        Option.toList_some, List.length_singleton]
      omega

/-- A slot is appended only when none is free. -/
theorem peak_placeFirst (a : α) (threadId : Int) (slots : List (FuncAndthread α)) :
    (placeFirst (some a) threadId slots).length =
      max slots.length (occupied (placeFirst (some a) threadId slots)).length := by
  rw [length_placeFirst, (occupied_placeFirst a threadId slots).length_eq, List.length_cons]

theorem peak_scheduleRange (s : Schedule α) (cbs : List α) :
    (s.scheduleRange (cbs.map some)).mTask.length =
      max s.mTask.length (occupied (s.scheduleRange (cbs.map some)).mTask).length := by
  have inside := free_add_occupied s.mTask
  rw [occupied_growth, scheduleRange_mTask, List.length_append, length_filled, List.length_map,
    length_left]
  omega

theorem length_takeFirst (tid : Int) (slots : List (FuncAndthread α)) :
    (takeFirst tid slots).2.length = slots.length := by
  induction slots with
  | nil => rfl
  | cons it rest ih =>
    unfold takeFirst
    split
    · rfl
    · rw [List.length_cons, List.length_cons, ih]

/-- The scan appends nothing. -/
theorem peak_takeFirst (tid : Int) (slots : List (FuncAndthread α)) :
    (takeFirst tid slots).2.length =
      max slots.length (occupied (takeFirst tid slots).2).length := by
  have inside := free_add_occupied (takeFirst tid slots).2
  have length := length_takeFirst tid slots
  omega

theorem dequeue_eq (s : Schedule α) (tid : Int) :
    (s.dequeue tid).1.mTask = (takeFirst tid s.mTask).2 ∧
      (s.dequeue tid).2 = (takeFirst tid s.mTask).1.bind FuncAndthread.mCb := by
  unfold dequeue
  cases found : (takeFirst tid s.mTask).1.bind FuncAndthread.mCb with
  | none =>
    simp only [found]
    exact ⟨trivial, trivial⟩
  | some cb =>
    simp only [found]
    exact ⟨trivial, trivial⟩

end Schedule

namespace Workers

open Schedule

variable {w w' : Workers β} {a : SchedStep β} {i : ℕ} {x : Worker β}

/-- What a step does to the slots and to the history of the callbacks. -/
inductive Slotted (w w' : Workers β) : SchedStep β → Prop
  | same {a : SchedStep β} (outside : ∀ i, a ≠ .dequeue i)
      (mTask : w'.sched.mTask = w.sched.mTask)
      (accepted : w'.accepted = w.accepted) (begun : w'.begun = w.begun) : Slotted w w' a
  | stores {i : ℕ} (cb : β) (threadId : Int)
      (mTask : w'.sched.mTask =
        placeFirst (some ⟨w.accepted.length, cb⟩) threadId w.sched.mTask)
      (accepted : w'.accepted = w.accepted ++ [(cb, threadId)]) (begun : w'.begun = w.begun) :
      Slotted w w' (.store i)
  | batch {cbs : List β}
      (mTask : w'.sched.mTask =
        (w.sched.scheduleRange ((ticketsFrom w.accepted.length cbs).map some)).mTask)
      (accepted : w'.accepted = w.accepted ++ cbs.map fun cb => (cb, -1))
      (begun : w'.begun = w.begun) : Slotted w w' (.range cbs)
  | scans {i : ℕ} (x : Worker β) (there : w.workers[i]? = some x)
      (mTask : w'.sched.mTask = (takeFirst x.tid w.sched.mTask).2)
      (accepted : w'.accepted = w.accepted)
      (begun : w'.begun = (((takeFirst x.tid w.sched.mTask).1.bind FuncAndthread.mCb).map
        fun task => (task, x.tid)).toList ++ w.begun) : Slotted w w' (.dequeue i)

theorem slotted_dequeue (there : w.workers[i]? = some x) :
    Slotted w (w.dequeue i x) (.dequeue i) := by
  obtain ⟨slots, taken⟩ := w.sched.dequeue_eq x.tid
  unfold dequeue
  cases found : (w.sched.dequeue x.tid).2 with
  | none =>
    simp only [found]
    refine .scans x there slots rfl ?_
    rw [← taken, found]
    rfl
  | some task =>
    simp only [found]
    refine .scans x there slots rfl ?_
    rw [← taken, found]
    rfl

/-- Every step is one of the four. -/
theorem step_slotted (edge : w.step a = some w') : Slotted w w' a := by
  cases step_cases edge with
  | enters cb threadId => split <;> exact .same (fun i same => by cases same) rfl rfl rfl
  | @stores i cb threadId found => exact .stores cb threadId rfl rfl rfl
  | batch cbs => exact .batch rfl rfl rfl
  | scans there pc => exact slotted_dequeue there
  | halts | stops | spawns | completes | tests | resumes =>
    exact .same (fun i same => by cases same) rfl rfl rfl

/-- A step moves the length of `m_task` to the number of occupied slots, if that is
larger. -/
theorem Slotted.length (slotted : Slotted w w' a) :
    w'.sched.mTask.length = max w.sched.mTask.length (occupied w'.sched.mTask).length := by
  cases slotted with
  | same outside mTask accepted begun =>
    have inside := free_add_occupied w.sched.mTask
    rw [mTask]
    omega
  | stores cb threadId mTask accepted begun =>
    rw [mTask]
    exact peak_placeFirst _ _ _
  | batch mTask accepted begun =>
    rw [mTask]
    exact peak_scheduleRange _ _
  | scans x there mTask accepted begun =>
    rw [mTask]
    exact peak_takeFirst _ _

/-- Over every interleaving, `m_task` has as many slots as have been occupied at the
same time at any point of the run. -/
theorem length_isPeak {as : List (SchedStep β)} (run : Runs.exec step init as = some w) :
    Runs.Peak step (fun w => (occupied w.sched.mTask).length) init as w.sched.mTask.length := by
  have grows {s t : Workers β} {a : SchedStep β} (edge : s.step a = some t) :
      t.sched.mTask.length = max s.sched.mTask.length (occupied t.sched.mTask).length :=
    (step_slotted edge).length
  exact Runs.peak_of_step (f := fun w => (occupied w.sched.mTask).length) grows rfl run

/-- Two callbacks stand in slots at the same time; one more comes after a worker has
taken the first. -/
theorem length_isPeak_two :
    ∃ w : Workers ℕ, Runs.exec step init [.range [7, 8], .spawn 5, .dequeue 0, .range [9]] =
        some w ∧
      Runs.Peak step (fun w : Workers ℕ => (occupied w.sched.mTask).length) init
        [.range [7, 8], .spawn 5, .dequeue 0, .range [9]] 2 := by
  have run : Runs.exec step init [.range [7, 8], .spawn 5, .dequeue 0, .range [9]] =
      some (_ : Workers ℕ) := rfl
  exact ⟨_, run, length_isPeak run⟩

/-- After a worker has taken a callback, a batch of one goes into the free slot and
wakes nobody; and after `m_stopping` is set a batch is stored. -/
theorem batch_disagrees :
    (∃ w : Workers ℕ, Runs.exec step init [.range [7], .spawn 5, .dequeue 0] = some w ∧
        ¬ Agrees w.sched [⟨1, 8⟩]) ∧
      ∃ w : Workers ℕ, Runs.exec step init [.setStopping] = some w ∧
        ¬ Agrees w.sched [⟨0, 7⟩] := by
  refine ⟨⟨_, rfl, fun agrees => ?_⟩, ⟨_, rfl, fun agrees => ?_⟩⟩
  · exact absurd (agrees.wakes (by decide)) (by decide)
  · cases (agrees.refuses rfl).1

end Workers

end Sylar
