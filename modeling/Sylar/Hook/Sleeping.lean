import Sylar.Hook.Sleep
import Sylar.Schedule.Empty
import Sylar.Schedule.Labels
import Sylar.Timer.Order

/-!
# Callers that sleep

A hooked sleep blocks the thread it is called on: the call adds a timer and makes passes
of `idle` until the callback of that timer has cleared a local `flag`. Passes take the
timer out and schedule the callback; a worker in the loop of `run()` has to run it.

`Sleeping` is a manager and a scheduler with the frames of all calls that were made. Any
thread may make a pass: an idle worker, one of the calls, or a hooked call that waits for
a socket. Other threads edit the manager and schedule callbacks of their own.

* `slept_of_exec`: over every interleaving, the callback of a call is run once at most, and
  while it is to come the call stays; a call that returned was not early.
* `asleep_of_exec`: when every worker is in a call, none of them comes back.
* `lost_of_clash`: a call whose deadline is that of a pending timer never returns.
-/

namespace Sylar

/-- A callback on the scheduler: that of the timer of a call, or another. -/
inductive Wake (F : Type) where
  | sleeper (k : ℕ)
  | other (cb : F)

/-- The call that a callback is for. -/
def Wake.call {F : Type} : Wake F → Option ℕ
  | .sleeper k => some k
  | .other _ => none

/-- Where the callback of a call is: before `flag = false`, behind it, or at its end. -/
inductive WakePc where
  | before
  | cleared
  | done
  deriving DecidableEq

/-- Whether the callback goes on to `sleepTimer->cancel()`. -/
def SleepCall.cancels : SleepCall → Bool
  | .sleep _ => false
  | .usleep _ | .nanosleep .. => true

/-- The frame of a call: the worker that it runs on, if it is one, the timer of `addTimer` with
its deadline, whether `sleepTimer` is assigned, `flag`, and how far callback and call are. -/
structure SleepFrame where
  call : SleepCall
  caller : Option ℕ
  timer : ℕ
  deadline : UInt64
  sleepTimer : Bool
  flag : Bool
  wake : WakePc
  returned : Bool

/-- The timer of a call, with its deadline. -/
def SleepFrame.alarm (fr : SleepFrame) : ℕ × UInt64 := (fr.timer, fr.deadline)

/-- A pass between `GetExpiredCb` and `schedule`: the timers that its loop has not come to, and
the vector `obs`. -/
structure SleepPass (F : Type) where
  temp : List ℕ
  obs : List (Option (Wake F))

/-- The calls whose callbacks are in the vector. -/
def SleepPass.calls {F : Type} (p : SleepPass F) : List ℕ := p.obs.reduceOption.filterMap Wake.call

/-- The manager, the scheduler, the passes and the frames. `taken` records the timers taken
out, with the reading of the clock. -/
structure Sleeping (F : Type) where
  mgr : TimerManager (Wake F)
  sched : Callers (Wake F)
  passes : List (SleepPass F)
  frames : List SleepFrame
  taken : List (ℕ × UInt64)

/-- The steps: an edit of the manager and a step of the scheduler; the cut of `GetExpiredCb`, a
turn of the loop of the `j`-th pass, and its `schedule`; the `addTimer` of a call, the
assignment of `sleepTimer` and the return of the `k`-th; the two sections of the callback that
worker `i` runs, the second with the timer that `cancel` finds. -/
inductive SleepingStep (F : Type) where
  | edit (e : Edit (Wake F))
  | sched (a : CallerStep F)
  | extract (now : UInt64)
  | loop (j : ℕ) (now : UInt64)
  | schedule (j : ℕ)
  | arms (call : SleepCall) (caller : Option ℕ) (now : UInt64)
  | assigns (k : ℕ)
  | returns (k : ℕ)
  | clears (i : ℕ)
  | cancels (i : ℕ) (it : Option ℕ)

namespace Sleeping

open Workers (taskOf taskOf_step active_of_taskOf onWay)

variable {F : Type}

def init : Sleeping F := ⟨.empty, Callers.init, [], [], []⟩

/-- Whether worker `i` is in a call. -/
def inCall (s : Sleeping F) (i : ℕ) : Bool :=
  s.frames.any fun fr => decide (fr.caller = some i) && !fr.returned

/-- Whether worker `i` may make a call: it runs a callback, and is in no call. -/
def mayCall (s : Sleeping F) (i : ℕ) : Bool :=
  match taskOf s.sched.base i with
  | some (.other _) => !s.inCall i
  | _ => false

/-- The frame whose callback worker `i` runs. -/
def frameOf (s : Sleeping F) (i : ℕ) : Option (ℕ × SleepFrame) :=
  match taskOf s.sched.base i with
  | some (.sleeper k) => s.frames[k]?.map (Prod.mk k)
  | _ => none

/-- What a worker does by itself in the scheduler: it ends no callback that is not at its end
or in a call. -/
def free (s : Sleeping F) : CallerStep F → Bool
  | .sched (.complete i) =>
    !s.inCall i && (s.frameOf i).all fun p => decide (p.2.wake = .done)
  | _ => true

def setFrame (s : Sleeping F) (k : ℕ) (fr : SleepFrame) : Sleeping F :=
  { s with frames := s.frames.set k fr }

def step (s : Sleeping F) : SleepingStep F → Option (Sleeping F)
  | .edit e => some { s with mgr := s.mgr.edit e }
  | .sched a =>
    if s.free a then
      (s.sched.step (a.map Wake.other)).map fun sched => { s with sched := sched }
    else none
  | .extract now =>
    let temp := s.mgr.expired now
    some { s with
      mgr := s.mgr.edits (temp.map Edit.erase)
      passes := ⟨temp, []⟩ :: s.passes
      taken := temp.map (fun t => (t, now)) ++ s.taken }
  | .loop j now => match s.passes[j]? with
    | some ⟨item :: temp, obs⟩ =>
      some { s with
        mgr := s.mgr.edits (s.mgr.rearm (fun _ => now) 0 [item])
        passes := s.passes.set j ⟨temp, obs ++ [(s.mgr.timers item).mCb]⟩ }
    | _ => none
  | .schedule j => match s.passes[j]? with
    | some ⟨[], obs⟩ =>
      (if obs.isEmpty then some s.sched else s.sched.step (.batch obs)).map fun sched =>
        { s with sched := sched, passes := s.passes.eraseIdx j }
    | _ => none
  | .arms call caller now =>
    if caller.all s.mayCall then
      let (es, timer) := s.mgr.addTimer call.timeoutMs (some (.sleeper s.frames.length)) false now
      some { s with
        mgr := s.mgr.edits es
        frames := s.frames ++
          [⟨call, caller, timer, now + call.timeoutMs, false, true, .before, false⟩] }
    else none
  | .assigns k => (s.frames[k]?.filter fun fr => !fr.sleepTimer).map fun fr =>
      s.setFrame k { fr with sleepTimer := true }
  | .returns k => (s.frames[k]?.filter fun fr => fr.sleepTimer && !fr.flag && !fr.returned).map
      fun fr => s.setFrame k { fr with returned := true }
  | .clears i => ((s.frameOf i).filter fun p => decide (p.2.wake = .before)).map fun p =>
      s.setFrame p.1
        { p.2 with flag := false, wake := if p.2.call.cancels then .cleared else .done }
  | .cancels i it => ((s.frameOf i).filter fun p => decide (p.2.wake = .cleared)).map fun p =>
      { (s.setFrame p.1 { p.2 with wake := .done }) with
        mgr := s.mgr.edits (it.toList.map Edit.erase) }

/-! ## What a step can do -/

/-- The steps by what they change. -/
inductive StepCases (s : Sleeping F) : SleepingStep F → Sleeping F → Prop
  | edits (e : Edit (Wake F)) : StepCases s (.edit e) { s with mgr := s.mgr.edit e }
  | scheds {a : CallerStep F} {sched : Callers (Wake F)} (free : s.free a = true)
      (edge : s.sched.step (a.map Wake.other) = some sched) :
      StepCases s (.sched a) { s with sched := sched }
  | extracts (now : UInt64) : StepCases s (.extract now) { s with
      mgr := s.mgr.edits ((s.mgr.expired now).map Edit.erase)
      passes := ⟨s.mgr.expired now, []⟩ :: s.passes
      taken := (s.mgr.expired now).map (fun t => (t, now)) ++ s.taken }
  | loops {j item : ℕ} {temp : List ℕ} {obs : List (Option (Wake F))} (now : UInt64)
      (there : s.passes[j]? = some ⟨item :: temp, obs⟩) : StepCases s (.loop j now) { s with
        mgr := s.mgr.edits (s.mgr.rearm (fun _ => now) 0 [item])
        passes := s.passes.set j ⟨temp, obs ++ [(s.mgr.timers item).mCb]⟩ }
  | schedules {j : ℕ} {obs : List (Option (Wake F))} {sched : Callers (Wake F)}
      (there : s.passes[j]? = some ⟨[], obs⟩)
      (edge : (if obs.isEmpty then some s.sched else s.sched.step (.batch obs)) = some sched) :
      StepCases s (.schedule j) { s with sched := sched, passes := s.passes.eraseIdx j }
  | armed {call : SleepCall} {caller : Option ℕ} (now : UInt64)
      (may : caller.all s.mayCall = true) : StepCases s (.arms call caller now) { s with
        mgr := (s.mgr.edit (.create ⟨call.timeoutMs, now + call.timeoutMs, false,
          some (.sleeper s.frames.length), true⟩)).edit (.insert s.mgr.created)
        frames := s.frames ++
          [⟨call, caller, s.mgr.created, now + call.timeoutMs, false, true, .before, false⟩] }
  | assigned {k : ℕ} {fr : SleepFrame} (here : s.frames[k]? = some fr) :
      StepCases s (.assigns k) (s.setFrame k { fr with sleepTimer := true })
  | returned {k : ℕ} {fr : SleepFrame} (here : s.frames[k]? = some fr)
      (awake : fr.flag = false) :
      StepCases s (.returns k) (s.setFrame k { fr with returned := true })
  | cleared {i k : ℕ} {fr : SleepFrame} (runs : taskOf s.sched.base i = some (.sleeper k))
      (here : s.frames[k]? = some fr) (before : fr.wake = .before) :
      StepCases s (.clears i) (s.setFrame k
        { fr with flag := false, wake := if fr.call.cancels then .cleared else .done })
  | cancelled {i k : ℕ} {fr : SleepFrame} (it : Option ℕ)
      (runs : taskOf s.sched.base i = some (.sleeper k)) (here : s.frames[k]? = some fr)
      (cleared : fr.wake = .cleared) :
      StepCases s (.cancels i it) { (s.setFrame k { fr with wake := .done }) with
        mgr := s.mgr.edits (it.toList.map Edit.erase) }

variable {s t : Sleeping F} {a : SleepingStep F} {i k : ℕ} {fr : SleepFrame}

theorem frameOf_eq_some {p : ℕ × SleepFrame} :
    s.frameOf i = some p ↔
      taskOf s.sched.base i = some (.sleeper p.1) ∧ s.frames[p.1]? = some p.2 := by
  unfold frameOf
  constructor
  · intro found
    split at found
    · next k runs =>
      obtain ⟨fr, here, rfl⟩ := Option.map_eq_some_iff.mp found
      exact ⟨runs, here⟩
    · cases found
  · intro both
    rw [both.1]
    exact Option.map_eq_some_iff.mpr ⟨p.2, both.2, rfl⟩

theorem step_cases (edge : s.step a = some t) : StepCases s a t := by
  cases a with
  | edit e =>
    cases edge
    exact .edits e
  | sched b =>
    obtain ⟨free, edge⟩ := Option.ite_none_right_eq_some.mp edge
    obtain ⟨sched, inner, rfl⟩ := Option.map_eq_some_iff.mp edge
    exact .scheds free inner
  | extract now =>
    cases edge
    exact .extracts now
  | loop j now =>
    simp only [step] at edge
    split at edge
    · next there =>
      cases edge
      exact .loops now there
    · cases edge
  | schedule j =>
    simp only [step] at edge
    split at edge
    · next there =>
      obtain ⟨sched, inner, rfl⟩ := Option.map_eq_some_iff.mp edge
      exact .schedules there inner
    · cases edge
  | arms call caller now =>
    obtain ⟨may, edge⟩ := Option.ite_none_right_eq_some.mp edge
    cases edge
    exact .armed now may
  | assigns k =>
    obtain ⟨fr, kept, rfl⟩ := Option.map_eq_some_iff.mp edge
    exact .assigned (Option.filter_eq_some_iff.mp kept).1
  | returns k =>
    obtain ⟨fr, kept, rfl⟩ := Option.map_eq_some_iff.mp edge
    obtain ⟨here, may⟩ := Option.filter_eq_some_iff.mp kept
    refine .returned here ?_
    cases flag : fr.flag
    · rfl
    · rw [flag, Bool.not_true, Bool.and_false, Bool.false_and] at may
      cases may
  | clears i =>
    obtain ⟨⟨k, fr⟩, kept, rfl⟩ := Option.map_eq_some_iff.mp edge
    obtain ⟨found, before⟩ := Option.filter_eq_some_iff.mp kept
    obtain ⟨runs, here⟩ := frameOf_eq_some.mp found
    exact .cleared runs here (of_decide_eq_true before)
  | cancels i it =>
    obtain ⟨⟨k, fr⟩, kept, rfl⟩ := Option.map_eq_some_iff.mp edge
    obtain ⟨found, behind⟩ := Option.filter_eq_some_iff.mp kept
    obtain ⟨runs, here⟩ := frameOf_eq_some.mp found
    exact .cancelled it runs here (of_decide_eq_true behind)

/-! ## Where the callback of a call is -/

/-- The timers of the calls with their deadlines, in the order of the calls. -/
def alarms (s : Sleeping F) : List (ℕ × UInt64) := s.frames.map SleepFrame.alarm

/-- The timers that were taken out and that no loop has come to. -/
def temps (s : Sleeping F) : List ℕ := s.passes.flatMap SleepPass.temp

/-- The calls whose callbacks are in a vector `obs`, on the way to the scheduler, or accepted. -/
def heard (s : Sleeping F) : List ℕ :=
  s.passes.flatMap SleepPass.calls ++ onWay Wake.call s.sched.base

/-- Other threads make timers and callbacks of their own, and put no timer of a call into the
set: a `refresh` or `reset` finds none by an equal deadline. -/
def Apart (s : Sleeping F) : SleepingStep F → Prop
  | .edit (.create v) => v.mCb.bind Wake.call = none
  | .edit (.assign u f) => u ∉ s.alarms.map Prod.fst ∧ ∀ v, (f v).mCb = v.mCb ∨ (f v).mCb = none
  | .edit (.insert u) => u < s.mgr.created ∧ u ∉ s.alarms.map Prod.fst
  | _ => True

/-- What is known of the timers of the calls, which are those with a callback for a call. -/
structure Slept (s : Sleeping F) : Prop where
  known : ∀ u, u ∈ s.mgr.mTimers ∨ u ∈ s.temps ∨ u ∈ s.alarms.map Prod.fst → u < s.mgr.created
  mine : ∀ u k, (s.mgr.timers u).mCb.bind Wake.call = some k → ∃ d, s.alarms[k]? = some (u, d)
  armed : ∀ u d, (u, d) ∈ s.alarms →
    (s.mgr.timers u).mRecurring = false ∧ (s.mgr.timers u).mNext = d
  beyond : ∀ k ∈ s.heard, k < s.alarms.length
  due : ∀ k u d, s.alarms[k]? = some (u, d) → 0 < s.temps.count u + s.heard.count k →
    ∃ now, (u, now) ∈ s.taken ∧ d ≤ now

theorem slept_init : Slept (init : Sleeping F) where
  known := fun u inside => by rcases inside with old | old | old <;> cases old
  mine := fun u k has => by cases has
  armed := fun u d member => by cases member
  beyond := fun k member => by cases member
  due := fun k u d here => by cases here

/-- A step that touches neither manager nor passes, and brings no callback of a call. -/
theorem Slept.congr (inv : Slept s) (mgr : t.mgr = s.mgr) (temps : t.temps.Perm s.temps)
    (heard : t.heard.Perm s.heard) (alarms : t.alarms = s.alarms) (taken : t.taken = s.taken) :
    Slept t where
  known := by
    intro u place
    rw [mgr]
    rw [mgr, temps.mem_iff, alarms] at place
    exact inv.known u place
  mine := by
    rw [mgr, alarms]
    exact inv.mine
  armed := by
    rw [mgr, alarms]
    exact inv.armed
  beyond := by
    intro k member
    rw [alarms]
    exact inv.beyond k (heard.mem_iff.mp member)
  due := by
    intro k u d here collected
    rw [temps.count_eq, heard.count_eq] at collected
    rw [taken]
    exact inv.due k u d (alarms ▸ here) collected

/-- An edit that leaves the timers of the calls as they are, and puts none of them in. -/
theorem Slept.edited (inv : Slept s) {m : TimerManager (Wake F)}
    (created : s.mgr.created ≤ m.created)
    (known : ∀ u ∈ m.mTimers, u ∈ s.mgr.mTimers ∨ u < m.created)
    (mine : ∀ u k, (m.timers u).mCb.bind Wake.call = some k →
      (s.mgr.timers u).mCb.bind Wake.call = some k)
    (same : ∀ u ∈ s.alarms.map Prod.fst, (m.timers u).mRecurring = (s.mgr.timers u).mRecurring ∧
      (m.timers u).mNext = (s.mgr.timers u).mNext) : Slept { s with mgr := m } where
  known := by
    intro u place
    rcases place with inside | out
    · rcases known u inside with old | new
      · exact Nat.lt_of_lt_of_le (inv.known u (.inl old)) created
      · exact new
    · exact Nat.lt_of_lt_of_le (inv.known u (.inr out)) created
  mine := fun u k has => inv.mine u k (mine u k has)
  armed := by
    intro u d member
    obtain ⟨recurring, next⟩ := same u (List.mem_map_of_mem member)
    obtain ⟨once, deadline⟩ := inv.armed u d member
    exact ⟨recurring.trans once, next.trans deadline⟩
  beyond := inv.beyond
  due := inv.due

theorem Slept.edit (inv : Slept s) {e : Edit (Wake F)} (apart : Apart s (.edit e)) :
    Slept { s with mgr := s.mgr.edit e } := by
  cases e with
  | create v =>
    refine inv.edited (Nat.le_succ _) (fun u member => .inl member) (fun u k has => ?_)
      fun u member => ?_
    · by_cases new : u = s.mgr.created
      · rw [new, TimerManager.timers_create_self, apart] at has
        cases has
      · rwa [TimerManager.timers_create_ne new] at has
    · have old := inv.known u (.inr (.inr member))
      rw [TimerManager.timers_create_ne (by omega)]
      exact ⟨rfl, rfl⟩
  | erase v =>
    exact inv.edited (Nat.le_refl _) (fun u member => .inl (List.mem_of_mem_erase member))
      (fun u k has => has) fun u member => ⟨rfl, rfl⟩
  | assign v f =>
    obtain ⟨foreign, callback⟩ := apart
    refine inv.edited (Nat.le_refl _) (fun u member => .inl member) (fun u k has => ?_)
      fun u member => ?_
    · by_cases same : u = v
      · subst same
        rw [TimerManager.timers_assign_self] at has
        rcases callback (s.mgr.timers u) with kept | emptied
        · rwa [kept] at has
        · rw [emptied] at has
          cases has
      · rwa [TimerManager.timers_assign_ne same] at has
    · have other : u ≠ v := fun same => foreign (same ▸ member)
      rw [TimerManager.timers_assign_ne other]
      exact ⟨rfl, rfl⟩
  | insert v =>
    refine inv.edited (Nat.le_refl _) (fun u member => ?_) (fun u k has => has)
      fun u member => ⟨rfl, rfl⟩
    rcases KeyedSet.mem_of_mem_insert member with rfl | old
    · exact .inr apart.1
    · exact .inl old

theorem Slept.erased (inv : Slept s) (it : Option ℕ) :
    Slept { s with mgr := s.mgr.edits (it.toList.map Edit.erase) } := by
  cases it with
  | none => exact inv
  | some v =>
    have erase : Apart s (.edit (.erase v)) := trivial
    exact inv.edit erase

/-- The cut of `GetExpiredCb`: the timers taken out are due. -/
theorem Slept.extracted (inv : Slept s) (now : UInt64) : Slept { s with
    mgr := s.mgr.edits ((s.mgr.expired now).map Edit.erase)
    passes := ⟨s.mgr.expired now, []⟩ :: s.passes
    taken := (s.mgr.expired now).map (fun t => (t, now)) ++ s.taken } := by
  have split := TimerManager.mTimers_expired s.mgr now
  have rest : s.mgr.edits ((s.mgr.expired now).map Edit.erase) =
      { s.mgr with mTimers := (s.mgr.edits ((s.mgr.expired now).map Edit.erase)).mTimers } := by
    have prefixes : s.mgr.mTimers = s.mgr.expired now ++ s.mgr.mTimers.drop (s.mgr.cut now) :=
      (List.take_append_drop (s.mgr.cut now) s.mgr.mTimers).symm
    have gone := TimerManager.edits_erase_prefix s.mgr _ _ prefixes
    rw [gone]
  generalize s.mgr.edits ((s.mgr.expired now).map Edit.erase) = m at split rest
  generalize m.mTimers = left at split rest
  subst rest
  constructor
  case known =>
    intro u inside
    refine inv.known u ?_
    rcases inside with old | out | out
    · exact .inl (split ▸ List.mem_append_right _ old)
    · rcases List.mem_append.mp out with new | old
      · exact .inl (split ▸ List.mem_append_left _ new)
      · exact .inr (.inl old)
    · exact .inr (.inr out)
  case mine => exact inv.mine
  case armed => exact inv.armed
  case beyond => exact inv.beyond
  case due =>
    intro k u d here collected
    by_cases new : u ∈ s.mgr.expired now
    · refine ⟨now, List.mem_append_left _ (List.mem_map_of_mem new), ?_⟩
      rw [← (inv.armed u d (List.mem_of_getElem? here)).2]
      exact TimerManager.le_of_expired new
    · have old : 0 < s.temps.count u + s.heard.count k := by
        have here : 0 < (s.mgr.expired now ++ s.temps).count u + s.heard.count k := collected
        rwa [List.count_append, List.count_eq_zero.mpr new, Nat.zero_add] at here
      obtain ⟨reading, member, late⟩ := inv.due k u d here old
      exact ⟨reading, List.mem_append_right _ member, late⟩

section Turn

variable {j item : ℕ} {temp : List ℕ} {obs : List (Option (Wake F))}

/-- The state in which a timer has left the hands of a pass and its callback is in the vector. -/
def handed (s : Sleeping F) (j item : ℕ) (temp : List ℕ) (obs : List (Option (Wake F))) :
    Sleeping F :=
  { s with passes := s.passes.set j ⟨temp, obs ++ [(s.mgr.timers item).mCb]⟩ }

theorem temps_handed (there : s.passes[j]? = some ⟨item :: temp, obs⟩) :
    s.temps.Perm (item :: (s.handed j item temp obs).temps) := by
  obtain ⟨rest, before, after, -⟩ := Places.flatMap_set there SleepPass.temp
  exact before.trans ((after ⟨temp, obs ++ [(s.mgr.timers item).mCb]⟩).symm.cons item)

theorem heard_handed (there : s.passes[j]? = some ⟨item :: temp, obs⟩) :
    (s.handed j item temp obs).heard.Perm
      (((s.mgr.timers item).mCb.bind Wake.call).toList ++ s.heard) := by
  obtain ⟨rest, before, after, -⟩ := Places.flatMap_set there SleepPass.calls
  have grown : SleepPass.calls (F := F) ⟨temp, obs ++ [(s.mgr.timers item).mCb]⟩ =
      SleepPass.calls ⟨item :: temp, obs⟩ ++ ((s.mgr.timers item).mCb.bind Wake.call).toList := by
    unfold SleepPass.calls
    dsimp only
    rw [List.reduceOption_append, List.filterMap_append]
    cases (s.mgr.timers item).mCb with
    | none => rfl
    | some cb => exact congrArg _ (Places.filterMap_singleton Wake.call cb)
  have vectors : ((s.handed j item temp obs).passes.flatMap SleepPass.calls).Perm
      (((s.mgr.timers item).mCb.bind Wake.call).toList ++ s.passes.flatMap SleepPass.calls) := by
    refine (after _).trans (List.Perm.trans ?_ (before.symm.append_left _))
    rw [grown, ← List.append_assoc]
    exact List.perm_append_comm.append_right rest
  exact (vectors.append_right _).trans (List.Perm.of_eq (List.append_assoc ..))

/-- The callback of a call comes from its own timer, so that nothing is gained. -/
theorem Slept.count_handed (inv : Slept s) (there : s.passes[j]? = some ⟨item :: temp, obs⟩)
    {u : ℕ} {d : UInt64} (here : s.alarms[k]? = some (u, d)) :
    (s.handed j item temp obs).temps.count u + (s.handed j item temp obs).heard.count k ≤
      s.temps.count u + s.heard.count k := by
  have out := (temps_handed there).count_eq u
  rw [List.count_cons] at out
  rw [(heard_handed there).count_eq, List.count_append]
  by_cases same : item = u
  · rw [if_pos (beq_iff_eq.mpr same)] at out
    have one : ((s.mgr.timers item).mCb.bind Wake.call).toList.count k ≤ 1 := by
      refine List.count_le_length.trans ?_
      cases (s.mgr.timers item).mCb.bind Wake.call with
      | none => exact Nat.zero_le 1
      | some k => exact Nat.le_refl 1
    omega
  · have foreign : ((s.mgr.timers item).mCb.bind Wake.call).toList.count k = 0 :=
      List.count_eq_zero.mpr fun member => by
        obtain ⟨d', here'⟩ := inv.mine item k (Option.mem_toList.mp member)
        rw [here] at here'
        cases here'
        exact same rfl
    omega

theorem Slept.handed (inv : Slept s) (there : s.passes[j]? = some ⟨item :: temp, obs⟩) :
    Slept (s.handed j item temp obs) where
  known := by
    intro u place
    refine inv.known u ?_
    rcases place with inside | out | call
    · exact .inl inside
    · exact .inr (.inl ((temps_handed there).mem_iff.mpr (List.mem_cons_of_mem _ out)))
    · exact .inr (.inr call)
  mine := inv.mine
  armed := inv.armed
  beyond := by
    intro k member
    rcases List.mem_append.mp ((heard_handed there).mem_iff.mp member) with now | old
    · obtain ⟨d, here⟩ := inv.mine item k (Option.mem_toList.mp now)
      exact (List.getElem?_eq_some_iff.mp here).1
    · exact inv.beyond k old
  due := fun k u d here collected =>
    inv.due k u d here (Nat.lt_of_lt_of_le collected (inv.count_handed there here))

theorem Slept.known_item (inv : Slept s) (there : s.passes[j]? = some ⟨item :: temp, obs⟩) :
    item < s.mgr.created :=
  inv.known item (.inr (.inl ((temps_handed there).mem_iff.mpr List.mem_cons_self)))

theorem Slept.foreign_of_recurring (inv : Slept s)
    (recurring : (s.mgr.timers item).mRecurring = true) : item ∉ s.alarms.map Prod.fst := by
  intro member
  obtain ⟨⟨u, d⟩, call, same⟩ := List.mem_map.mp member
  cases same
  rw [(inv.armed u d call).1] at recurring
  cases recurring

/-- The edits of a turn: a recurring timer is put back, another gives up its callback. -/
theorem edits_turn (m : TimerManager (Wake F)) (item : ℕ) (now : UInt64) :
    m.edits (m.rearm (fun _ => now) 0 [item]) = if (m.timers item).mRecurring then
      (m.edit (.assign item fun v => { v with mNext := now + v.mGap })).edit (.insert item)
    else m.edit (.assign item fun v => { v with mCb := none }) := by
  unfold TimerManager.rearm
  split <;> rfl

theorem Slept.turned (inv : Slept s) (now : UInt64)
    (there : s.passes[j]? = some ⟨item :: temp, obs⟩) : Slept { s.handed j item temp obs with
      mgr := s.mgr.edits (s.mgr.rearm (fun _ => now) 0 [item]) } := by
  have handed := inv.handed there
  rw [edits_turn]
  split
  · next recurring =>
    have foreign := inv.foreign_of_recurring recurring
    have assigned := handed.edit (e := .assign item fun v => { v with mNext := now + v.mGap })
      ⟨foreign, fun v => .inl rfl⟩
    exact assigned.edit (e := .insert item) ⟨inv.known_item there, foreign⟩
  · refine handed.edited (Nat.le_refl _) (fun u member => .inl member) (fun u k has => ?_)
      fun u member => ?_
    · by_cases same : u = item
      · rw [same, TimerManager.timers_assign_self] at has
        cases has
      · rwa [TimerManager.timers_assign_ne same] at has
    · by_cases same : u = item
      · subst same
        rw [TimerManager.timers_assign_self]
        exact ⟨rfl, rfl⟩
      · rw [TimerManager.timers_assign_ne same]
        exact ⟨rfl, rfl⟩

end Turn

/-- The `schedule` of a pass: what was in the vector is on its way. -/
theorem heard_schedule {j : ℕ} {obs : List (Option (Wake F))} {sched : Callers (Wake F)}
    (there : s.passes[j]? = some ⟨[], obs⟩)
    (edge : (if obs.isEmpty then some s.sched else s.sched.step (.batch obs)) = some sched) :
    ((s.passes.eraseIdx j).flatMap SleepPass.temp).Perm s.temps ∧
      ((s.passes.eraseIdx j).flatMap SleepPass.calls ++ onWay Wake.call sched.base).Perm
        s.heard := by
  obtain ⟨rest, before, -, after⟩ := Places.flatMap_set there SleepPass.calls
  constructor
  · obtain ⟨rest, before, -, after⟩ := Places.flatMap_set there SleepPass.temp
    rw [after]
    exact before.symm
  · rw [after]
    unfold heard
    have batch : (onWay Wake.call sched.base).Perm
        (obs.reduceOption.filterMap Wake.call ++ onWay Wake.call s.sched.base) := by
      split at edge
      · next empty =>
        cases edge
        rw [List.isEmpty_iff.mp empty]
        exact List.Perm.refl _
      · exact Callers.onWay_batch Wake.call edge
    refine (batch.append_left rest).trans (List.Perm.trans ?_ (before.symm.append_right _))
    rw [← List.append_assoc]
    exact List.perm_append_comm.append_right _

/-- A new call: its timer goes into the set, unless an equal deadline keeps it out. -/
theorem Slept.arms (inv : Slept s) (call : SleepCall) (caller : Option ℕ) (now : UInt64) :
    Slept { s with
      mgr := (s.mgr.edit (.create ⟨call.timeoutMs, now + call.timeoutMs, false,
        some (.sleeper s.frames.length), true⟩)).edit (.insert s.mgr.created)
      frames := s.frames ++
        [⟨call, caller, s.mgr.created, now + call.timeoutMs, false, true, .before, false⟩] } := by
  set v : Sleeping F := { s with
    mgr := (s.mgr.edit (.create ⟨call.timeoutMs, now + call.timeoutMs, false,
      some (.sleeper s.frames.length), true⟩)).edit (.insert s.mgr.created)
    frames := s.frames ++
      [⟨call, caller, s.mgr.created, now + call.timeoutMs, false, true, .before, false⟩] }
  set timer : Timer (Wake F) :=
    ⟨call.timeoutMs, now + call.timeoutMs, false, some (.sleeper s.frames.length), true⟩
  set m := (s.mgr.edit (.create timer)).edit (.insert s.mgr.created)
  have calls : s.frames.length = s.alarms.length := (List.length_map ..).symm
  have grown : v.alarms = s.alarms ++ [(s.mgr.created, now + call.timeoutMs)] := List.map_append
  have fresh : m.timers s.mgr.created = timer :=
    TimerManager.timers_create_self s.mgr timer
  have other {u : ℕ} (old : u < s.mgr.created) : m.timers u = s.mgr.timers u :=
    TimerManager.timers_create_ne (Nat.ne_of_lt old)
  have inside (u : ℕ) : m.mTimers.count u ≤ (s.mgr.created :: s.mgr.mTimers).count u :=
    TimerManager.count_insert_le (s.mgr.edit (.create timer)) s.mgr.created u
  -- a call is an old one, or the new one
  have cases {k u : ℕ} {d : UInt64}
      (here : (s.alarms ++ [(s.mgr.created, now + call.timeoutMs)])[k]? = some (u, d)) :
      s.alarms[k]? = some (u, d) ∨
        k = s.alarms.length ∧ u = s.mgr.created ∧ d = now + call.timeoutMs := by
    rw [List.getElem?_append] at here
    split at here
    · exact .inl here
    · next outside =>
      cases place : k - s.alarms.length with
      | zero =>
        rw [place] at here
        cases here
        exact .inr ⟨by omega, rfl, rfl⟩
      | succ n =>
        rw [place] at here
        cases here
  have unheard : s.heard.count s.alarms.length = 0 :=
    List.count_eq_zero.mpr fun member => Nat.lt_irrefl _ (inv.beyond _ member)
  have unheld : s.temps.count s.mgr.created = 0 :=
    List.count_eq_zero.mpr fun member => Nat.lt_irrefl _ (inv.known _ (.inr (.inl member)))
  have unset : s.mgr.mTimers.count s.mgr.created = 0 :=
    List.count_eq_zero.mpr fun member => Nat.lt_irrefl _ (inv.known _ (.inl member))
  constructor
  case known =>
    intro u place
    show u < s.mgr.created + 1
    rcases place with member | out | called
    · rcases KeyedSet.mem_of_mem_insert member with rfl | old
      · exact Nat.lt_succ_self _
      · exact Nat.lt_succ_of_lt (inv.known u (.inl old))
    · exact Nat.lt_succ_of_lt (inv.known u (.inr (.inl out)))
    · obtain ⟨⟨w, d⟩, among, rfl⟩ := List.mem_map.mp called
      rw [grown] at among
      rcases List.mem_append.mp among with old | new
      · exact Nat.lt_succ_of_lt (inv.known w (.inr (.inr (List.mem_map_of_mem old))))
      · cases List.mem_singleton.mp new
        exact Nat.lt_succ_self _
  case mine =>
    intro u k has
    rw [grown]
    by_cases new : u = s.mgr.created
    · subst new
      rw [fresh] at has
      cases has
      rw [calls]
      exact ⟨_, List.getElem?_concat_length⟩
    · rw [TimerManager.timers_insert, TimerManager.timers_create_ne new] at has
      obtain ⟨d, here⟩ := inv.mine u k has
      refine ⟨d, ?_⟩
      rwa [List.getElem?_append_left (List.getElem?_eq_some_iff.mp here).1]
  case armed =>
    intro u d member
    rw [grown] at member
    show (m.timers u).mRecurring = false ∧ (m.timers u).mNext = d
    rcases List.mem_append.mp member with old | new
    · rw [other (inv.known u (.inr (.inr (List.mem_map_of_mem old))))]
      exact inv.armed u d old
    · cases List.mem_singleton.mp new
      rw [fresh]
      exact ⟨rfl, rfl⟩
  case beyond =>
    intro k member
    have before := inv.beyond k member
    rw [grown, List.length_append]
    exact Nat.lt_add_right 1 before
  case due =>
    intro k u d here collected
    rw [grown] at here
    rcases cases here with old | ⟨rfl, rfl, rfl⟩
    · exact inv.due k u d old collected
    · have collected : 0 < s.temps.count s.mgr.created + s.heard.count s.alarms.length := collected
      omega

theorem alarms_setFrame (here : s.frames[k]? = some fr) {fr' : SleepFrame}
    (same : fr'.alarm = fr.alarm) : (s.setFrame k fr').alarms = s.alarms := by
  obtain ⟨inside, rfl⟩ := List.getElem?_eq_some_iff.mp here
  unfold alarms setFrame
  dsimp only
  rw [List.map_set, same, ← List.map_set, List.set_getElem_self]

theorem Slept.next (inv : Slept s) (apart : Apart s a) (edge : s.step a = some t) : Slept t := by
  cases step_cases edge with
  | edits e => exact inv.edit apart
  | scheds free inner =>
    refine inv.congr rfl (.refl _) ?_ rfl rfl
    exact (Callers.onWay_step (Callers.without_map (fun cb => rfl) _) inner).append_left _
  | extracts now => exact inv.extracted now
  | loops now there => exact inv.turned now there
  | schedules there inner =>
    obtain ⟨hands, vectors⟩ := heard_schedule there inner
    exact inv.congr rfl hands vectors rfl rfl
  | @armed call caller now may => exact inv.arms call caller now
  | assigned here =>
    exact inv.congr rfl (.refl _) (.refl _) (alarms_setFrame here rfl) rfl
  | returned here awake =>
    exact inv.congr rfl (.refl _) (.refl _) (alarms_setFrame here rfl) rfl
  | cleared runs here before =>
    exact inv.congr rfl (.refl _) (.refl _) (alarms_setFrame here rfl) rfl
  | cancelled it runs here behind =>
    have erased := inv.erased it
    exact erased.congr rfl (.refl _) (.refl _) (alarms_setFrame here rfl) rfl

/-! ## Traces of a call -/

/-- How often the timer of a call stands in the set or is in hand, or its callback anywhere. -/
def traces (s : Sleeping F) (k u : ℕ) : ℕ :=
  s.mgr.mTimers.count u + s.temps.count u + s.heard.count k

/-- A step leaves the alarms, or adds one for a call that leaves one trace at most. -/
theorem alarms_step (inv : Slept s) (edge : s.step a = some t) :
    t.alarms = s.alarms ∨ ∃ d, t.alarms = s.alarms ++ [(s.mgr.created, d)] ∧
      t.traces s.alarms.length s.mgr.created ≤ 1 := by
  cases step_cases edge with
  | edits | scheds | extracts | loops | schedules => exact .inl rfl
  | @armed call caller now may =>
    refine .inr ⟨_, List.map_append, ?_⟩
    have inside := TimerManager.count_insert_le (s.mgr.edit (.create ⟨call.timeoutMs,
      now + call.timeoutMs, false, some (.sleeper s.frames.length), true⟩)) s.mgr.created
        s.mgr.created
    have unset : s.mgr.mTimers.count s.mgr.created = 0 :=
      List.count_eq_zero.mpr fun member => Nat.lt_irrefl _ (inv.known _ (.inl member))
    have unheld : s.temps.count s.mgr.created = 0 :=
      List.count_eq_zero.mpr fun member => Nat.lt_irrefl _ (inv.known _ (.inr (.inl member)))
    have unheard : s.heard.count s.alarms.length = 0 :=
      List.count_eq_zero.mpr fun member => Nat.lt_irrefl _ (inv.beyond _ member)
    rw [TimerManager.mTimers_create, List.count_cons_self, unset] at inside
    show _ + s.temps.count s.mgr.created + s.heard.count s.alarms.length ≤ 1
    rw [unheld, unheard]
    exact inside
  | assigned here | returned here | cleared _ here | cancelled _ _ here =>
    exact .inl (alarms_setFrame here rfl)

/-- No step adds to the traces of a call that was made. -/
theorem traces_step (inv : Slept s) (apart : Apart s a) (edge : s.step a = some t) {u : ℕ}
    {d : UInt64} (here : s.alarms[k]? = some (u, d)) : t.traces k u ≤ s.traces k u := by
  have called : u ∈ s.alarms.map Prod.fst := List.mem_map_of_mem (List.mem_of_getElem? here)
  have inserted {m : TimerManager (Wake F)} {v : ℕ} (other : v ≠ u) :
      (m.edit (.insert v)).mTimers.count u ≤ m.mTimers.count u := by
    have grown := TimerManager.count_insert_le m v u
    rwa [List.count_cons_of_ne other] at grown
  unfold traces
  cases step_cases edge with
  | edits e =>
    refine Nat.add_le_add_right (Nat.add_le_add_right ?_ _) _
    cases e with
    | create v | assign v f => exact Nat.le_refl _
    | erase v => exact TimerManager.count_edit_le (fun w same => by cases same) s.mgr u
    | insert v => exact inserted fun same => apart.2 (same ▸ called)
  | scheds free inner =>
    have kept : (onWay Wake.call _).Perm (onWay Wake.call s.sched.base) :=
      Callers.onWay_step (Callers.without_map (fun cb => rfl) _) inner
    exact Nat.add_le_add_left ((kept.append_left _).count_eq k).le _
  | extracts now =>
    have parts := congrArg (List.count u) (TimerManager.mTimers_expired s.mgr now)
    rw [List.count_append] at parts
    show _ + (s.mgr.expired now ++ s.temps).count u + s.heard.count k ≤ _
    rw [List.count_append]
    dsimp only
    omega
  | @loops j item temp obs now there =>
    have kept := inv.count_handed there here
    have fewer : (s.mgr.edits (s.mgr.rearm (fun _ => now) 0 [item])).mTimers.count u ≤
        s.mgr.mTimers.count u := by
      rw [edits_turn]
      split
      · next recurring =>
        exact inserted fun same => inv.foreign_of_recurring recurring (same ▸ called)
      · exact Nat.le_refl _
    show _ + (s.handed j item temp obs).temps.count u + (s.handed j item temp obs).heard.count k ≤ _
    dsimp only
    omega
  | schedules there inner =>
    obtain ⟨hands, vectors⟩ := heard_schedule there inner
    exact Nat.add_le_add (Nat.add_le_add_left (hands.count_eq u).le _) (vectors.count_eq k).le
  | armed =>
    have known := inv.known u (.inr (.inr called))
    exact Nat.add_le_add_right (Nat.add_le_add_right (inserted (Nat.ne_of_gt known)) _) _
  | assigned | returned | cleared => exact Nat.le_refl _
  | cancelled it =>
    refine Nat.add_le_add_right (Nat.add_le_add_right ?_ _) _
    cases it with
    | none => exact Nat.le_refl _
    | some v =>
      exact TimerManager.count_edit_le (e := .erase v) (fun w same => by cases same) s.mgr u

/-- The timer of each call is in one place, or its callback. -/
def Once (s : Sleeping F) : Prop := ∀ k u d, s.alarms[k]? = some (u, d) → s.traces k u ≤ 1

theorem Once.next (once : Once s) (inv : Slept s) (apart : Apart s a) (edge : s.step a = some t) :
    Once t := by
  intro k u d here
  rcases alarms_step inv edge with same | ⟨d', more, one⟩
  · rw [same] at here
    exact (traces_step inv apart edge here).trans (once k u d here)
  · rw [more, List.getElem?_append] at here
    split at here
    · exact (traces_step inv apart edge here).trans (once k u d here)
    · next outside =>
      cases place : k - s.alarms.length with
      | zero =>
        rw [place] at here
        cases here
        have last : k = s.alarms.length := by omega
        rw [last]
        exact one
      | succ n =>
        rw [place] at here
        cases here

/-- The states of the runs in which other threads keep to their own timers. -/
theorem slept_of_along {as : List (SleepingStep F)} (run : Runs.exec step init as = some s)
    (apart : Runs.Along step Apart init as) : Slept s ∧ Once s := by
  have keep {u v : Sleeping F} {a : SleepingStep F} (inv : Slept u ∧ Once u) (apart : Apart u a)
      (edge : u.step a = some v) : Slept v ∧ Once v :=
    ⟨inv.1.next apart edge, inv.2.next inv.1 apart edge⟩
  exact (Runs.always_of_along keep ⟨slept_init, fun k u d here => by cases here⟩ apart).last run

theorem alarm_of_frame (here : s.frames[k]? = some fr) :
    s.alarms[k]? = some (fr.timer, fr.deadline) := by
  unfold alarms
  rw [List.getElem?_map, here]
  rfl

/-! ## The frames -/

/-- How often the callback of a call stands in a list. -/
def wakes (k : ℕ) (tasks : List (Ticket (Wake F))) : ℕ := (labels Wake.call tasks).count k

/-- `flag` is set until the callback clears it, which was begun before that, and the call
returns behind it. -/
structure Framed (s : Sleeping F) : Prop where
  wake : ∀ (k : ℕ) (fr : SleepFrame), s.frames[k]? = some fr → (fr.flag = true ↔ fr.wake = .before)
  returned : ∀ (k : ℕ) (fr : SleepFrame), s.frames[k]? = some fr → fr.returned = true →
    fr.flag = false
  begun : ∀ (k : ℕ) (fr : SleepFrame), s.frames[k]? = some fr → fr.flag = false →
    0 < wakes k (s.sched.base.begun.map Prod.fst)
  sched : ∃ n, Workers.Surplus n s.sched.base

theorem framed_init : Framed (init : Sleeping F) where
  wake := fun k fr here => by cases here
  returned := fun k fr here => by cases here
  begun := fun k fr here => by cases here
  sched := ⟨0, by
    unfold Workers.Surplus
    rw [Workers.without_zero]
    exact Workers.conserved_init⟩

theorem getElem?_setFrame {fr' x : SleepFrame} {j : ℕ}
    (here : (s.setFrame k fr').frames[j]? = some x) :
    j = k ∧ x = fr' ∨ s.frames[j]? = some x := by
  by_cases same : k = j
  · subst same
    obtain ⟨inside, rfl⟩ := List.getElem?_eq_some_iff.mp here
    exact .inl ⟨rfl, List.getElem_set_self _⟩
  · exact .inr ((List.getElem?_set_ne same).symm.trans here)

/-- The frames stay, and what was begun stays begun. -/
theorem Framed.congr (inv : Framed s) (frames : t.frames = s.frames)
    (begun : s.sched.base.begun <:+ t.sched.base.begun)
    (sched : ∃ n, Workers.Surplus n t.sched.base) : Framed t where
  wake := by
    rw [frames]
    exact inv.wake
  returned := by
    rw [frames]
    exact inv.returned
  begun := by
    intro k fr here awake
    have before := inv.begun k fr (frames ▸ here) awake
    have more := ((begun.sublist.map Prod.fst).filterMap fun task => task.cb.call).count_le k
    exact Nat.lt_of_lt_of_le before more
  sched := sched

/-- One frame is written. -/
theorem Framed.set (inv : Framed s) {fr' : SleepFrame}
    (wake : fr'.flag = true ↔ fr'.wake = .before)
    (returned : fr'.returned = true → fr'.flag = false)
    (begun : fr'.flag = false → 0 < wakes k (s.sched.base.begun.map Prod.fst)) :
    Framed (s.setFrame k fr') where
  wake := by
    intro j x here
    rcases getElem?_setFrame here with ⟨rfl, rfl⟩ | old
    · exact wake
    · exact inv.wake j x old
  returned := by
    intro j x here
    rcases getElem?_setFrame here with ⟨rfl, rfl⟩ | old
    · exact returned
    · exact inv.returned j x old
  begun := by
    intro j x here
    rcases getElem?_setFrame here with ⟨rfl, rfl⟩ | old
    · exact begun
    · exact inv.begun j x old
  sched := inv.sched

/-- A frame of a new call. -/
theorem Framed.arms (inv : Framed s) {m : TimerManager (Wake F)} (new : SleepFrame)
    (flag : new.flag = true) (fresh : new.wake = .before ∧ new.returned = false) :
    Framed { s with mgr := m, frames := s.frames ++ [new] } := by
  have cases {k : ℕ} {fr : SleepFrame} (here : (s.frames ++ [new])[k]? = some fr) :
      s.frames[k]? = some fr ∨ fr = new := by
    rw [List.getElem?_append] at here
    split at here
    · exact .inl here
    · exact .inr (List.mem_singleton.mp (List.mem_of_getElem? here))
  constructor
  case wake =>
    intro k fr here
    rcases cases here with old | rfl
    · exact inv.wake k fr old
    · exact iff_of_true flag fresh.1
  case returned =>
    intro k fr here gone
    rcases cases here with old | rfl
    · exact inv.returned k fr old gone
    · rw [fresh.2] at gone
      cases gone
  case begun =>
    intro k fr here awake
    rcases cases here with old | rfl
    · exact inv.begun k fr old awake
    · rw [flag] at awake
      cases awake
  case sched => exact inv.sched

/-- The callbacks of a call: accepted ones wait, run or have finished. -/
theorem Framed.count (inv : Framed s) (k : ℕ) :
    (s.sched.base.accepted.filterMap fun p => p.1.call).count k =
        wakes k s.sched.base.waiting + wakes k s.sched.base.running +
          wakes k s.sched.base.finished ∧
      wakes k (s.sched.base.begun.map Prod.fst) =
        wakes k s.sched.base.running + wakes k s.sched.base.finished := by
  obtain ⟨n, surplus⟩ := inv.sched
  obtain ⟨places, begun⟩ := Workers.Conserved.labels surplus Wake.call
  have counted := places.count_eq k
  have started := begun.count_eq k
  rw [List.count_append, List.count_append] at counted
  rw [List.count_append] at started
  exact ⟨counted.symm, started⟩

theorem Framed.runs (inv : Framed s) (runs : taskOf s.sched.base i = some (.sleeper k)) :
    0 < wakes k (s.sched.base.begun.map Prod.fst) := by
  obtain ⟨task, running, same⟩ := Workers.mem_running_of_taskOf runs
  have positive : 0 < wakes k s.sched.base.running := by
    refine List.count_pos_iff.mpr (List.mem_filterMap.mpr ⟨task, running, ?_⟩)
    rw [same]
    rfl
  rw [(inv.count k).2]
  exact Nat.add_pos_left positive _

theorem Framed.next (inv : Framed s) (edge : s.step a = some t) : Framed t := by
  obtain ⟨n, surplus⟩ := inv.sched
  cases step_cases edge with
  | edits | extracts | loops => exact inv.congr rfl (List.suffix_refl _) inv.sched
  | scheds free inner =>
    exact inv.congr rfl (Callers.begun_suffix inner) ⟨_, Callers.surplus_next surplus inner⟩
  | schedules there inner =>
    split at inner
    · cases inner
      exact inv.congr rfl (List.suffix_refl _) inv.sched
    · exact inv.congr rfl (Callers.begun_suffix inner) ⟨_, Callers.surplus_next surplus inner⟩
  | @armed call caller now may =>
    exact inv.arms _ rfl ⟨rfl, rfl⟩
  | @assigned k fr here =>
    exact inv.set (inv.wake k fr here) (inv.returned k fr here) (inv.begun k fr here)
  | @returned k fr here awake =>
    exact inv.set (inv.wake k fr here) (fun _ => awake) (inv.begun k fr here)
  | @cleared i k fr runs here before =>
    refine inv.set (Iff.intro (fun set => ?_) fun wake => ?_) (fun _ => rfl)
      fun _ => inv.runs runs
    · cases set
    · dsimp only at wake
      split at wake <;> cases wake
  | @cancelled i k fr it runs here behind =>
    have cleared : fr.flag = false := by
      cases flag : fr.flag
      · rfl
      · rw [(inv.wake k fr here).mp flag] at behind
        cases behind
    have written : Framed (s.setFrame k { fr with wake := .done }) :=
      inv.set (iff_of_false (by rw [cleared]; exact Bool.false_ne_true) WakePc.noConfusion)
        (inv.returned k fr here) (inv.begun k fr here)
    exact written.congr rfl (List.suffix_refl _) written.sched

/-- Over every interleaving of calls, passes, edits of the manager and steps of the scheduler
in which other threads keep to their own timers: the callback of a call is begun once at most,
while it waits in a slot `flag` is set, so that the frame is there; and where `flag` is cleared,
as in a call that returned, the callback was begun after a pass had taken the timer out at a
reading of the clock that is not before the deadline. -/
theorem slept_of_exec {as : List (SleepingStep F)} (run : Runs.exec step init as = some s)
    (apart : Runs.Along step Apart init as) (here : s.frames[k]? = some fr) :
    wakes k (s.sched.base.begun.map Prod.fst) ≤ 1 ∧
      (0 < wakes k s.sched.base.waiting → fr.flag = true) ∧
      (fr.returned = true → fr.flag = false) ∧
      (fr.flag = false → wakes k (s.sched.base.begun.map Prod.fst) = 1 ∧
        ∃ now, (fr.timer, now) ∈ s.taken ∧ fr.deadline ≤ now) := by
  have framed : Framed s := Runs.exec_inv (fun inv edge => Framed.next inv edge) framed_init run
  obtain ⟨slept, single⟩ := slept_of_along run apart
  have alarm := alarm_of_frame here
  have once := single k _ _ alarm
  have due := slept.due k _ _ alarm
  obtain ⟨accepted, begun⟩ := framed.count k
  unfold traces at once
  have heard : (s.sched.base.accepted.filterMap fun p => p.1.call).count k ≤ s.heard.count k := by
    unfold heard onWay
    rw [List.count_append, List.count_append]
    omega
  refine ⟨by omega, fun waits => ?_, framed.returned k fr here, fun awake => ?_⟩
  · cases flag : fr.flag
    · have started := framed.begun k fr here flag
      omega
    · rfl
  · have started := framed.begun k fr here awake
    exact ⟨by omega, due (by omega)⟩

/-- A callback on one worker sleeps for a second; another worker wakes it. -/
def oneSecond : List (SleepingStep ℕ) :=
  [.sched (.sched (.enter 7 (-1))), .sched (.sched (.store 0)), .sched (.sched (.spawn 5)),
    .sched (.sched (.dequeue 0)), .arms (.sleep 1) (some 0) 100, .assigns 0, .extract 1100,
    .loop 0 1100, .schedule 0, .sched (.sched (.spawn 6)), .sched (.sched (.dequeue 1)),
    .clears 1, .returns 0]

/-- The state that a run leads to. -/
def after (as : List (SleepingStep ℕ)) : Sleeping ℕ := (Runs.exec step init as).getD init

theorem slept_of_exec_one :
    ∃ fr, (after oneSecond).frames[0]? = some fr ∧ fr.returned = true ∧ fr.deadline = 1100 ∧
      ∃ now, (fr.timer, now) ∈ (after oneSecond).taken ∧ fr.deadline ≤ now := by
  have run : Runs.exec step init oneSecond = some (after oneSecond) := rfl
  have apart : Runs.Along step Apart init oneSecond := by
    repeat first | exact trivial | refine fun _ _ => ⟨trivial, ?_⟩
  have here : (after oneSecond).frames[0]? =
      some ⟨.sleep 1, some 0, 0, 1100, true, false, .done, true⟩ := rfl
  obtain ⟨-, -, cleared, late⟩ := slept_of_exec run apart here
  exact ⟨_, here, rfl, rfl, (late (cleared rfl)).2⟩

/-! ## A call without a trace -/

/-- A call without a trace stays in its loop. -/
theorem Framed.asleep (framed : Framed s) (here : s.frames[k]? = some fr) {u : ℕ}
    (lost : s.traces k u = 0) : fr.flag = true ∧ fr.returned = false := by
  have flag : fr.flag = true := by
    cases flag : fr.flag
    · have started := framed.begun k fr here flag
      obtain ⟨accepted, begun⟩ := framed.count k
      unfold traces heard onWay at lost
      rw [List.count_append, List.count_append] at lost
      omega
    · rfl
  refine ⟨flag, ?_⟩
  cases gone : fr.returned
  · rfl
  · rw [framed.returned k fr here gone] at flag
    cases flag

/-- Where the timer of a call is neither in the set nor in hand, and its callback nowhere, the
call does not return in any run from there. -/
theorem lost_of_run {bs : List (SleepingStep F)} (slept : Slept s) (framed : Framed s) {u : ℕ}
    {d : UInt64} (alarm : s.alarms[k]? = some (u, d)) (lost : s.traces k u = 0)
    (run : Runs.exec step s bs = some t) (apart : Runs.Along step Apart s bs) :
    ∃ fr, t.frames[k]? = some fr ∧ fr.flag = true ∧ fr.returned = false := by
  have keep {v w : Sleeping F} {a : SleepingStep F}
      (inv : Slept v ∧ Framed v ∧ v.alarms[k]? = some (u, d) ∧ v.traces k u = 0)
      (apart : Apart v a) (edge : v.step a = some w) :
      Slept w ∧ Framed w ∧ w.alarms[k]? = some (u, d) ∧ w.traces k u = 0 := by
    obtain ⟨slept, framed, alarm, lost⟩ := inv
    have less := traces_step slept apart edge alarm
    refine ⟨slept.next apart edge, framed.next edge, ?_, Nat.le_zero.mp (lost ▸ less)⟩
    rcases alarms_step slept edge with same | ⟨d', more, -⟩
    · rw [same]
      exact alarm
    · rw [more, List.getElem?_append_left (List.getElem?_eq_some_iff.mp alarm).1]
      exact alarm
  obtain ⟨-, framed', alarm', lost'⟩ :=
    (Runs.always_of_along keep ⟨slept, framed, alarm, lost⟩ apart).last run
  obtain ⟨fr, here, -⟩ := Option.map_eq_some_iff.mp ((List.getElem?_map ..).symm.trans alarm')
  exact ⟨fr, here, framed'.asleep here lost'⟩

/-- A call that computes the deadline of a pending timer: `insert` refuses its timer, and the
call does not return in any run from there, whatever passes are made. -/
theorem lost_of_clash {as bs : List (SleepingStep F)} {call : SleepCall} {caller : Option ℕ}
    {now : UInt64} {v : Sleeping F} (run : Runs.exec step init as = some s)
    (apart : Runs.Along step Apart init as) (good : TimerManager.Good s.mgr)
    (clash : ∃ u ∈ s.mgr.mTimers, (s.mgr.timers u).mNext = now + call.timeoutMs)
    (edge : s.step (.arms call caller now) = some t) (more : Runs.exec step t bs = some v)
    (apart' : Runs.Along step Apart t bs) :
    ∃ fr, v.frames[s.frames.length]? = some fr ∧ fr.flag = true ∧ fr.returned = false := by
  obtain ⟨slept, -⟩ := slept_of_along run apart
  have framed : Framed s := Runs.exec_inv (fun inv edge => Framed.next inv edge) framed_init run
  cases step_cases edge with
  | armed now may =>
    -- the set has the deadline, so that it refuses the new timer
    obtain ⟨u, pending, same⟩ := clash
    have refused := mt (good.mem_addTimer call.timeoutMs (some (.sleeper s.frames.length)) false
      now).mp fun free => free u pending same
    have unheld : s.mgr.created ∉ s.temps := fun member =>
      Nat.lt_irrefl _ (slept.known _ (.inr (.inl member)))
    have unheard : s.frames.length ∉ s.heard := fun member => by
      have below := slept.beyond _ member
      rw [alarms, List.length_map] at below
      exact Nat.lt_irrefl _ below
    refine lost_of_run (slept.arms call caller now) (framed.arms _ rfl ⟨rfl, rfl⟩)
      (alarm_of_frame List.getElem?_concat_length) ?_ more apart'
    show _ + s.temps.count s.mgr.created + s.heard.count s.frames.length = 0
    rw [List.count_eq_zero.mpr unheld, List.count_eq_zero.mpr unheard]
    exact List.count_eq_zero.mpr refused

/-- Two threads sleep for a second from the same millisecond on: the second stays. -/
theorem lost_of_clash_two :
    ∃ t v, (after [.arms (.sleep 1) none 100]).step (.arms (.sleep 1) none 100) = some t ∧
      Runs.exec step t [.extract 1100, .loop 0 1100, .schedule 0] = some v ∧
      ∃ fr, v.frames[1]? = some fr ∧ fr.flag = true ∧ fr.returned = false := by
  have run : Runs.exec step init [.arms (.sleep 1) none 100] =
      some (after [.arms (.sleep 1) none 100]) := rfl
  have edge : (after [.arms (.sleep 1) none 100]).step (.arms (.sleep 1) none 100) =
      some (after [.arms (.sleep 1) none 100, .arms (.sleep 1) none 100]) := rfl
  have more : Runs.exec step (after [.arms (.sleep 1) none 100, .arms (.sleep 1) none 100])
      [.extract 1100, .loop 0 1100, .schedule 0] = some _ := rfl
  have good : TimerManager.Good (after [.arms (.sleep 1) none 100]).mgr :=
    ⟨List.pairwise_singleton _ _, fun u member => by
      cases List.mem_singleton.mp member
      decide⟩
  refine ⟨_, _, edge, more, lost_of_clash run (fun _ _ => ⟨trivial, trivial⟩) good
    ⟨0, List.mem_singleton_self 0, rfl⟩ edge more ?_⟩
  exact fun _ _ => ⟨trivial, fun _ _ => ⟨trivial, fun _ _ => ⟨trivial, trivial⟩⟩⟩

/-! ## When every worker sleeps -/

/-- The call `k` that was made on `caller` waits. -/
def Waits (s : Sleeping F) (k : ℕ) (caller : Option ℕ) : Prop :=
  ∃ fr, s.frames[k]? = some fr ∧ fr.caller = caller ∧ fr.flag = true ∧ fr.returned = false

/-- Every worker inside `run()` runs a callback and is in a call that waits. -/
def Asleep (s : Sleeping F) : Prop :=
  ∀ i x, s.sched.base.workers[i]? = some x → x.pc.active = true →
    (∃ cb, taskOf s.sched.base i = some (.other cb)) ∧ ∃ k, s.Waits k (some i)

/-- The steps that bring the scheduler no worker. -/
def Quiet (_ : Sleeping F) : SleepingStep F → Prop
  | .sched (.sched (.stop _)) | .sched (.sched (.spawn _)) => False
  | _ => True

variable {caller : Option ℕ}

/-- Only the callback of a call ends its wait. -/
theorem Waits.next (waits : s.Waits k caller) (edge : s.step a = some t)
    (still : ∀ i, a ≠ .clears i) : t.Waits k caller := by
  obtain ⟨fr, here, same, flag, inside⟩ := waits
  have written {j : ℕ} {fr' new : SleepFrame} (there : s.frames[j]? = some fr')
      (keeps : fr'.caller = caller → fr'.flag = true → fr'.returned = false →
        new.caller = caller ∧ new.flag = true ∧ new.returned = false) :
      (s.setFrame j new).Waits k caller := by
    by_cases this : j = k
    · subst this
      rw [here] at there
      cases there
      refine ⟨new, ?_, keeps same flag inside⟩
      exact List.getElem?_set_self (List.getElem?_eq_some_iff.mp here).1
    · exact ⟨fr, (List.getElem?_set_ne this).trans here, same, flag, inside⟩
  cases step_cases edge with
  | edits | scheds | extracts | loops | schedules => exact ⟨fr, here, same, flag, inside⟩
  | armed =>
    refine ⟨fr, ?_, same, flag, inside⟩
    exact (List.getElem?_append_left (List.getElem?_eq_some_iff.mp here).1).trans here
  | assigned there => exact written there fun same flag inside => ⟨same, flag, inside⟩
  | returned there awake =>
    refine written there fun same flag inside => ?_
    rw [awake] at flag
    cases flag
  | @cleared i => exact absurd rfl (still i)
  | cancelled it runs there behind =>
    exact written there fun same flag inside => ⟨same, flag, inside⟩

theorem Waits.inCall (waits : s.Waits k (some i)) : s.inCall i = true := by
  obtain ⟨fr, here, same, -, inside⟩ := waits
  refine List.any_eq_true.mpr ⟨fr, List.mem_of_getElem? here, ?_⟩
  rw [decide_eq_true same, inside]
  rfl

/-- No worker gets anywhere. -/
theorem Asleep.next (asleep : Asleep s) (quiet : Quiet s a) (edge : s.step a = some t) :
    Asleep t ∧ t.sched.base.begun = s.sched.base.begun ∧
      ∀ k caller, s.Waits k caller → t.Waits k caller := by
  have busy : Workers.Busy s.sched.base := fun i x there inside => by
    obtain ⟨⟨cb, runs⟩, -⟩ := asleep i x there inside
    rw [runs]
    rfl
  have still : ∀ i, a ≠ .clears i := by
    intro i same
    subst same
    cases step_cases edge with
    | cleared runs =>
      obtain ⟨x, there, inside⟩ := active_of_taskOf runs
      obtain ⟨⟨cb, other⟩, -⟩ := asleep i x there inside
      rw [runs] at other
      cases other
  have waits (k : ℕ) (caller : Option ℕ) (here : s.Waits k caller) : t.Waits k caller :=
    here.next edge still
  have crew : t.sched.base.workers = s.sched.base.workers ∧
      t.sched.base.begun = s.sched.base.begun := by
    cases step_cases edge with
    | edits | extracts | loops | armed | assigned | returned | cleared | cancelled =>
      exact ⟨rfl, rfl⟩
    | schedules there inner =>
      split at inner
      · cases inner
        exact ⟨rfl, rfl⟩
      · rcases Callers.step_base inner with ⟨b, same, -⟩ | ⟨-, -, workers, begun⟩
        · cases same
        · exact ⟨workers, begun⟩
    | @scheds b sched free inner =>
      rcases Callers.step_base inner with ⟨b', same, base⟩ | ⟨-, -, workers, begun⟩
      · cases b with
        | sched b =>
          cases same
          rcases busy.outside base with
            ⟨workers, begun, -⟩ | ⟨tid, joins⟩ | ⟨i, x, ends, there, inside⟩
          · exact ⟨workers, begun⟩
          · cases b with
            | stop tid | spawn tid => exact quiet.elim
            | _ => rcases joins with same | same <;> cases same
          · cases b with
            | complete j =>
              cases ends
              obtain ⟨-, k, waiting⟩ := asleep i x there inside
              have none : (!s.inCall i && _) = true := free
              rw [waiting.inCall] at none
              cases none
            | _ => cases ends
        | _ => cases same
      · exact ⟨workers, begun⟩
  refine ⟨fun i x there inside => ?_, crew.2, waits⟩
  rw [crew.1] at there
  obtain ⟨⟨cb, runs⟩, k, here⟩ := asleep i x there inside
  refine ⟨⟨cb, ?_⟩, k, waits k _ here⟩
  unfold taskOf
  rw [crew.1]
  exact runs

/-- Where every worker inside `run()` is in a hooked sleep and no thread enters `run()`: nothing
is begun any more, and no call that waits there returns, on a worker or on another thread,
whatever timers are collected. -/
theorem asleep_of_exec {bs : List (SleepingStep F)} (asleep : Asleep s)
    (run : Runs.exec step s bs = some t) (quiet : Runs.Along step Quiet s bs) :
    t.sched.base.begun = s.sched.base.begun ∧ ∀ k caller, s.Waits k caller → t.Waits k caller := by
  have keep {u v : Sleeping F} {a : SleepingStep F}
      (inv : Asleep u ∧ u.sched.base.begun = s.sched.base.begun ∧
        ∀ k caller, s.Waits k caller → u.Waits k caller)
      (quiet : Quiet u a) (edge : u.step a = some v) :
      Asleep v ∧ v.sched.base.begun = s.sched.base.begun ∧
        ∀ k caller, s.Waits k caller → v.Waits k caller := by
    obtain ⟨asleep, begun, waits⟩ := inv.1.next quiet edge
    exact ⟨asleep, begun.trans inv.2.1, fun k caller here => waits k caller (inv.2.2 k caller here)⟩
  exact ((Runs.always_of_along keep ⟨asleep, rfl, fun k caller here => here⟩ quiet).last run).2

/-- The only worker sleeps: the callback that is to wake it waits in a slot. -/
theorem asleep_of_exec_one :
    ∃ t, Runs.exec step (after (oneSecond.take 6)) [.extract 1100, .loop 0 1100, .schedule 0] =
        some t ∧
      wakes 0 t.sched.base.waiting = 1 ∧ t.Waits 0 (some 0) := by
  have run : Runs.exec step (after (oneSecond.take 6)) [.extract 1100, .loop 0 1100, .schedule 0] =
      some _ := rfl
  have waits : (after (oneSecond.take 6)).Waits 0 (some 0) := ⟨_, rfl, rfl, rfl, rfl⟩
  have asleep : Asleep (after (oneSecond.take 6)) := fun i x there inside => by
    cases i with
    | zero => exact ⟨⟨7, rfl⟩, 0, waits⟩
    | succ i => cases there
  refine ⟨_, run, rfl, (asleep_of_exec asleep run ?_).2 0 (some 0) waits⟩
  exact fun _ _ => ⟨trivial, fun _ _ => ⟨trivial, fun _ _ => ⟨trivial, trivial⟩⟩⟩

end Sleeping

end Sylar
