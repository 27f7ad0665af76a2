import Sylar.Lib.Places
import Sylar.Schedule.Empty
import Sylar.Schedule.Labels
import Sylar.Timer.Order

/-!
# From the timers to the workers

A timer that is due passes through three objects: a pass of `IOmanager::idle` takes
it out of `m_timers`, the loop of `GetExpiredCb` puts its callback into the vector
`obs` of that pass, `schedule(begin, end)` puts the vector into slots, and a worker
runs it. Each of these is a section of its own, and other threads edit the manager,
schedule callbacks and run their own passes in between.

`Expiry` is the manager and the scheduler with the passes of all workers. The
callbacks carry the timer they come from, which nothing looks at. Other threads make
any edits of the manager, so that every interleaving of its member functions is covered.

* `step_flow`: what a step does to the timers taken out and to what has become of them.
* `fired_of_exec`: over every interleaving, each timer taken out is in one place, and
  was taken out at most as often as it was put in.
-/

namespace Sylar

/-- A callback, with the timer it was taken from. -/
structure Fired (F : Type) where
  origin : Option ℕ
  cb : F

/-- A pass of `idle` between `GetExpiredCb` and the yield: the worker, the timers taken
out that its loop has not come to, the vector `obs`, and whether it was scheduled. -/
structure IdlePass (F : Type) where
  worker : ℕ
  temp : List ℕ
  obs : List (ℕ × Option F)
  scheduled : Bool

/-- The timers that a pass has taken out and not scheduled. -/
def IdlePass.held {F : Type} (p : IdlePass F) : List ℕ := p.temp ++ p.obs.map Prod.fst

/-- The manager, the scheduler and the passes. Beside them: the timers taken out, those
put into the set, and those whose callback was empty when it was scheduled. -/
structure Expiry (F : Type) where
  mgr : TimerManager F
  sched : Callers (Fired F)
  passes : List (IdlePass F)
  collected : List ℕ
  inserted : List ℕ
  unheard : List ℕ

/-- The steps: an edit of the manager by some thread, a step of the scheduler, and the
sections of a pass of `idle`. The worker `i` begins a pass with the cut of
`GetExpiredCb`; the `j`-th pass does a turn of the loop, schedules its vector, or ends. -/
inductive ExpiryStep (F : Type) where
  | edit (e : Edit F)
  | sched (a : CallerStep F)
  | extract (i : ℕ) (now : UInt64)
  | loop (j : ℕ) (now : UInt64)
  | schedule (j : ℕ)
  | yields (j : ℕ)

/-- The step that takes a worker out of `idle`. -/
def CallerStep.Resumes {β : Type} : CallerStep β → Bool
  | .sched (.resume _) => true
  | _ => false

namespace Expiry

variable {F : Type}

def init : Expiry F := ⟨.empty, Callers.init, [], [], [], []⟩

/-- What `schedule(begin, end)` is given. -/
def batch (obs : List (ℕ × Option F)) : List (Option (Fired F)) :=
  obs.map fun p => p.2.map (Fired.mk (some p.1))

def step (s : Expiry F) : ExpiryStep F → Option (Expiry F)
  | .edit e =>
    some { s with
      mgr := s.mgr.edit e
      inserted := match e with
        | .insert t => t :: s.inserted
        | _ => s.inserted }
  | .sched a =>
    -- a worker leaves `idle` by the end of its pass only
    if a.Resumes then none
    else (s.sched.step (a.map (Fired.mk none))).map fun sched => { s with sched := sched }
  | .extract i now => match s.sched.base.workers[i]? with
    | some ⟨_, .idle⟩ =>
      if s.passes.any fun p => p.worker == i then none
      else
        let temp := s.mgr.expired now
        some { s with
          mgr := s.mgr.edits (temp.map Edit.erase)
          passes := ⟨i, temp, [], false⟩ :: s.passes
          collected := temp ++ s.collected }
    | _ => none
  | .loop j now => match s.passes[j]? with
    | some ⟨i, item :: temp, obs, scheduled⟩ =>
      some { s with
        mgr := s.mgr.edits (s.mgr.rearm (fun _ => now) 0 [item])
        passes := s.passes.set j ⟨i, temp, obs ++ [(item, (s.mgr.timers item).mCb)], scheduled⟩
        inserted := if (s.mgr.timers item).mRecurring then item :: s.inserted else s.inserted }
    | _ => none
  | .schedule j => match s.passes[j]? with
    | some ⟨i, [], obs, false⟩ =>
      (if obs.isEmpty then some s.sched else s.sched.step (.batch (batch obs))).map fun sched =>
        { s with
          sched := sched
          passes := s.passes.set j ⟨i, [], [], true⟩
          unheard := (obs.filter fun p => p.2.isNone).map Prod.fst ++ s.unheard }
    | _ => none
  | .yields j => match s.passes[j]? with
    | some ⟨i, [], [], true⟩ =>
      (s.sched.step (.sched (.resume i))).map fun sched =>
        { s with sched := sched, passes := s.passes.eraseIdx j }
    | _ => none

/-! ## Where a timer is that was taken out -/

/-- The timers that the passes hold. -/
def held (s : Expiry F) : List ℕ := s.passes.flatMap IdlePass.held

/-- The timers whose callbacks the scheduler has accepted. -/
def heard (s : Expiry F) : List ℕ := s.sched.base.accepted.filterMap fun p => p.1.origin

/-- How often a callback of the timer `t` stands in a list. -/
def fires (t : ℕ) (l : List (Ticket (Fired F))) : ℕ := (labels Fired.origin l).count t

variable {s s' : Expiry F} {a : ExpiryStep F} {i j t : ℕ} {p : IdlePass F}

/-! ## What the scheduler accepts -/

/-- The calls in flight are those of other callers. -/
def Foreign (s : Callers (Fired F)) : Prop := ∀ c ∈ s.base.calls, c.1.origin = none

variable {c c' : Callers (Fired F)}

theorem filterMap_foreign {l : List (Fired F × Int)} (foreign : ∀ c ∈ l, c.1.origin = none) :
    l.filterMap (fun p => p.1.origin) = [] :=
  List.filterMap_eq_nil_iff.mpr foreign

/-- A step of other threads, or of a worker, brings no callback of a timer. -/
theorem foreign_step {a : CallerStep F} (foreign : Foreign c)
    (edge : c.step (a.map (Fired.mk none)) = some c') :
    Foreign c' ∧ (c'.base.accepted.filterMap fun p => p.1.origin) =
      c.base.accepted.filterMap fun p => p.1.origin := by
  have grown {new : List (Fired F × Int)} (none : ∀ c ∈ new, c.1.origin = none) :
      ((c.base.accepted ++ new).filterMap fun p => p.1.origin) =
        c.base.accepted.filterMap fun p => p.1.origin := by
    rw [List.filterMap_append, filterMap_foreign none, List.append_nil]
  cases a with
  | sched b =>
    obtain ⟨base, inner, rfl⟩ := Option.map_eq_some_iff.mp edge
    generalize label : b.map (Fired.mk none) = b' at inner
    cases Workers.step_cases inner with
    | enters cb threadId =>
      split
      · exact ⟨foreign, rfl⟩
      · refine ⟨fun c member => ?_, rfl⟩
        rcases List.mem_append.mp member with old | new
        · exact foreign c old
        · cases List.mem_singleton.mp new
          cases b <;> cases label
          rfl
    | @stores i cb threadId found =>
      refine ⟨fun c member => foreign c (List.mem_of_mem_eraseIdx member), grown fun c member => ?_⟩
      cases List.mem_singleton.mp member
      exact foreign _ (List.mem_of_getElem? found)
    | batch cbs =>
      refine ⟨foreign, grown fun c member => ?_⟩
      obtain ⟨cb, among, rfl⟩ := List.mem_map.mp member
      cases b <;> cases label
      obtain ⟨cb, -, rfl⟩ := List.mem_map.mp among
      rfl
    | @scans i x there pc =>
      obtain ⟨calls, accepted⟩ := Workers.dequeue_history c.base i x
      refine ⟨fun c member => foreign c (calls ▸ member), ?_⟩
      dsimp only
      rw [accepted]
    | halts | stops | spawns | completes | tests | resumes => exact ⟨foreign, rfl⟩
  | enterEmpty threadId =>
    cases edge
    split <;> exact ⟨foreign, rfl⟩
  | storeEmpty i =>
    cases found : c.emptyCalls[i]? <;>
      simp only [CallerStep.map, Callers.step, found, Option.some.injEq, reduceCtorEq] at edge
    subst edge
    exact ⟨foreign, rfl⟩
  | batch cbs =>
    cases edge
    refine ⟨foreign, grown fun c member => ?_⟩
    obtain ⟨cb, among, rfl⟩ := List.mem_map.mp member
    have inside := List.mem_filterMap.mp among
    obtain ⟨cb', among', same⟩ := inside
    obtain ⟨cb'', -, rfl⟩ := List.mem_map.mp among'
    cases cb'' with
    | none => cases same
    | some cb =>
      cases same
      rfl

/-- The worker that goes on after its pass brings none either. -/
theorem foreign_resume (foreign : Foreign c) (edge : c.step (.sched (.resume i)) = some c') :
    Foreign c' ∧ c'.base.accepted = c.base.accepted := by
  obtain ⟨base, inner, rfl⟩ := Option.map_eq_some_iff.mp edge
  cases Workers.step_cases inner
  exact ⟨foreign, rfl⟩

/-- The vector of a pass: the timers that had a callback are accepted. -/
theorem heard_batch (obs : List (ℕ × Option F)) :
    ((batch obs).reduceOption.map fun cb => (cb, (-1 : Int))).filterMap (fun p => p.1.origin) =
      (obs.filter fun p => p.2.isSome).map Prod.fst := by
  induction obs with
  | nil => rfl
  | cons first obs ih =>
    obtain ⟨t, cb⟩ := first
    cases cb with
    | none => exact ih
    | some cb => exact congrArg (t :: ·) ih

/-- What `schedule(begin, end)` does with the vector of a pass. -/
theorem schedule_batch {obs : List (ℕ × Option F)} (foreign : Foreign c)
    (edge : (if obs.isEmpty then some c else c.step (.batch (batch obs))) = some c') :
    Foreign c' ∧ (c'.base.accepted.filterMap fun p => p.1.origin) =
      (c.base.accepted.filterMap fun p => p.1.origin) ++
        (obs.filter fun p => p.2.isSome).map Prod.fst := by
  split at edge
  · next empty =>
    cases edge
    rw [List.isEmpty_iff.mp empty]
    exact ⟨foreign, (List.append_nil _).symm⟩
  · cases edge
    refine ⟨foreign, ?_⟩
    rw [← heard_batch]
    exact List.filterMap_append

/-! ## One step -/

/-- What a step does to the timers taken out: they are the same, and where they were,
or some are taken out and held. -/
inductive Flow (s s' : Expiry F) : Prop where
  | stays (placed : (s'.held ++ s'.heard ++ s'.unheard).Perm (s.held ++ s.heard ++ s.unheard))
      (collected : s'.collected = s.collected)
  | takes (new : List ℕ)
      (placed : (s'.held ++ s'.heard ++ s'.unheard).Perm
        (new ++ (s.held ++ s.heard ++ s.unheard)))
      (collected : s'.collected = new ++ s.collected)

/-- The timers of a vector are those with a callback and those without. -/
theorem perm_obs (obs : List (ℕ × Option F)) :
    (obs.map Prod.fst).Perm ((obs.filter fun p => p.2.isSome).map Prod.fst ++
      (obs.filter fun p => p.2.isNone).map Prod.fst) := by
  have parts := List.filter_append_perm (fun p : ℕ × Option F => p.2.isSome) obs
  have rest : (obs.filter fun p => !p.2.isSome) = obs.filter fun p => p.2.isNone := by
    refine List.filter_congr fun p _ => ?_
    cases p.2 <;> rfl
  rw [rest] at parts
  rw [← List.map_append]
  exact (parts.map Prod.fst).symm

theorem step_flow (foreign : Foreign s.sched) (edge : s.step a = some s') :
    Foreign s'.sched ∧ Flow s s' := by
  cases a with
  | edit e =>
    cases edge
    exact ⟨foreign, .stays (List.Perm.refl _) rfl⟩
  | sched b =>
    simp only [step, Option.ite_none_left_eq_some] at edge
    obtain ⟨sched, inner, rfl⟩ := Option.map_eq_some_iff.mp edge.2
    obtain ⟨foreign', same⟩ := foreign_step foreign inner
    refine ⟨foreign', .stays ?_ rfl⟩
    unfold heard
    rw [same]
    exact List.Perm.refl _
  | extract i now =>
    simp only [step] at edge
    split at edge
    · simp only [Option.ite_none_left_eq_some] at edge
      cases edge.2
      refine ⟨foreign, .takes (s.mgr.expired now) ?_ rfl⟩
      show (((s.mgr.expired now ++ []) ++ s.held) ++ s.heard ++ s.unheard).Perm _
      rw [List.append_nil, List.append_assoc, List.append_assoc, List.append_assoc]
    · cases edge
  | loop j now =>
    simp only [step] at edge
    split at edge
    · next i item temp obs scheduled there =>
      cases edge
      obtain ⟨rest, before, after, -⟩ := Places.flatMap_set there IdlePass.held
      refine ⟨foreign, .stays (List.Perm.append_right _ (List.Perm.append_right _ ?_)) rfl⟩
      refine (after _).trans (List.Perm.trans ?_ before.symm)
      refine List.Perm.append_right rest ?_
      show (temp ++ (obs ++ [(item, (s.mgr.timers item).mCb)]).map Prod.fst).Perm
        (item :: temp ++ obs.map Prod.fst)
      rw [List.map_append, ← List.append_assoc]
      exact List.perm_append_comm
    · cases edge
  | schedule j =>
    simp only [step] at edge
    split at edge
    · next i obs there =>
      obtain ⟨sched, inner, rfl⟩ := Option.map_eq_some_iff.mp edge
      obtain ⟨foreign', accepted⟩ := schedule_batch foreign inner
      obtain ⟨rest, before, after, -⟩ := Places.flatMap_set there IdlePass.held
      refine ⟨foreign', .stays ?_ rfl⟩
      unfold heard
      dsimp only
      rw [accepted]
      have parts := perm_obs obs
      set known := (obs.filter fun p => p.2.isSome).map Prod.fst
      set empty := (obs.filter fun p => p.2.isNone).map Prod.fst
      set old := s.sched.base.accepted.filterMap fun p => p.1.origin
      have now : ((s.passes.set j ⟨i, [], [], true⟩).flatMap IdlePass.held).Perm rest := after _
      have was : s.held.Perm (known ++ empty ++ rest) :=
        before.trans (List.Perm.append_right rest parts)
      refine List.Perm.trans ((now.append_right _).append_right _)
        (List.Perm.trans ?_ ((was.append_right _).append_right _).symm)
      rw [List.perm_iff_count]
      intro t
      simp only [List.count_append]
      omega
    · cases edge
  | yields j =>
    simp only [step] at edge
    split at edge
    · next i there =>
      obtain ⟨sched, inner, rfl⟩ := Option.map_eq_some_iff.mp edge
      obtain ⟨foreign', same⟩ := foreign_resume foreign inner
      obtain ⟨rest, before, -, after⟩ := Places.flatMap_set there IdlePass.held
      refine ⟨foreign', .stays ?_ rfl⟩
      unfold heard held
      dsimp only
      rw [same, after]
      exact ((before.symm.append_right _).append_right _)
    · cases edge

/-! ## How often a timer is taken out -/

/-- What is taken out of the set or stands in it was put in. -/
def Bounded (s : Expiry F) : Prop :=
  ∀ t, s.collected.count t + s.mgr.mTimers.count t ≤ s.inserted.count t

theorem step_bounded (inv : Bounded s) (edge : s.step a = some s') : Bounded s' := by
  intro t
  have before := inv t
  cases a with
  | edit e =>
    cases edge
    cases e with
    | insert u =>
      have grown := TimerManager.count_insert_le s.mgr u t
      rw [List.count_cons] at grown
      show s.collected.count t + (s.mgr.edit (.insert u)).mTimers.count t ≤
        (u :: s.inserted).count t
      rw [List.count_cons]
      omega
    | create v | assign u f => exact before
    | erase u =>
      have less := TimerManager.count_edit_le (e := .erase u) (fun u same => by cases same) s.mgr t
      show s.collected.count t + (s.mgr.edit (.erase u)).mTimers.count t ≤ s.inserted.count t
      omega
  | sched b =>
    simp only [step, Option.ite_none_left_eq_some] at edge
    obtain ⟨sched, inner, rfl⟩ := Option.map_eq_some_iff.mp edge.2
    exact before
  | extract i now =>
    simp only [step] at edge
    split at edge
    · simp only [Option.ite_none_left_eq_some] at edge
      cases edge.2
      have split := congrArg (List.count t) (TimerManager.mTimers_expired s.mgr now)
      rw [List.count_append] at split
      show (s.mgr.expired now ++ s.collected).count t +
        (s.mgr.edits ((s.mgr.expired now).map Edit.erase)).mTimers.count t ≤ s.inserted.count t
      rw [List.count_append]
      omega
    · cases edge
  | loop j now =>
    simp only [step] at edge
    split at edge
    · next i item temp obs scheduled there =>
      cases edge
      unfold TimerManager.rearm
      dsimp only
      by_cases again : (s.mgr.timers item).mRecurring = true
      · rw [if_pos again, if_pos again]
        have grown := TimerManager.count_insert_le
          (s.mgr.edit (.assign item fun v => { v with mNext := now + v.mGap })) item t
        rw [TimerManager.mTimers_assign, List.count_cons] at grown
        rw [List.count_cons]
        exact Nat.le_trans (Nat.add_le_add_left grown _) (by omega)
      · rw [if_neg again, if_neg again]
        exact before
    · cases edge
  | schedule j =>
    simp only [step] at edge
    split at edge
    · obtain ⟨sched, inner, rfl⟩ := Option.map_eq_some_iff.mp edge
      exact before
    · cases edge
  | yields j =>
    simp only [step] at edge
    split at edge
    · obtain ⟨sched, inner, rfl⟩ := Option.map_eq_some_iff.mp edge
      exact before
    · cases edge

/-! ## Runs -/

/-- The scheduler of the run, by itself. -/
theorem surplus_step {n : ℕ} (inv : Workers.Surplus n s.sched.base) (edge : s.step a = some s') :
    ∃ m, Workers.Surplus m s'.sched.base := by
  cases a with
  | edit e =>
    cases edge
    exact ⟨n, inv⟩
  | sched b =>
    simp only [step, Option.ite_none_left_eq_some] at edge
    obtain ⟨sched, inner, rfl⟩ := Option.map_eq_some_iff.mp edge.2
    exact ⟨_, Callers.surplus_next inv inner⟩
  | extract i now =>
    simp only [step] at edge
    split at edge
    · simp only [Option.ite_none_left_eq_some] at edge
      cases edge.2
      exact ⟨n, inv⟩
    · cases edge
  | loop j now =>
    simp only [step] at edge
    split at edge
    · cases edge
      exact ⟨n, inv⟩
    · cases edge
  | schedule j =>
    simp only [step] at edge
    split at edge
    · obtain ⟨sched, inner, rfl⟩ := Option.map_eq_some_iff.mp edge
      split at inner
      · cases inner
        exact ⟨n, inv⟩
      · exact ⟨_, Callers.surplus_next inv inner⟩
    · cases edge
  | yields j =>
    simp only [step] at edge
    split at edge
    · obtain ⟨sched, inner, rfl⟩ := Option.map_eq_some_iff.mp edge
      exact ⟨_, Callers.surplus_next inv inner⟩
    · cases edge

/-- Every timer taken out is held by a pass, was accepted, or had nothing to run. -/
structure Accounted (s : Expiry F) : Prop where
  foreign : Foreign s.sched
  flow : (s.held ++ s.heard ++ s.unheard).Perm s.collected
  bounded : Bounded s
  sched : ∃ n, Workers.Surplus n s.sched.base

theorem accounted_init : Accounted (init : Expiry F) where
  foreign := List.forall_mem_nil _
  flow := List.Perm.refl _
  bounded := fun _ => Nat.le_refl _
  sched := ⟨0, by
    unfold Workers.Surplus
    rw [Workers.without_zero]
    exact Workers.conserved_init⟩

theorem Accounted.next (inv : Accounted s) (edge : s.step a = some s') : Accounted s' := by
  obtain ⟨foreign, flow⟩ := step_flow inv.foreign edge
  obtain ⟨n, surplus⟩ := inv.sched
  refine ⟨foreign, ?_, step_bounded inv.bounded edge, surplus_step surplus edge⟩
  cases flow with
  | stays placed collected =>
    rw [collected]
    exact placed.trans inv.flow
  | takes new placed collected =>
    rw [collected]
    exact placed.trans (inv.flow.append_left new)

/-- The callbacks accepted from a timer wait, run or have finished. -/
theorem count_heard {n : ℕ} (inv : Workers.Surplus n s.sched.base) (t : ℕ) :
    s.heard.count t = fires t s.sched.base.waiting + fires t s.sched.base.running +
        fires t s.sched.base.finished ∧
      fires t (s.sched.base.begun.map Prod.fst) = fires t s.sched.base.running +
        fires t s.sched.base.finished := by
  obtain ⟨places, begun⟩ := Workers.Conserved.labels inv Fired.origin
  have counted := places.count_eq t
  have started := begun.count_eq t
  rw [List.count_append, List.count_append] at counted
  rw [List.count_append] at started
  exact ⟨counted.symm, started⟩

/-- Over every interleaving of the member functions of the manager, the passes of `idle`
and the steps of the scheduler, and for every timer: however often it was taken out, its
callbacks are held by passes, wait in slots, are being run, have finished, or were empty;
it was taken out at most as often as it was put into the set and is not there; and its
callback was begun no more often than that. -/
theorem fired_of_exec {as : List (ExpiryStep F)} (run : Runs.exec step init as = some s)
    (t : ℕ) :
    s.collected.count t = s.held.count t + fires t s.sched.base.waiting +
        fires t s.sched.base.running + fires t s.sched.base.finished + s.unheard.count t ∧
      s.collected.count t + s.mgr.mTimers.count t ≤ s.inserted.count t ∧
      fires t (s.sched.base.begun.map Prod.fst) ≤ s.collected.count t := by
  have inv : Accounted s := Runs.exec_inv (fun inv edge => Accounted.next inv edge)
    accounted_init run
  obtain ⟨n, surplus⟩ := inv.sched
  have flow := inv.flow.count_eq t
  obtain ⟨heard, begun⟩ := count_heard surplus t
  rw [List.count_append, List.count_append] at flow
  refine ⟨?_, inv.bounded t, ?_⟩ <;> omega

/-- A timer is added, a worker takes it out in a pass, and runs its callback after it. -/
theorem fired_of_exec_once :
    ∃ s : Expiry ℕ, Runs.exec step init [.edit (.create ⟨5, 105, false, some 7, true⟩),
        .edit (.insert 0), .sched (.sched (.spawn 5)), .sched (.sched (.dequeue 0)),
        .sched (.sched (.exitTest 0)), .extract 0 200, .loop 0 200, .schedule 0, .yields 0,
        .sched (.sched (.dequeue 0))] = some s ∧
      fires 0 s.sched.base.running = 1 ∧
      fires 0 (s.sched.base.begun.map Prod.fst) ≤ s.collected.count 0 := by
  have run : Runs.exec step init [.edit (.create ⟨5, 105, false, some 7, true⟩),
      .edit (.insert 0), .sched (.sched (.spawn 5)), .sched (.sched (.dequeue 0)),
      .sched (.sched (.exitTest 0)), .extract 0 200, .loop 0 200, .schedule 0, .yields 0,
      .sched (.sched (.dequeue 0))] = some (_ : Expiry ℕ) := rfl
  exact ⟨_, run, rfl, (fired_of_exec run 0).2.2⟩

end Expiry

end Sylar
