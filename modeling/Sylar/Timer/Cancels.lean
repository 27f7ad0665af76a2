import Sylar.Timer.Threads

/-!
# Cancelled timers

A `cancel` has done its work when the timer cannot come back: it is in no set, and
no `GetExpiredCb` is about to put it there. The second half is not in its hands. A
recurring timer that `GetExpiredCb` has taken out is in no set until it is put
back, and a `cancel` in between finds nothing to do.

* `Inv.next`: what a section has to leave to the operations of the other threads.
* `heeded_along`: when no `cancel` meets a `GetExpiredCb` that has its timer, no
  cancelled timer is collected.
-/

namespace Sylar.SharedTimers

open Runs Threads TimerManager

variable {F : Type} {p q : Pool (SharedTimers F) (TimerPc F)} {s : SharedTimers F}
  {o : Option (TimerPc F)} {i j t : ℕ}

/-- All deadlines are distinct. -/
def Distinct (p : Pool (SharedTimers F) (TimerPc F)) : Prop :=
  ∀ a b, a < p.shared.mgr.created → b < p.shared.mgr.created →
    (p.shared.mgr.timers a).mNext = (p.shared.mgr.timers b).mNext → a = b

/-- The `GetExpiredCb` of thread `i` has taken `t` out and has not come to it. -/
def Taken (p : Pool (SharedTimers F) (TimerPc F)) (i t : ℕ) : Prop :=
  ∃ item temp, p.ops i = some (.loop item temp) ∧ t ∈ item :: temp

/-- The `cancel` of thread `i` has found `it` and has not erased it. -/
def Erasing (p : Pool (SharedTimers F) (TimerPc F)) (i it : ℕ) : Prop :=
  ∃ t epoch, p.ops i = some (.erase t it epoch)

/-- What was asked of `cancel`: no timer is collected after it, and the iterators
of the operations are good when they are used. -/
structure Heeded (p : Pool (SharedTimers F) (TimerPc F)) : Prop where
  late : p.shared.late = []
  defined : p.shared.undefined = false

/-- What a section must not meet. A `cancel` looks no timer up that another has
found, nor a recurring one that a `GetExpiredCb` has taken out; the latter takes
no timer out that a `cancel` has found; and the user puts no recurring timer back
that it has taken out. -/
def Clear (p : Pool (SharedTimers F) (TimerPc F)) : Act (TimerOp F) UInt64 → Prop
  | .enter _ _ => True
  | .run i now => ∀ pc, p.ops i = some pc → match pc with
    | .find t => (∀ j, ¬ Erasing p j t) ∧
        ((p.shared.mgr.timers t).mRecurring = true → ∀ j, ¬ Taken p j t)
    | .extract => ∀ j t, Erasing p j t → now < (p.shared.mgr.timers t).mNext
    | .put t => (p.shared.mgr.timers t).mRecurring = true → ∀ j, ¬ Taken p j t
    | _ => True

/-- Only an element that comes into the set is counted. -/
theorem counted_of_mem {u : ℕ} (member : u ∈ s.mgr.mTimers) : s.counted t u = s.epoch u := by
  unfold counted
  split
  · rfl
  · next absent =>
    have other : u ≠ t := by
      rintro rfl
      exact absent member
    exact Function.update_of_ne other _ _

/-! ## The invariant -/

/-- A recurring timer that was taken out is out of the set, not cancelled, and
taken out once; what `cancel` has found is in the set as it was found. -/
structure Inv (p : Pool (SharedTimers F) (TimerPc F)) : Prop where
  good : Good p.shared.mgr
  known : ∀ i t, Taken p i t → t < p.shared.mgr.created
  nodup : ∀ i item temp, p.ops i = some (.loop item temp) → (item :: temp).Nodup
  out : ∀ i t, Taken p i t → (p.shared.mgr.timers t).mRecurring = true →
    t ∉ p.shared.mgr.mTimers ∧ p.shared.cancelled t = false ∧ ∀ j, Taken p j t → j = i
  valid : ∀ i t it epoch, p.ops i = some (.erase t it epoch) →
    it = t ∧ it ∈ p.shared.mgr.mTimers ∧ p.shared.epoch it = epoch ∧
      ∀ j, Erasing p j it → j = i
  cancelled : ∀ t, p.shared.cancelled t = true →
    t < p.shared.mgr.created ∧ t ∉ p.shared.mgr.mTimers
  heeded : Heeded p

theorem inv_init : Inv (Pool.idle (init : SharedTimers F)) where
  good := good_empty
  known i t taken := by
    obtain ⟨item, temp, here, -⟩ := taken
    cases here
  nodup i item temp here := by cases here
  out i t taken := by
    obtain ⟨item, temp, here, -⟩ := taken
    cases here
  valid i t it epoch here := by cases here
  cancelled t done := by cases done
  heeded := ⟨rfl, rfl⟩

/-- What the operation that a section leads to relies on. -/
def Own (p : Pool (SharedTimers F) (TimerPc F)) (i : ℕ) (s : SharedTimers F) :
    Option (TimerPc F) → Prop
  | some (.loop item temp) => (item :: temp).Nodup ∧ ∀ t ∈ item :: temp, t < s.mgr.created ∧
      ((s.mgr.timers t).mRecurring = true → t ∉ s.mgr.mTimers ∧ s.cancelled t = false ∧
        ∀ j, j ≠ i → ¬ Taken p j t)
  | some (.erase t it epoch) => it = t ∧ it ∈ s.mgr.mTimers ∧ s.epoch it = epoch ∧
      ∀ j, j ≠ i → ¬ Erasing p j it
  | _ => True

theorem taken_update (taken : Taken ⟨s, Function.update p.ops i o⟩ j t) :
    (j = i ∧ ∃ item temp, o = some (.loop item temp) ∧ t ∈ item :: temp) ∨
      (j ≠ i ∧ Taken p j t) := by
  obtain ⟨item, temp, here, member⟩ := taken
  rcases update_eq_some here with ⟨same, own⟩ | ⟨distinct, other⟩
  · exact .inl ⟨same, item, temp, own, member⟩
  · exact .inr ⟨distinct, item, temp, other, member⟩

theorem erasing_update (erasing : Erasing ⟨s, Function.update p.ops i o⟩ j t) :
    (j = i ∧ ∃ u epoch, o = some (.erase u t epoch)) ∨ (j ≠ i ∧ Erasing p j t) := by
  obtain ⟨u, epoch, here⟩ := erasing
  rcases update_eq_some here with ⟨same, own⟩ | ⟨distinct, other⟩
  · exact .inl ⟨same, u, epoch, own⟩
  · exact .inr ⟨distinct, u, epoch, other⟩

/-- A section of thread `i` keeps the invariant when it leaves the timers that
others have taken out where they are, the elements that others have found too,
and its own operation what that relies on. -/
theorem Inv.next (inv : Inv p) (good : Good s.mgr)
    (grows : p.shared.mgr.created ≤ s.mgr.created)
    (same : ∀ t < p.shared.mgr.created,
      (s.mgr.timers t).mRecurring = (p.shared.mgr.timers t).mRecurring)
    (out : ∀ j t, j ≠ i → Taken p j t → (p.shared.mgr.timers t).mRecurring = true →
      t ∉ s.mgr.mTimers ∧ s.cancelled t = false)
    (valid : ∀ j t, j ≠ i → Erasing p j t →
      t ∈ s.mgr.mTimers ∧ s.epoch t = p.shared.epoch t)
    (cancelled : ∀ t, s.cancelled t = true → t < s.mgr.created ∧ t ∉ s.mgr.mTimers)
    (late : s.late = []) (defined : s.undefined = false) (own : Own p i s o) :
    Inv ⟨s, Function.update p.ops i o⟩ := by
  constructor
  case good => exact good
  case known =>
    intro j t taken
    rcases taken_update taken with ⟨-, item, temp, rfl, member⟩ | ⟨-, other⟩
    · exact (own.2 t member).1
    · exact Nat.lt_of_lt_of_le (inv.known j t other) grows
  case nodup =>
    intro j item temp here
    rcases update_eq_some here with ⟨-, rfl⟩ | ⟨-, other⟩
    · exact own.1
    · exact inv.nodup j item temp other
  case out =>
    intro j t taken recurring
    rcases taken_update taken with ⟨rfl, item, temp, rfl, member⟩ | ⟨distinct, other⟩
    · obtain ⟨absent, fresh, alone⟩ := (own.2 t member).2 recurring
      refine ⟨absent, fresh, fun k also => ?_⟩
      rcases taken_update also with ⟨this, -⟩ | ⟨distinct, other⟩
      · exact this
      · exact absurd other (alone k distinct)
    · have before := (same t (inv.known j t other)).symm.trans recurring
      obtain ⟨absent, fresh⟩ := out j t distinct other before
      refine ⟨absent, fresh, fun k also => ?_⟩
      rcases taken_update also with ⟨rfl, item, temp, rfl, member⟩ | ⟨-, also⟩
      · exact absurd other (((own.2 t member).2 recurring).2.2 j distinct)
      · exact (inv.out j t other before).2.2 k also
  case valid =>
    intro j t it epoch here
    rcases update_eq_some here with ⟨rfl, rfl⟩ | ⟨distinct, other⟩
    · refine ⟨own.1, own.2.1, own.2.2.1, fun k also => ?_⟩
      rcases erasing_update also with ⟨this, -⟩ | ⟨distinct, other⟩
      · exact this
      · exact absurd other (own.2.2.2 k distinct)
    · obtain ⟨found, member, number⟩ := inv.valid j t it epoch other
      have erasing : Erasing p j it := ⟨t, epoch, other⟩
      obtain ⟨stays, count⟩ := valid j it distinct erasing
      refine ⟨found, stays, count.trans number.1, fun k also => ?_⟩
      rcases erasing_update also with ⟨rfl, u, epoch', rfl⟩ | ⟨-, also⟩
      · exact absurd erasing (own.2.2.2 j distinct)
      · exact number.2 k also
  case cancelled => exact cancelled
  case heeded => exact ⟨late, defined⟩

/-- A section that leaves the manager and its notes alone. -/
theorem Inv.stay (inv : Inv p) (own : Own p i p.shared o) :
    Inv ⟨p.shared, Function.update p.ops i o⟩ := by
  refine inv.next inv.good (Nat.le_refl _) (fun _ _ => rfl) ?_ ?_ inv.cancelled inv.heeded.late
    inv.heeded.defined own
  · intro j t _ taken recurring
    exact ⟨(inv.out j t taken recurring).1, (inv.out j t taken recurring).2.1⟩
  · intro j it _ erasing
    obtain ⟨t, epoch, here⟩ := erasing
    exact ⟨(inv.valid j t it epoch here).2.1, rfl⟩

/-- `cancel` on `t` returns, with `t` out of the set. -/
theorem Inv.returns (inv : Inv p) (good : Good s.mgr)
    (timers : s.mgr.timers = p.shared.mgr.timers) (created : s.mgr.created = p.shared.mgr.created)
    (members : ∀ u, u ∈ s.mgr.mTimers ↔ u ≠ t ∧ u ∈ p.shared.mgr.mTimers)
    (epoch : s.epoch = p.shared.epoch)
    (cancelled : s.cancelled =
      Function.update p.shared.cancelled t (p.shared.mgr.timers t).mRecurring)
    (late : s.late = p.shared.late) (defined : s.undefined = p.shared.undefined)
    (known : t < p.shared.mgr.created)
    (untaken : (p.shared.mgr.timers t).mRecurring = true → ∀ j, j ≠ i → ¬ Taken p j t)
    (unfound : ∀ j, j ≠ i → ¬ Erasing p j t) :
    Inv ⟨s, Function.update p.ops i none⟩ := by
  refine inv.next good created.symm.le ?_ ?_ ?_ ?_ (late.trans inv.heeded.late)
    (defined.trans inv.heeded.defined) trivial
  · intro u _
    rw [timers]
  · intro j u distinct taken recurring
    obtain ⟨absent, fresh, -⟩ := inv.out j u taken recurring
    refine ⟨fun member => absent ((members u).mp member).2, ?_⟩
    have other : u ≠ t := by
      rintro rfl
      exact untaken recurring j distinct taken
    rw [cancelled, Function.update_of_ne other]
    exact fresh
  · intro j u distinct erasing
    have other : u ≠ t := by
      rintro rfl
      exact unfound j distinct erasing
    obtain ⟨_, _, here⟩ := erasing
    exact ⟨(members u).mpr ⟨other, (inv.valid j _ u _ here).2.1⟩, congrFun epoch u⟩
  · intro u done
    rw [created]
    by_cases here : u = t
    · exact ⟨here ▸ known, fun member => ((members u).mp member).1 here⟩
    · rw [cancelled, Function.update_of_ne here] at done
      obtain ⟨known, absent⟩ := inv.cancelled u done
      exact ⟨known, fun member => absent ((members u).mp member).2⟩

/-- A section that puts `t` into the set. -/
theorem Inv.puts (inv : Inv p) (good : Good s.mgr)
    (grows : p.shared.mgr.created ≤ s.mgr.created)
    (same : ∀ u < p.shared.mgr.created,
      (s.mgr.timers u).mRecurring = (p.shared.mgr.timers u).mRecurring)
    (into : ∀ u ∈ s.mgr.mTimers, u = t ∨ u ∈ p.shared.mgr.mTimers)
    (stays : ∀ u ∈ p.shared.mgr.mTimers, u ∈ s.mgr.mTimers)
    (epoch : s.epoch = p.shared.counted t)
    (cancelled : ∀ u, s.cancelled u = true → u ≠ t ∧ p.shared.cancelled u = true)
    (late : s.late = p.shared.late) (defined : s.undefined = p.shared.undefined)
    (untaken : (p.shared.mgr.timers t).mRecurring = true → ∀ j, j ≠ i → ¬ Taken p j t)
    (own : Own p i s o) :
    Inv ⟨s, Function.update p.ops i o⟩ := by
  refine inv.next good grows same ?_ ?_ ?_ (late.trans inv.heeded.late)
    (defined.trans inv.heeded.defined) own
  · intro j u distinct taken recurring
    obtain ⟨absent, fresh, -⟩ := inv.out j u taken recurring
    constructor
    · intro member
      rcases into u member with rfl | old
      · exact untaken recurring j distinct taken
      · exact absent old
    · rw [← Bool.not_eq_true]
      intro done
      rw [(cancelled u done).2] at fresh
      cases fresh
  · intro j u _ erasing
    obtain ⟨_, _, here⟩ := erasing
    have member := (inv.valid j _ u _ here).2.1
    refine ⟨stays u member, ?_⟩
    rw [epoch]
    exact counted_of_mem member
  · intro u done
    obtain ⟨other, before⟩ := cancelled u done
    obtain ⟨known, absent⟩ := inv.cancelled u before
    refine ⟨Nat.lt_of_lt_of_le known grows, fun member => ?_⟩
    rcases into u member with this | old
    · exact other this
    · exact absent old

/-! ## The sections -/

/-- A timer that is armed is not cancelled any more. -/
theorem update_false {f : ℕ → Bool} {u : ℕ} (done : Function.update f t false u = true) :
    u ≠ t ∧ f u = true := by
  by_cases here : u = t
  · rw [here, Function.update_self] at done
    cases done
  · rw [Function.update_of_ne here] at done
    exact ⟨here, done⟩

/-- `addTimer(ms, cb, recurring)`. -/
theorem Inv.add (inv : Inv p) (ms : UInt64) (cb : Option F) (recurring : Bool) (now : UInt64) :
    Inv ⟨{ p.shared with
        mgr := p.shared.mgr.edits (p.shared.mgr.addTimer ms cb recurring now).1
        epoch := p.shared.counted p.shared.mgr.created
        cancelled := Function.update p.shared.cancelled p.shared.mgr.created false },
      Function.update p.ops i none⟩ := by
  have fresh : ∀ u < p.shared.mgr.created, u ≠ p.shared.mgr.created := fun u known => by omega
  refine inv.puts (t := p.shared.mgr.created) (inv.good.edits (safe_addTimer _ ms cb recurring now))
    (Nat.le_succ _) ?_ (fun u => KeyedSet.mem_of_mem_insert)
    (fun u => KeyedSet.mem_insert_of_mem) rfl (fun u => update_false) rfl rfl ?_ trivial
  · intro u known
    exact congrArg Timer.mRecurring (timers_create_ne (fresh u known))
  · intro _ j _ taken
    exact fresh _ (inv.known j _ taken) rfl

/-- `addTimer(timer)`, called by the user. -/
theorem Inv.put (inv : Inv p) (known : t < p.shared.mgr.created)
    (untaken : (p.shared.mgr.timers t).mRecurring = true → ∀ j, ¬ Taken p j t) :
    Inv ⟨{ p.shared with
        mgr := p.shared.mgr.edits (addTimerPtr t)
        epoch := p.shared.counted t
        cancelled := Function.update p.shared.cancelled t false },
      Function.update p.ops i none⟩ := by
  have safe : SafeEdits p.shared.mgr (addTimerPtr t) := safeEdits_cons.mpr ⟨known, safeEdits_nil⟩
  exact inv.puts (t := t) (inv.good.edits safe) (Nat.le_refl _) (fun u _ => rfl)
    (fun u => KeyedSet.mem_of_mem_insert) (fun u => KeyedSet.mem_insert_of_mem) rfl
    (fun u => update_false) rfl rfl (fun recurring j _ => untaken recurring j) trivial

/-- The section of `GetExpiredCb` that takes the expired timers out. -/
theorem Inv.extract (inv : Inv p) {now : UInt64}
    (undue : ∀ j t, Erasing p j t → now < (p.shared.mgr.timers t).mNext) :
    Inv ⟨{ p.shared with
        mgr := p.shared.mgr.edits ((p.shared.mgr.expired now).map Edit.erase)
        late := p.shared.late ++ (p.shared.mgr.expired now).filter p.shared.cancelled },
      Function.update p.ops i (loops (p.shared.mgr.expired now))⟩ := by
  have good := inv.good
  have members : ∀ u, u ∈ p.shared.mgr.expired now → u ∈ p.shared.mgr.mTimers :=
    fun u member => (good.mem_expired.mp member).1
  have none_late : (p.shared.mgr.expired now).filter p.shared.cancelled = [] := by
    rw [List.filter_eq_nil_iff]
    intro u member done
    exact (inv.cancelled u done).2 (members u member)
  rw [good.after_cut now, none_late, List.append_nil]
  refine inv.next (good.remaining now) (Nat.le_refl _) (fun u _ => rfl) ?_ ?_ ?_
    inv.heeded.late inv.heeded.defined ?_
  · intro j u _ taken recurring
    obtain ⟨absent, fresh, -⟩ := inv.out j u taken recurring
    exact ⟨fun member => absent (mem_remaining.mp member).1, fresh⟩
  · intro j u _ erasing
    obtain ⟨_, _, here⟩ := erasing
    have member := (inv.valid j _ u _ here).2.1
    exact ⟨mem_remaining.mpr ⟨member, undue j u ⟨_, _, here⟩⟩, rfl⟩
  · intro u done
    obtain ⟨known, absent⟩ := inv.cancelled u done
    exact ⟨known, fun member => absent (mem_remaining.mp member).1⟩
  · have nodup := (good.expired_ordered now).nodup
    cases taken : p.shared.mgr.expired now with
    | nil => trivial
    | cons item temp =>
      rw [taken] at nodup
      refine ⟨nodup, fun u member => ?_⟩
      rw [← taken] at member
      obtain ⟨inside, due⟩ := good.mem_expired.mp member
      refine ⟨good.known u inside, fun recurring => ⟨fun left => ?_, ?_, fun j _ also => ?_⟩⟩
      · exact UInt64.not_lt.mpr due (mem_remaining.mp left).2
      · rw [← Bool.not_eq_true]
        exact fun done => (inv.cancelled u done).2 inside
      · exact (inv.out j u also recurring).1 inside

/-- What the loop of `GetExpiredCb` leaves to its next round. -/
theorem Inv.own_loops (inv : Inv p) {item : ℕ} {temp : List ℕ}
    (here : p.ops i = some (.loop item temp)) (created : s.mgr.created = p.shared.mgr.created)
    (same : ∀ u, (s.mgr.timers u).mRecurring = (p.shared.mgr.timers u).mRecurring)
    (into : ∀ u ∈ s.mgr.mTimers, u = item ∨ u ∈ p.shared.mgr.mTimers)
    (cancelled : s.cancelled = p.shared.cancelled) : Own p i s (loops temp) := by
  obtain ⟨out, nodup⟩ := List.nodup_cons.mp (inv.nodup i item temp here)
  have taken : ∀ u ∈ temp, Taken p i u :=
    fun u member => ⟨item, temp, here, List.mem_cons_of_mem item member⟩
  cases temp with
  | nil => trivial
  | cons next temp =>
    refine ⟨nodup, fun u member => ⟨created ▸ inv.known i u (taken u member), fun again => ?_⟩⟩
    rw [same] at again
    obtain ⟨absent, fresh, alone⟩ := inv.out i u (taken u member) again
    refine ⟨fun inside => ?_, cancelled ▸ fresh, fun j distinct also => distinct (alone j also)⟩
    rcases into u inside with rfl | old
    · exact out member
    · exact absent old

/-- The loop of `GetExpiredCb` at a recurring timer. -/
theorem Inv.again (inv : Inv p) {item : ℕ} {temp : List ℕ} (now : UInt64)
    (here : p.ops i = some (.loop item temp))
    (recurring : (p.shared.mgr.timers item).mRecurring = true) :
    Inv ⟨{ p.shared with
        mgr := p.shared.mgr.edits (p.shared.mgr.rearm (fun _ => now) 0 [item])
        epoch := p.shared.counted item
        obs := p.shared.obs ++ [(p.shared.mgr.timers item).mCb] },
      Function.update p.ops i (loops temp)⟩ := by
  have taken : Taken p i item := ⟨item, temp, here, List.mem_cons_self⟩
  obtain ⟨absent, fresh, alone⟩ := inv.out i item taken recurring
  obtain ⟨-, rearmed⟩ := rearm_spec p.shared.mgr (fun _ => now) 0 [item] p.shared.mgr inv.good
    (List.nodup_cons.mpr ⟨List.not_mem_nil, List.nodup_nil⟩) fun u member => by
      rw [List.mem_singleton.mp member]
      exact ⟨absent, inv.known i item taken⟩
  have into : ∀ u ∈ (p.shared.mgr.edits (p.shared.mgr.rearm (fun _ => now) 0 [item])).mTimers,
      u = item ∨ u ∈ p.shared.mgr.mTimers := by
    intro u member
    rcases rearmed.origin u member with old | ⟨new, -⟩
    · exact .inr old
    · exact .inl (List.mem_singleton.mp new)
  have same : ∀ u, ((p.shared.mgr.edits
      (p.shared.mgr.rearm (fun _ => now) 0 [item])).timers u).mRecurring =
        (p.shared.mgr.timers u).mRecurring := by
    intro u
    simp only [rearm, recurring, if_true, edits_cons, edits_nil, timers_insert]
    apply recurring_assign
    exact fun _ => rfl
  refine inv.puts (t := item) rearmed.good rearmed.created.symm.le (fun u _ => same u) into
    rearmed.kept rfl ?_ rfl rfl (fun _ j distinct also => distinct (alone j also))
    (inv.own_loops here rearmed.created same into rfl)
  intro u done
  refine ⟨fun this => ?_, done⟩
  rw [← this, show p.shared.cancelled u = true from done] at fresh
  cases fresh

/-- The loop of `GetExpiredCb` at any other timer. -/
theorem Inv.once (inv : Inv p) {item : ℕ} {temp : List ℕ} (now : UInt64)
    (here : p.ops i = some (.loop item temp))
    (once : (p.shared.mgr.timers item).mRecurring = false) :
    Inv ⟨{ p.shared with
        mgr := p.shared.mgr.edits (p.shared.mgr.rearm (fun _ => now) 0 [item])
        obs := p.shared.obs ++ [(p.shared.mgr.timers item).mCb] },
      Function.update p.ops i (loops temp)⟩ := by
  have one : p.shared.mgr.edits (p.shared.mgr.rearm (fun _ => now) 0 [item]) =
      p.shared.mgr.edit (.assign item fun v => { v with mCb := none }) := by
    simp only [rearm, once, Bool.false_eq_true, if_false, edits_cons, edits_nil]
  rw [one]
  have same := recurring_assign (F := F) (t := item) (f := fun v => { v with mCb := none })
    p.shared.mgr (fun _ => rfl)
  have keys : ∀ u, (p.shared.mgr.edit (.assign item fun v => { v with mCb := none })).key u =
      p.shared.mgr.key u := by
    intro u
    by_cases this : u = item
    · rw [this, key, timers_assign_self]
      rfl
    · exact key_eq (timers_assign_ne this)
  have good : Good (p.shared.mgr.edit (.assign item fun v => { v with mCb := none })) :=
    ⟨inv.good.ordered.congr fun u _ => keys u, inv.good.known⟩
  refine inv.next good (Nat.le_refl _) (fun u _ => same u) ?_ ?_ inv.cancelled
    inv.heeded.late inv.heeded.defined
    (inv.own_loops here rfl same (fun u member => .inr member) rfl)
  · intro j u _ taken recurring
    exact ⟨(inv.out j u taken recurring).1, (inv.out j u taken recurring).2.1⟩
  · intro j u _ erasing
    obtain ⟨_, _, found⟩ := erasing
    exact ⟨(inv.valid j _ u _ found).2.1, rfl⟩

/-- A step that stays clear keeps the invariant. -/
theorem Inv.keep {a : Act (TimerOp F) UInt64} (inv : Inv p) (ok : Distinct p ∧ Clear p a)
    (edge : step p a = some q) : Inv q := by
  obtain ⟨distinct, clear⟩ := ok
  cases a with
  | enter i op =>
    obtain ⟨-, rfl⟩ := step_enter edge
    cases op with
    | _ => exact inv.stay trivial
  | run i now =>
    obtain ⟨pc, s, o, here, moved, rfl⟩ := step_run edge
    have clear := clear pc here
    cases pc with
    | add ms cb recurring =>
      cases moved
      exact inv.add ms cb recurring now
    | put t =>
      obtain ⟨known, moved⟩ := Option.ite_none_right_eq_some.mp moved
      cases moved
      exact inv.put known clear
    | find t =>
      obtain ⟨known, moved⟩ := Option.ite_none_right_eq_some.mp moved
      cases found : p.shared.mgr.find t with
      | none =>
        rw [found] at moved
        cases moved
        have absent : t ∉ p.shared.mgr.mTimers := by
          intro member
          rw [inv.good.find_self member] at found
          cases found
        refine inv.returns (t := t) inv.good rfl rfl ?_ rfl rfl rfl rfl known
          (fun recurring j _ => clear.2 recurring j) fun j _ => clear.1 j
        intro u
        refine ⟨fun member => ⟨?_, member⟩, And.right⟩
        rintro rfl
        exact absent member
      | some it =>
        rw [found] at moved
        cases moved
        obtain ⟨member, key⟩ := inv.good.find_eq_some.mp found
        obtain rfl : it = t := distinct it t (inv.good.known it member) known
          (UInt64.toNat_inj.mp key)
        exact inv.stay ⟨rfl, member, rfl, fun j _ => clear.1 j⟩
    | erase t it epoch =>
      obtain ⟨rfl, member, number, alone⟩ := inv.valid i t it epoch here
      rw [move, if_pos ⟨member, number⟩] at moved
      cases moved
      refine inv.returns (t := it) (inv.good.edit (e := .erase it) trivial) rfl rfl
        (fun u => inv.good.mem_erase) rfl rfl rfl rfl (inv.good.known it member) ?_
        fun j other erasing => other (alone j erasing)
      exact fun recurring j _ taken => (inv.out j it taken recurring).1 member
    | extract =>
      cases moved
      exact inv.extract clear
    | loop item temp =>
      cases moved
      cases recurring : (p.shared.mgr.timers item).mRecurring with
      | true => exact inv.again now here recurring
      | false => exact inv.once now here recurring

/-! ## Runs -/

/-- In a run with distinct deadlines that stays clear, no `GetExpiredCb` collects
a recurring timer on which a `cancel` has returned. -/
theorem heeded_along {as : List (Act (TimerOp F) UInt64)}
    (distinct : Always step Distinct (Pool.idle (init : SharedTimers F)) as)
    (clear : Along step Clear (Pool.idle (init : SharedTimers F)) as) :
    Always step Heeded (Pool.idle (init : SharedTimers F)) as :=
  (always_of_along Inv.keep inv_init (clear.and_always distinct)).mono fun _ => Inv.heeded

/-- Timers are never forgotten. -/
theorem created_le_step {a : Act (TimerOp F) UInt64} (edge : step p a = some q) :
    p.shared.mgr.created ≤ q.shared.mgr.created := by
  cases a with
  | enter i op =>
    obtain ⟨-, rfl⟩ := step_enter edge
    exact Nat.le_refl _
  | run i now =>
    obtain ⟨pc, s, o, -, moved, rfl⟩ := step_run edge
    cases pc with
    | add | extract | loop =>
      cases moved
      exact created_edits_le _ _
    | put t =>
      obtain ⟨-, moved⟩ := Option.ite_none_right_eq_some.mp moved
      cases moved
      exact created_edits_le _ _
    | find t =>
      obtain ⟨-, moved⟩ := Option.ite_none_right_eq_some.mp moved
      cases found : p.shared.mgr.find t with
      | _ =>
        rw [found] at moved
        cases moved
        exact Nat.le_refl _
    | erase t it epoch =>
      unfold move at moved
      dsimp only at moved
      split_ifs at moved with valid
      · cases moved
        exact created_edit_le _ _
      · cases moved
        exact Nat.le_refl _

/-- A single timer has no deadline to share. -/
theorem distinct_of_one {as : List (Act (TimerOp F) UInt64)} (run : exec step p as = some q)
    (one : q.shared.mgr.created ≤ 1) : Always step Distinct p as := by
  have always : Always step (fun p => p.shared.mgr.created ≤ 1) p as :=
    always_of_last (fun edge after => (created_le_step edge).trans after) run one
  refine always.mono fun p one => ?_
  intro a b first second _
  omega

/-- A recurring timer expires, is put back and is cancelled. -/
def cancelAfter : List (Act (TimerOp Unit) UInt64) :=
  [.enter 0 (.addTimer 10 (some ()) true), .run 0 0, .enter 1 .getExpiredCb, .run 1 10,
    .run 1 10, .enter 0 (.cancel 0), .run 0 11, .run 0 11, .enter 1 .getExpiredCb, .run 1 20]

theorem heeded_cancelAfter : Always step Heeded (Pool.idle init) cancelAfter := by
  apply heeded_along
  · exact distinct_of_one rfl (Nat.le_refl 1)
  · refine along_cons trivial rfl ?_
    refine along_cons (fun _ here => by cases here; trivial) rfl ?_
    refine along_cons trivial rfl ?_
    refine along_cons ?_ rfl ?_
    · rintro _ ⟨⟩ j t ⟨u, epoch, here⟩
      match j with
      | 0 => cases here
      | 1 => cases here
      | j + 2 => cases here
    refine along_cons (fun _ here => by cases here; trivial) rfl ?_
    refine along_cons trivial rfl ?_
    refine along_cons ?_ rfl ?_
    · rintro _ ⟨⟩
      constructor
      · rintro j ⟨u, epoch, here⟩
        match j with
        | 0 => cases here
        | 1 => cases here
        | j + 2 => cases here
      · rintro - j ⟨item, temp, here, -⟩
        match j with
        | 0 => cases here
        | 1 => cases here
        | j + 2 => cases here
    refine along_cons (fun _ here => by cases here; trivial) rfl ?_
    refine along_cons trivial rfl ?_
    refine along_cons ?_ rfl trivial
    rintro _ ⟨⟩ j t ⟨u, epoch, here⟩
    match j with
    | 0 => cases here
    | 1 => cases here
    | j + 2 => cases here

/-- The same timer, cancelled before it is put back. -/
def cancelBetween : List (Act (TimerOp Unit) UInt64) :=
  [.enter 0 (.addTimer 10 (some ()) true), .run 0 0, .enter 1 .getExpiredCb, .run 1 10,
    .enter 0 (.cancel 0), .run 0 11, .run 1 11, .enter 1 .getExpiredCb, .run 1 21]

/-- All deadlines are distinct, `cancel` has returned false, and the timer is
collected again. -/
theorem cancelBetween_collected : Always step Distinct (Pool.idle init) cancelBetween ∧
    (∃ p, exec step (Pool.idle init) cancelBetween = some p ∧
      p.shared.answers = [(0, false)] ∧ p.shared.late = [0]) ∧
    ¬ Always step Heeded (Pool.idle init) cancelBetween := by
  refine ⟨?_, ⟨_, rfl, rfl, rfl⟩, ?_⟩
  · exact distinct_of_one rfl (Nat.le_refl 1)
  · intro always
    have last := always.last rfl
    cases last.late

end Sylar.SharedTimers
