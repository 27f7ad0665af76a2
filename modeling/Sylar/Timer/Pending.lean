import Sylar.Timer.Order

/-!
# Pending timers

What the set is for: a timer is pending from `addTimer` until it is cancelled
or, if it is not recurring, collected. `Ledger` runs a manager beside this
account, and `Ledger.NoneLost` says that `m_timers` holds exactly the pending
timers.

The set keeps one element per deadline, so an insertion at a deadline that is
taken drops the timer, and a lookup by a timer that has left the set can hit
another one. `Ledger.NoClash` is the condition on a call that rules both out;
`Ledger.none_lost_iff` shows it to be exact.
-/

namespace Sylar

variable {F C W : Type}

namespace TimerManager

variable {s u : TimerManager F} {clock : ℕ → UInt64} {k : ℕ} {temp : List ℕ} {t : ℕ}

/-- The recurring timers among `temp`, each with the deadline it is put back
with. -/
def rearmed (s : TimerManager F) (clock : ℕ → UInt64) : ℕ → List ℕ → List (ℕ × UInt64)
  | _, [] => []
  | k, item :: temp =>
    if (s.timers item).mRecurring then
      (item, clock k + (s.timers item).mGap) :: rearmed s clock (k + 1) temp
    else rearmed s clock k temp

theorem rearmed_fst : (s.rearmed clock k temp).map Prod.fst =
    temp.filter fun t => (s.timers t).mRecurring := by
  induction temp generalizing k with
  | nil => rfl
  | cons item temp ih =>
    unfold rearmed
    rw [List.filter_cons]
    split_ifs
    · rw [List.map_cons, ih]
    · exact ih

theorem mem_of_rearmed {p : ℕ × UInt64} (member : p ∈ s.rearmed clock k temp) :
    p.1 ∈ temp ∧ (s.timers p.1).mRecurring = true := by
  have first : p.1 ∈ (s.rearmed clock k temp).map Prod.fst := List.mem_map_of_mem member
  rw [rearmed_fst] at first
  exact List.mem_filter.mp first

theorem exists_rearmed (member : t ∈ temp) (recurring : (s.timers t).mRecurring = true) :
    ∃ d, (t, d) ∈ s.rearmed clock k temp := by
  have first : t ∈ (s.rearmed clock k temp).map Prod.fst := by
    rw [rearmed_fst]
    exact List.mem_filter.mpr ⟨member, recurring⟩
  obtain ⟨p, inside, rfl⟩ := List.mem_map.mp first
  exact ⟨p.2, inside⟩

theorem rearmed_nodup (nodup : temp.Nodup) : (s.rearmed clock k temp).Nodup := by
  refine List.Nodup.of_map Prod.fst ?_
  rw [rearmed_fst]
  exact nodup.filter _

theorem timers_rearm_of_not_mem (other : t ∉ temp) :
    (u.edits (s.rearm clock k temp)).timers t = u.timers t := by
  induction temp generalizing u k with
  | nil => rfl
  | cons item temp ih =>
    have apart := not_or.mp (List.mem_cons.not.mp other)
    unfold rearm
    split_ifs
    · simp only [edits_cons]
      rw [ih apart.2, timers_insert, timers_assign_ne apart.1]
    · simp only [edits_cons]
      rw [ih apart.2, timers_assign_ne apart.1]

/-- A new deadline for the first timer of the batch leaves the others as they were. -/
theorem same_of_assign {item : ℕ} (fresh : item ∉ temp)
    (same : ∀ t ∈ item :: temp, u.timers t = s.timers t) (f : Timer F → Timer F) :
    ∀ t ∈ temp, (u.edit (.assign item f)).timers t = s.timers t := by
  intro t inside
  have other : t ≠ item := fun eq => fresh (eq ▸ inside)
  rw [timers_assign_ne other]
  exact same t (List.mem_cons_of_mem item inside)

/-- The loop leaves each recurring timer with its new deadline, whether or not
the set takes it back. -/
theorem deadline_of_rearmed {p : ℕ × UInt64} (nodup : temp.Nodup)
    (same : ∀ t ∈ temp, u.timers t = s.timers t) (member : p ∈ s.rearmed clock k temp) :
    ((u.edits (s.rearm clock k temp)).timers p.1).mNext = p.2 := by
  induction temp generalizing u k with
  | nil => cases member
  | cons item temp ih =>
    have fresh := List.nodup_cons.mp nodup
    have sameNext := same_of_assign fresh.1 same
    by_cases recurring : (s.timers item).mRecurring = true
    · unfold rearmed at member
      unfold rearm
      rw [if_pos recurring] at member ⊢
      rcases List.mem_cons.mp member with rfl | later
      · simp only [edits_cons]
        rw [timers_rearm_of_not_mem fresh.1, timers_insert, timers_assign_self,
          same item List.mem_cons_self]
      · exact ih fresh.2 (sameNext fun v => { v with mNext := clock k + v.mGap }) later
    · unfold rearmed at member
      unfold rearm
      rw [if_neg recurring] at member ⊢
      exact ih fresh.2 (sameNext _) member

/-- A timer that is re-armed at a free deadline is back in the set. -/
theorem Good.mem_rearmed (good : Good u) (out : t ∉ u.mTimers) (known : t < u.created)
    (f : Timer F → Timer F)
    (free : ∀ x ∈ u.mTimers, (u.timers x).mNext ≠ (f (u.timers t)).mNext) :
    Good ((u.edit (.assign t f)).edit (.insert t)) ∧
      t ∈ ((u.edit (.assign t f)).edit (.insert t)).mTimers := by
  have assigned : Good (u.edit (.assign t f)) := good.edit (e := .assign t f) out
  refine ⟨assigned.edit (e := .insert t) known, ?_⟩
  refine assigned.ordered.mem_insert_self.mpr fun x inside clash => ?_
  refine absurd ?_ (free x inside)
  have other : x ≠ t := fun same => out (same ▸ inside)
  have next := UInt64.toNat_inj.mp clash
  rwa [timers_assign_self, timers_assign_ne other] at next

/-- With deadlines that differ from each other and from those in the set, every
recurring timer is taken back. -/
theorem mem_of_free_deadlines (good : Good u) (nodup : temp.Nodup)
    (out : ∀ t ∈ temp, t ∉ u.mTimers ∧ t < u.created)
    (same : ∀ t ∈ temp, u.timers t = s.timers t)
    (apart : ((s.rearmed clock k temp).map Prod.snd).Nodup)
    (free : ∀ p ∈ s.rearmed clock k temp, ∀ x ∈ u.mTimers, (u.timers x).mNext ≠ p.2) :
    ∀ p ∈ s.rearmed clock k temp, p.1 ∈ (u.edits (s.rearm clock k temp)).mTimers := by
  induction temp generalizing u k with
  | nil => exact fun _ member => nomatch member
  | cons item temp ih =>
    have fresh := List.nodup_cons.mp nodup
    have itemOut := out item List.mem_cons_self
    have sameNext := same_of_assign fresh.1 same
    have nextUnchanged : ∀ f : Timer F → Timer F, ∀ x ∈ u.mTimers,
        (u.edit (.assign item f)).timers x = u.timers x := by
      intro f x inside
      exact timers_assign_ne fun eq => itemOut.1 (eq ▸ inside)
    unfold rearmed at apart free ⊢
    unfold rearm
    by_cases recurring : (s.timers item).mRecurring = true
    · rw [if_pos recurring] at apart free ⊢
      rw [if_pos recurring]
      set f : Timer F → Timer F := fun v => { v with mNext := clock k + v.mGap } with fDef
      have apartRest := List.nodup_cons.mp apart
      have deadline : (f (u.timers item)).mNext = clock k + (s.timers item).mGap := by
        rw [fDef, same item List.mem_cons_self]
      -- the item goes in: its deadline is free
      obtain ⟨goodNext, inserted⟩ := good.mem_rearmed itemOut.1 itemOut.2 f fun x inside clash =>
        free _ List.mem_cons_self x inside (clash.trans deadline)
      have outNext : ∀ t ∈ temp, t ∉ ((u.edit (.assign item f)).edit (.insert item)).mTimers ∧
          t < ((u.edit (.assign item f)).edit (.insert item)).created := by
        intro t inside
        have tOut := out t (List.mem_cons_of_mem item inside)
        refine ⟨fun held => ?_, tOut.2⟩
        rcases KeyedSet.mem_of_mem_insert held with rfl | old
        · exact fresh.1 inside
        · exact tOut.1 old
      have freeNext : ∀ p ∈ s.rearmed clock (k + 1) temp,
          ∀ x ∈ ((u.edit (.assign item f)).edit (.insert item)).mTimers,
            (((u.edit (.assign item f)).edit (.insert item)).timers x).mNext ≠ p.2 := by
        intro p later x held
        rw [timers_insert]
        rcases KeyedSet.mem_of_mem_insert held with rfl | old
        · rw [timers_assign_self, deadline]
          intro clash
          exact apartRest.1 (List.mem_map.mpr ⟨p, later, clash.symm⟩)
        · rw [nextUnchanged f x old]
          exact free p (List.mem_cons_of_mem _ later) x old
      intro p member
      rcases List.mem_cons.mp member with rfl | later
      · exact (rearm_spec s clock (k + 1) temp _ goodNext fresh.2 outNext).2.kept item inserted
      · exact ih goodNext fresh.2 outNext (sameNext f) apartRest.2 freeNext p later
    · rw [if_neg recurring] at apart free ⊢
      rw [if_neg recurring]
      set f : Timer F → Timer F := fun v => { v with mCb := none }
      have goodAssign : Good (u.edit (.assign item f)) := good.edit (e := .assign item f) itemOut.1
      refine ih goodAssign fresh.2 (fun t inside => out t (List.mem_cons_of_mem item inside))
        (sameNext f) apart fun p member x held => ?_
      rw [nextUnchanged f x held]
      exact free p member x held

theorem Good.expired_out (good : Good s) (now : UInt64) :
    ∀ t ∈ s.expired now, t ∉ (s.remaining now).mTimers ∧ t < (s.remaining now).created := by
  intro t member
  have due := good.mem_expired.mp member
  refine ⟨fun inside => ?_, good.known t due.1⟩
  exact absurd (mem_remaining.mp inside).2 (UInt64.not_lt.mpr due.2)

theorem Good.edits_getExpiredCb (good : Good s) (now : UInt64) (clock : ℕ → UInt64) :
    s.edits (s.getExpiredCb now clock).1 =
      (s.remaining now).edits (s.rearm clock 0 (s.expired now)) := by
  have cutEdits : s.edits ((s.expired now).map Edit.erase) = s.remaining now := good.after_cut now
  unfold TimerManager.getExpiredCb
  rw [edits_append, cutEdits]

end TimerManager

/-! ## The ledger -/

/-- A manager, and which timers were cancelled or collected as one-shot timers. -/
structure Ledger (C W : Type) where
  mgr : TimerManager (TimerFn C W)
  cancelled : List ℕ
  collected : List ℕ

namespace Ledger

open TimerManager

def start : Ledger C W := ⟨TimerManager.empty, [], []⟩

/-- What a call adds to the timers cancelled. -/
def cancels : TimerCall C W → List ℕ
  | .cancel t => [t]
  | _ => []

/-- What a call adds to the one-shot timers collected. -/
def collects (w : Ledger C W) : TimerCall C W → List ℕ
  | .getExpiredCb now _ =>
    (w.mgr.expired now).filter fun t => !(w.mgr.timers t).mRecurring
  | _ => []

/-- The calls the ledger follows: those that neither detach a timer nor put one
into the set from outside. -/
def follows : TimerCall C W → Bool
  | .addTimerPtr _ | .reset _ => false
  | _ => true

def step (w : Ledger C W) (c : TimerCall C W) : Option (Ledger C W) :=
  if follows c then
    (TimerManager.step w.mgr c).map fun mgr =>
      ⟨mgr, cancels c ++ w.cancelled, w.collects c ++ w.collected⟩
  else none

/-- `m_timers` holds exactly the timers that were created and neither cancelled
nor collected as one-shot timers. -/
def NoneLost (w : Ledger C W) : Prop :=
  ∀ t, t ∈ w.mgr.mTimers ↔ t < w.mgr.created ∧ t ∉ w.cancelled ∧ t ∉ w.collected

/-- A recurring timer that `GetExpiredCb` collects is back when it returns. -/
def RecurringBack (w : Ledger C W) : TimerCall C W → Prop
  | .getExpiredCb now clock =>
    ∀ t ∈ w.mgr.expired now, (w.mgr.timers t).mRecurring = true →
      t ∈ (w.mgr.edits (w.mgr.getExpiredCb now clock).1).mTimers
  | _ => True

/-- No pending timer other than `t` has the deadline `d`. -/
def FreeFor (w : Ledger C W) (t : ℕ) (d : UInt64) : Prop :=
  ∀ x ∈ w.mgr.mTimers, x ≠ t → (w.mgr.timers x).mNext ≠ d

/-- The call puts no timer at a deadline that another pending timer has, and
cancels no timer that has left the set while another one there has its
deadline. -/
def NoClash (w : Ledger C W) : TimerCall C W → Prop
  | .addTimer ms _ _ now | .addCondtionTimer ms _ _ _ now => w.FreeFor w.mgr.created (now + ms)
  | .cancel t => t ∈ w.mgr.mTimers ∨ w.FreeFor t (w.mgr.timers t).mNext
  | .refresh t now =>
    ∀ it ∈ w.mgr.mTimers, (w.mgr.timers it).mNext = (w.mgr.timers t).mNext →
      w.FreeFor it (now + (w.mgr.timers t).mGap)
  | .resetGap t gap fromNow now =>
    ∀ it ∈ w.mgr.mTimers, (w.mgr.timers it).mNext = (w.mgr.timers t).mNext →
      w.FreeFor it (if fromNow then now + gap else (w.mgr.timers it).mNext - gap)
  | .getExpiredCb now clock =>
    let back := w.mgr.rearmed clock 0 (w.mgr.expired now)
    (back.map Prod.snd).Nodup ∧
      ∀ p ∈ back, ∀ x ∈ w.mgr.mTimers, now < (w.mgr.timers x).mNext → (w.mgr.timers x).mNext ≠ p.2
  | .addTimerPtr _ | .reset _ => True

/-- What every run keeps, whatever is lost. -/
structure Inv (w : Ledger C W) : Prop where
  good : Good w.mgr
  cancelled : ∀ t ∈ w.cancelled, t < w.mgr.created
  collected : ∀ t ∈ w.collected, t < w.mgr.created

variable {w w' : Ledger C W} {c : TimerCall C W}

theorem inv_start : Inv (start : Ledger C W) :=
  ⟨good_empty, List.forall_mem_nil _, List.forall_mem_nil _⟩

/-- What a step of the ledger is. -/
theorem step_cases (edge : step w c = some w') :
    follows c = true ∧ c.enabled w.mgr = true ∧
      w' = ⟨w.mgr.edits (c.body w.mgr), cancels c ++ w.cancelled, w.collects c ++ w.collected⟩ := by
  unfold step at edge
  split_ifs at edge with followed
  obtain ⟨mgr, inner, rfl⟩ := Option.map_eq_some_iff.mp edge
  obtain ⟨enabled, rfl⟩ := step_eq_some.mp inner
  exact ⟨followed, enabled, rfl⟩

theorem Inv.step (inv : Inv w) (edge : step w c = some w') : Inv w' := by
  obtain ⟨-, enabled, rfl⟩ := step_cases edge
  have grows := created_edits_le w.mgr (c.body w.mgr)
  refine ⟨inv.good.edits (inv.good.body enabled), fun t member => ?_, fun t member => ?_⟩
  · rcases List.mem_append.mp member with new | old
    · cases c with
      | cancel u =>
        cases List.mem_singleton.mp new
        simp only [TimerCall.enabled, TimerCall.target, Bool.and_eq_true,
          decide_eq_true_eq] at enabled
        exact enabled.1.trans_le grows
      | _ => cases new
    · exact (inv.cancelled t old).trans_le grows
  · rcases List.mem_append.mp member with new | old
    · cases c with
      | getExpiredCb now clock =>
        have due := inv.good.mem_expired.mp (List.mem_filter.mp new).1
        exact (inv.good.known t due.1).trans_le grows
      | _ => cases new
    · exact (inv.collected t old).trans_le grows

/-! ## One call at a time -/

section Calls

variable (inv : Inv w) (before : NoneLost w)
include inv before

/-- A new timer is pending, and in the set if its deadline is free. -/
theorem exact_addTimer (ms : UInt64) (cb : Option (TimerFn C W)) (recurring : Bool)
    (now : UInt64) :
    NoneLost ⟨w.mgr.edits (w.mgr.addTimer ms cb recurring now).1, w.cancelled, w.collected⟩ ↔
      w.FreeFor w.mgr.created (now + ms) := by
  have selfMem : w.mgr.created ∈ (w.mgr.edits (w.mgr.addTimer ms cb recurring now).1).mTimers ↔
      w.FreeFor w.mgr.created (now + ms) :=
    (inv.good.mem_addTimer ms cb recurring now).trans
      ⟨fun free x member _ => free x member,
        fun free x member => free x member (Nat.ne_of_lt (inv.good.known x member))⟩
  have outside : w.mgr.created ∉ w.cancelled ∧ w.mgr.created ∉ w.collected := by
    refine ⟨fun member => ?_, fun member => ?_⟩
    · exact absurd (inv.cancelled _ member) (Nat.lt_irrefl _)
    · exact absurd (inv.collected _ member) (Nat.lt_irrefl _)
  constructor
  · intro after
    exact selfMem.mp ((after w.mgr.created).mpr ⟨Nat.lt_succ_self _, outside⟩)
  · intro free t
    show t ∈ (w.mgr.edits (w.mgr.addTimer ms cb recurring now).1).mTimers ↔
      t < w.mgr.created + 1 ∧ t ∉ w.cancelled ∧ t ∉ w.collected
    by_cases new : t = w.mgr.created
    · subst new
      exact iff_of_true (selfMem.mpr free) ⟨Nat.lt_succ_self _, outside⟩
    · have old : t ∈ (w.mgr.edits (w.mgr.addTimer ms cb recurring now).1).mTimers ↔
          t ∈ w.mgr.mTimers := by
        refine ⟨fun member => ?_, fun member => KeyedSet.mem_insert_of_mem member⟩
        exact (KeyedSet.mem_of_mem_insert member).resolve_left new
      have lower : t < w.mgr.created + 1 ↔ t < w.mgr.created := by omega
      rw [old, before t, lower]

/-- A timer that `cancel` takes out was asked to leave, unless the lookup hit
another one. -/
theorem exact_cancel (t : ℕ) :
    NoneLost ⟨w.mgr.edits (Timer.cancel w.mgr t).1, t :: w.cancelled, w.collected⟩ ↔
      t ∈ w.mgr.mTimers ∨ w.FreeFor t (w.mgr.timers t).mNext := by
  unfold Timer.cancel
  cases found : w.mgr.find t with
  | none =>
    have free : ∀ x ∈ w.mgr.mTimers, w.mgr.key x ≠ w.mgr.key t := KeyedSet.find_eq_none.mp found
    refine iff_of_true (fun x => ?_) (.inr fun x member _ clash => free x member ?_)
    · show x ∈ w.mgr.mTimers ↔ x < w.mgr.created ∧ x ∉ t :: w.cancelled ∧ x ∉ w.collected
      have other : x ∈ w.mgr.mTimers → x ≠ t := fun member same => free x member (same ▸ rfl)
      rw [before x] at other ⊢
      rw [List.mem_cons, not_or]
      tauto
    · unfold key
      rw [clash]
  | some it =>
    have hit := inv.good.find_eq_some.mp found
    have result : ∀ x, x ∈ (w.mgr.edits [.erase it]).mTimers ↔ x ≠ it ∧ x ∈ w.mgr.mTimers :=
      fun x => inv.good.mem_erase
    constructor
    · intro after
      by_cases self : it = t
      · exact .inl (self ▸ hit.1)
      · have pending := (before it).mp hit.1
        have still := (after it).mpr
          ⟨pending.1, not_or.mpr ⟨self, pending.2.1⟩ ∘ List.mem_cons.mp, pending.2.2⟩
        exact absurd rfl ((result it).mp still).1
    · intro either
      have self : it = t := by
        rcases either with member | free
        · exact inv.good.ordered.eq_of_key hit.1 member hit.2
        · by_contra other
          exact free it hit.1 other (UInt64.toNat_inj.mp hit.2)
      subst self
      intro x
      refine (result x).trans ?_
      rw [before x]
      show _ ↔ x < w.mgr.created ∧ x ∉ it :: w.cancelled ∧ x ∉ w.collected
      rw [List.mem_cons, not_or]
      tauto

/-- Moving an element keeps it pending if its new deadline is free. -/
theorem exact_move {it : ℕ} (member : it ∈ w.mgr.mTimers)
    (f : Timer (TimerFn C W) → Timer (TimerFn C W)) :
    NoneLost ⟨w.mgr.edits [.erase it, .assign it f, .insert it], w.cancelled, w.collected⟩ ↔
      w.FreeFor it (f (w.mgr.timers it)).mNext := by
  have result := fun t => inv.good.mem_move (u := t) member f
  constructor
  · intro after
    exact ((result it).mp ((after it).mpr ((before it).mp member))).2 rfl
  · intro free t
    refine (result t).trans ((and_iff_left ?_).trans (before t))
    intro _
    exact free

/-- The element a lookup by `t` hits is the one that is moved. -/
theorem exact_found (t : ℕ) (f : Timer (TimerFn C W) → Timer (TimerFn C W)) :
    NoneLost ⟨w.mgr.edits (match w.mgr.find t with
        | none => []
        | some temp => [.erase temp, .assign temp f, .insert temp]), w.cancelled, w.collected⟩ ↔
      ∀ it ∈ w.mgr.mTimers, (w.mgr.timers it).mNext = (w.mgr.timers t).mNext →
        w.FreeFor it (f (w.mgr.timers it)).mNext := by
  cases found : w.mgr.find t with
  | none =>
    refine iff_of_true before fun it member same => ?_
    refine absurd ?_ (KeyedSet.find_eq_none.mp found it member)
    unfold key
    rw [same]
  | some temp =>
    have hit := inv.good.find_eq_some.mp found
    refine (exact_move inv before hit.1 f).trans ⟨fun free it member same => ?_, fun all => ?_⟩
    · have one : it = temp := by
        refine inv.good.ordered.eq_of_key member hit.1 (Eq.trans ?_ hit.2.symm)
        unfold key
        rw [same]
      exact one ▸ free
    · exact all temp hit.1 (UInt64.toNat_inj.mp hit.2)

/-- When none is lost, the recurring timers are back in an ordered set, so their
deadlines differ from each other and from those of the others. -/
theorem noClash_of_noneLost (now : UInt64) (clock : ℕ → UInt64)
    (kept : NoneLost ⟨w.mgr.edits (w.mgr.getExpiredCb now clock).1, w.cancelled,
        (w.mgr.expired now).filter (fun t => !(w.mgr.timers t).mRecurring) ++ w.collected⟩) :
    NoClash w (.getExpiredCb now clock) := by
  have good := inv.good
  obtain ⟨-, after⟩ := good.getExpiredCb now clock
  have nodup := (good.expired_ordered now).nodup
  have back : ∀ p ∈ w.mgr.rearmed clock 0 (w.mgr.expired now),
      p.1 ∈ (w.mgr.edits (w.mgr.getExpiredCb now clock).1).mTimers ∧
        ((w.mgr.edits (w.mgr.getExpiredCb now clock).1).timers p.1).mNext = p.2 := by
    intro p member
    obtain ⟨due, recurring⟩ := mem_of_rearmed member
    have pending := (before p.1).mp (good.mem_expired.mp due).1
    refine ⟨(kept p.1).mpr ⟨pending.1.trans_le (created_edits_le ..), pending.2.1, ?_⟩, ?_⟩
    · intro inside
      rcases List.mem_append.mp inside with new | old
      · have oneShot := (List.mem_filter.mp new).2
        simp only [recurring, Bool.not_true, Bool.false_eq_true] at oneShot
      · exact pending.2.2 old
    · rw [good.edits_getExpiredCb now clock]
      exact deadline_of_rearmed nodup (fun _ _ => rfl) member
  refine ⟨(rearmed_nodup nodup).map_on fun p hp q hq clash => ?_,
    fun p member x inside late clash => ?_⟩
  · have one : p.1 = q.1 := by
      refine after.good.ordered.eq_of_key (back p hp).1 (back q hq).1 ?_
      unfold key
      rw [(back p hp).2, (back q hq).2, clash]
    exact Prod.ext one clash
  · have stays := mem_remaining.mpr ⟨inside, late⟩
    have notDue : x ∉ w.mgr.expired now := by
      intro due
      exact absurd (good.mem_expired.mp due).2 (UInt64.not_le.mpr late)
    have one : x = p.1 := by
      refine after.good.ordered.eq_of_key (after.kept x stays) (back p member).1 ?_
      unfold key
      rw [(back p member).2, after.others x notDue, ← clash]
      rfl
    exact notDue (one ▸ (mem_of_rearmed member).1)

/-- The collected one-shot timers leave, and the recurring ones are back if
their new deadlines are free. -/
theorem exact_getExpiredCb (now : UInt64) (clock : ℕ → UInt64) :
    NoneLost ⟨w.mgr.edits (w.mgr.getExpiredCb now clock).1, w.cancelled,
        (w.mgr.expired now).filter (fun t => !(w.mgr.timers t).mRecurring) ++ w.collected⟩ ↔
      NoClash w (.getExpiredCb now clock) := by
  have good := inv.good
  obtain ⟨-, after⟩ := good.getExpiredCb now clock
  have nodup := (good.expired_ordered now).nodup
  have same : ∀ t ∈ w.mgr.expired now, (w.mgr.remaining now).timers t = w.mgr.timers t :=
    fun _ _ => rfl
  refine ⟨noClash_of_noneLost inv before now clock, fun clash t => ?_⟩
  have back := mem_of_free_deadlines (good.remaining now) nodup (good.expired_out now)
    same clash.1 fun p member x inside =>
      clash.2 p member x (mem_remaining.mp inside).1 (mem_remaining.mp inside).2
  show t ∈ (w.mgr.edits (w.mgr.getExpiredCb now clock).1).mTimers ↔
    t < (w.mgr.edits (w.mgr.getExpiredCb now clock).1).created ∧ t ∉ w.cancelled ∧ _
  rw [after.created]
  constructor
  · intro inside
    have pending : t ∈ w.mgr.mTimers ∧ (t ∈ w.mgr.expired now →
        (w.mgr.timers t).mRecurring = true) := by
      rcases after.origin t inside with stays | ⟨due, recurring⟩
      · refine ⟨(mem_remaining.mp stays).1, fun due => ?_⟩
        exact absurd (mem_remaining.mp stays).2 (UInt64.not_lt.mpr (good.mem_expired.mp due).2)
      · exact ⟨(good.mem_expired.mp due).1, fun _ => recurring⟩
    have account := (before t).mp pending.1
    refine ⟨account.1, account.2.1, fun member => ?_⟩
    rcases List.mem_append.mp member with new | old
    · have oneShot := (List.mem_filter.mp new).2
      simp only [pending.2 (List.mem_filter.mp new).1, Bool.not_true,
        Bool.false_eq_true] at oneShot
    · exact account.2.2 old
  · intro account
    have apart := not_or.mp (List.mem_append.not.mp account.2.2)
    have member := (before t).mpr ⟨account.1, account.2.1, apart.2⟩
    by_cases due : t ∈ w.mgr.expired now
    · have recurring : (w.mgr.timers t).mRecurring = true := by
        by_contra oneShot
        refine apart.1 (List.mem_filter.mpr ⟨due, ?_⟩)
        rw [Bool.eq_false_of_not_eq_true oneShot, Bool.not_false]
      obtain ⟨d, rearmed⟩ : ∃ d, (t, d) ∈ w.mgr.rearmed clock 0 (w.mgr.expired now) :=
        exists_rearmed due recurring
      rw [good.edits_getExpiredCb now clock]
      exact back (t, d) rearmed
    · refine after.kept t (mem_remaining.mpr ⟨member, ?_⟩)
      by_contra early
      exact due (good.mem_expired.mpr ⟨member, UInt64.not_lt.mp early⟩)

end Calls

/-! ## Runs -/

/-- A call keeps every pending timer if and only if it clashes with none. -/
theorem step_exact (inv : Inv w) (before : NoneLost w) (edge : step w c = some w') :
    NoneLost w' ↔ NoClash w c := by
  obtain ⟨followed, enabled, rfl⟩ := step_cases edge
  cases c with
  | addTimer ms cb recurring now =>
    exact exact_addTimer inv before ms (cb.map .fn) recurring now
  | addCondtionTimer ms cb weakCond recurring now =>
    exact exact_addTimer inv before ms (some (.onTimer weakCond cb)) recurring now
  | cancel t => exact exact_cancel inv before t
  | getExpiredCb now clock => exact exact_getExpiredCb inv before now clock
  | addTimerPtr t => cases followed
  | reset t => cases followed
  | refresh t now =>
    exact exact_found inv before t fun v => { v with mNext := now + (w.mgr.timers t).mGap }
  | resetGap t gap fromNow now =>
    exact exact_found inv before t fun v =>
      { v with mGap := gap, mNext := if fromNow then now + gap else v.mNext - gap }

theorem none_lost_start : NoneLost (start : Ledger C W) := by
  intro t
  refine iff_of_false (fun member => nomatch member) fun account => ?_
  exact absurd account.1 (Nat.not_lt_zero t)

/-- When nothing is lost before and after a call, a recurring timer that the
call collects is back. -/
theorem recurringBack_of_noneLost (inv : Inv w) (before : NoneLost w)
    (edge : step w c = some w') (after : NoneLost w') : RecurringBack w c := by
  obtain ⟨-, -, rfl⟩ := step_cases edge
  cases c with
  | getExpiredCb now clock =>
    intro t due recurring
    have pending := (before t).mp (inv.good.mem_expired.mp due).1
    refine (after t).mpr ⟨pending.1.trans_le (created_edits_le ..), pending.2.1, fun member => ?_⟩
    rcases List.mem_append.mp member with new | old
    · have oneShot := (List.mem_filter.mp new).2
      simp only [recurring, Bool.not_true, Bool.false_eq_true] at oneShot
    · exact pending.2.2 old
  | _ => trivial

/-- Over every run and all clock readings: `m_timers` holds exactly the pending
timers in every state, and `GetExpiredCb` puts every recurring timer back, if
and only if no call of the run clashes. -/
theorem none_lost_iff (calls : List (TimerCall C W)) :
    (Runs.Always step NoneLost start calls ∧ Runs.Along step RecurringBack start calls) ↔
      Runs.Along step NoClash start calls := by
  have rule : Runs.Always step NoneLost start calls ↔ Runs.Along step NoClash start calls :=
    Runs.always_iff_along (fun inv edge => inv.step edge)
      (fun inv before edge => step_exact inv before edge) inv_start none_lost_start
  refine ⟨fun both => rule.mp both.1, fun along => ⟨rule.mpr along, ?_⟩⟩
  exact Runs.along_of_always (fun inv edge => inv.step edge)
    (fun inv before edge after => recurringBack_of_noneLost inv before edge after)
    inv_start (rule.mpr along)

/-- Two timers of the same length added in the same millisecond: the second is
not taken into the set. -/
theorem none_lost_fails :
    ∃ (calls : List (TimerCall Unit Unit)) (w : Ledger Unit Unit),
      Runs.exec step start calls = some w ∧ ¬ NoneLost w := by
  refine ⟨[.addTimer 2000 none false 100, .addTimer 2000 none false 100], _, rfl, ?_⟩
  intro none_lost
  have account := (none_lost 1).mpr (by decide)
  revert account
  decide

end Ledger

end Sylar
