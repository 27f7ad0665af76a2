import Mathlib.Data.List.TakeWhile
import Sylar.Timer.Model

/-!
# The order of the timer set

`m_timers` is ordered by a field that five member functions assign. This module
shows that they never assign it to an element: every call takes a timer out of
the set before it moves the deadline. The edits of a call are followed one by
one, so the statement covers the inside of a call too.

* `Edit.Safe` is what an edit may do; `Good.edit` says that safe edits keep the
  set in order, and `Good.body` that every edit of every call is safe.
* `Good.getExpiredCb` is the loop of `GetExpiredCb` after the cut.
* `TimerManager.expiry_in_order` is the statement about whole runs.
-/

namespace Sylar

variable {F C W : Type}

namespace TimerManager

/-- `m_timers` is strictly increasing in `m_next`. -/
def Increasing (s : TimerManager F) : Prop :=
  s.mTimers.Pairwise fun a b => (s.timers a).mNext < (s.timers b).mNext

/-- One edit as a step. -/
def editStep (s : TimerManager F) (e : Edit F) : Option (TimerManager F) := some (s.edit e)

@[simp] theorem edits_nil (s : TimerManager F) : s.edits [] = s := rfl

@[simp] theorem edits_cons (s : TimerManager F) (e : Edit F) (es : List (Edit F)) :
    s.edits (e :: es) = (s.edit e).edits es := rfl

theorem edits_append (s : TimerManager F) (es fs : List (Edit F)) :
    s.edits (es ++ fs) = (s.edits es).edits fs := List.foldl_append

theorem exec_editStep (s : TimerManager F) (es : List (Edit F)) :
    Runs.exec editStep s es = some (s.edits es) := by
  induction es generalizing s with
  | nil => rfl
  | cons e es ih => exact ih (s.edit e)

/-! ## The edits, field by field -/

section Fields

variable (s : TimerManager F) (v : Timer F) (f : Timer F → Timer F) (t : ℕ)

@[simp] theorem mTimers_create : (s.edit (.create v)).mTimers = s.mTimers := rfl
@[simp] theorem created_create : (s.edit (.create v)).created = s.created + 1 := rfl
@[simp] theorem timers_create_self : (s.edit (.create v)).timers s.created = v :=
  Function.update_self ..
@[simp] theorem mTimers_erase : (s.edit (.erase t)).mTimers = s.mTimers.erase t := rfl
@[simp] theorem created_erase : (s.edit (.erase t)).created = s.created := rfl
@[simp] theorem timers_erase : (s.edit (.erase t)).timers = s.timers := rfl
@[simp] theorem mTimers_assign : (s.edit (.assign t f)).mTimers = s.mTimers := rfl
@[simp] theorem created_assign : (s.edit (.assign t f)).created = s.created := rfl
@[simp] theorem timers_assign_self : (s.edit (.assign t f)).timers t = f (s.timers t) :=
  Function.update_self ..
@[simp] theorem mTimers_insert :
    (s.edit (.insert t)).mTimers = KeyedSet.insert s.key t s.mTimers := rfl
@[simp] theorem created_insert : (s.edit (.insert t)).created = s.created := rfl
@[simp] theorem timers_insert : (s.edit (.insert t)).timers = s.timers := rfl

variable {s v f t}

theorem timers_create_ne (other : t ≠ s.created) :
    (s.edit (.create v)).timers t = s.timers t := Function.update_of_ne other ..

theorem timers_assign_ne {u : ℕ} (other : u ≠ t) :
    (s.edit (.assign t f)).timers u = s.timers u := Function.update_of_ne other ..

theorem key_eq {u : TimerManager F} (same : u.timers t = s.timers t) : u.key t = s.key t := by
  unfold key
  rw [same]

end Fields

theorem recurring_assign (s : TimerManager F) {f : Timer F → Timer F} {t : ℕ}
    (same : ∀ v, (f v).mRecurring = v.mRecurring) (u : ℕ) :
    ((s.edit (.assign t f)).timers u).mRecurring = (s.timers u).mRecurring := by
  by_cases here : u = t
  · rw [here, timers_assign_self, same]
  · rw [timers_assign_ne here]

/-- Timers are never forgotten. -/
theorem created_edit_le (s : TimerManager F) (e : Edit F) : s.created ≤ (s.edit e).created := by
  cases e with
  | create v => exact Nat.le_succ s.created
  | erase t => exact Nat.le_refl s.created
  | assign t f => exact Nat.le_refl s.created
  | insert t => exact Nat.le_refl s.created

theorem created_edits_le (s : TimerManager F) (es : List (Edit F)) :
    s.created ≤ (s.edits es).created := by
  induction es generalizing s with
  | nil => exact Nat.le_refl s.created
  | cons e es ih => exact (created_edit_le s e).trans (ih (s.edit e))

/-! ## Safe edits -/

/-- The set is in order and its elements are timers that were created. -/
structure Good (s : TimerManager F) : Prop where
  ordered : KeyedSet.Ordered s.key s.mTimers
  known : ∀ t ∈ s.mTimers, t < s.created

end TimerManager

/-- An edit that does not assign the deadline of an element. -/
def Edit.Safe (s : TimerManager F) : Edit F → Prop
  | .create _ | .erase _ => True
  | .assign t _ => t ∉ s.mTimers
  | .insert t => t < s.created

namespace TimerManager

/-- The deadlines of the timers that stay in the set are not changed. -/
def KeyKept (s : TimerManager F) (e : Edit F) : Prop :=
  ∀ t ∈ s.mTimers, t ∈ (s.edit e).mTimers → ((s.edit e).timers t).mNext = (s.timers t).mNext

variable {s : TimerManager F} {t u : ℕ}

theorem good_empty : Good (empty : TimerManager F) :=
  ⟨KeyedSet.ordered_nil, fun _ member => nomatch member⟩

theorem Good.timers_create (good : Good s) {v : Timer F} (member : t ∈ s.mTimers) :
    (s.edit (.create v)).timers t = s.timers t := by
  have known := good.known t member
  exact timers_create_ne (by omega)

/-- A safe edit keeps the set in order. -/
theorem Good.edit (good : Good s) {e : Edit F} (safe : e.Safe s) : Good (s.edit e) := by
  cases e with
  | create v =>
    refine ⟨good.ordered.congr fun t member => ?_, fun t member => ?_⟩
    · exact key_eq (good.timers_create member)
    · have known := good.known t member
      simp only [created_create]
      omega
  | erase t =>
    exact ⟨good.ordered.erase t, fun u member => good.known u (List.mem_of_mem_erase member)⟩
  | assign t f =>
    refine ⟨good.ordered.congr fun u member => ?_, good.known⟩
    have other : u ≠ t := fun same => safe (same ▸ member)
    exact key_eq (timers_assign_ne other)
  | insert t =>
    refine ⟨good.ordered.insert t, fun u member => ?_⟩
    rcases KeyedSet.mem_of_mem_insert member with rfl | old
    · exact safe
    · exact good.known u old

theorem Good.keyKept (good : Good s) {e : Edit F} (safe : e.Safe s) : KeyKept s e := by
  intro t member _
  cases e with
  | create v => rw [good.timers_create member]
  | erase u => rfl
  | assign u f =>
    have other : t ≠ u := fun same => safe (same ▸ member)
    rw [timers_assign_ne other]
  | insert u => rfl

/-- Every edit of the list is safe in the state it is made in. -/
abbrev SafeEdits (s : TimerManager F) (es : List (Edit F)) : Prop :=
  Runs.Along editStep (fun u e => e.Safe u) s es

theorem safeEdits_nil : SafeEdits s [] := trivial

theorem safeEdits_cons {e : Edit F} {es : List (Edit F)} :
    SafeEdits s (e :: es) ↔ e.Safe s ∧ SafeEdits (s.edit e) es := by
  refine ⟨fun along => along _ rfl, fun both u edge => ?_⟩
  cases edge
  exact both

theorem safeEdits_append {l r : List (Edit F)} (first : SafeEdits s l)
    (second : SafeEdits (s.edits l) r) : SafeEdits s (l ++ r) := by
  induction l generalizing s with
  | nil => exact second
  | cons e l ih =>
    have parts := safeEdits_cons.mp first
    exact safeEdits_cons.mpr ⟨parts.1, ih parts.2 second⟩

theorem Good.always (good : Good s) {es : List (Edit F)} (safe : SafeEdits s es) :
    Runs.Always editStep Good s es := by
  refine Runs.always_of_along (C := fun u e => e.Safe u) ?_ good safe
  intro u e v good safe edge
  cases edge
  exact good.edit safe

theorem Good.edits (good : Good s) {es : List (Edit F)} (safe : SafeEdits s es) :
    Good (s.edits es) := (good.always safe).last (exec_editStep s es)

theorem Good.keysKept (good : Good s) {es : List (Edit F)} (safe : SafeEdits s es) :
    Runs.Along editStep KeyKept s es := by
  induction es generalizing s with
  | nil => trivial
  | cons e es ih =>
    have parts := safeEdits_cons.mp safe
    intro u edge
    cases edge
    exact ⟨good.keyKept parts.1, ih (good.edit parts.1) parts.2⟩

/-! ## Taking one element out, moving it, putting it back -/

theorem Good.find_eq_some (good : Good s) :
    s.find t = some u ↔ u ∈ s.mTimers ∧ s.key u = s.key t := good.ordered.find_eq_some

/-- A pending timer finds itself. -/
theorem Good.find_self (good : Good s) (member : t ∈ s.mTimers) : s.find t = some t :=
  good.ordered.find_self member

theorem Good.not_mem_erase (good : Good s) : t ∉ (s.edit (.erase t)).mTimers := by
  intro member
  exact (good.ordered.mem_erase.mp member).1 rfl

theorem Good.safe_move (good : Good s) (member : t ∈ s.mTimers) (f : Timer F → Timer F) :
    SafeEdits s [.erase t, .assign t f, .insert t] := by
  refine safeEdits_cons.mpr ⟨trivial, safeEdits_cons.mpr ⟨good.not_mem_erase, ?_⟩⟩
  exact safeEdits_cons.mpr ⟨good.known t member, safeEdits_nil⟩

theorem Good.mem_erase (good : Good s) : u ∈ s.mTimers.erase t ↔ u ≠ t ∧ u ∈ s.mTimers :=
  good.ordered.mem_erase

/-- An element that is moved is back in the set unless another element has the
new deadline; the other elements stay. -/
theorem Good.mem_move (good : Good s) (member : t ∈ s.mTimers) (f : Timer F → Timer F) :
    u ∈ (s.edits [.erase t, .assign t f, .insert t]).mTimers ↔
      u ∈ s.mTimers ∧ (u = t → ∀ x ∈ s.mTimers, x ≠ t →
        (s.timers x).mNext ≠ (f (s.timers t)).mNext) := by
  set out := (s.edit (.erase t)).edit (.assign t f) with outDef
  have goodOut : Good out :=
    (good.edit (e := .erase t) trivial).edit (e := .assign t f) good.not_mem_erase
  have outMem : ∀ x, x ∈ out.mTimers ↔ x ≠ t ∧ x ∈ s.mTimers := fun x => good.mem_erase
  have outNext : ∀ x, x ≠ t → (out.timers x).mNext = (s.timers x).mNext := by
    intro x other
    rw [outDef, timers_assign_ne other]
    rfl
  have outSelf : (out.timers t).mNext = (f (s.timers t)).mNext := by
    rw [outDef, timers_assign_self]
    rfl
  have inserted : (s.edits [.erase t, .assign t f, .insert t]).mTimers =
      KeyedSet.insert out.key t out.mTimers := rfl
  rw [inserted, goodOut.ordered.mem_insert]
  constructor
  · intro either
    rcases either with old | ⟨rfl, free⟩
    · have apart := (outMem u).mp old
      exact ⟨apart.2, fun same => absurd same apart.1⟩
    · refine ⟨member, fun _ x inside other clash => other ?_⟩
      apply free x ((outMem x).mpr ⟨other, inside⟩)
      unfold key
      rw [outNext x other, clash, outSelf]
  · intro both
    by_cases same : u = t
    · refine .inr ⟨same, fun z inside clash => ?_⟩
      have apart := (outMem z).mp inside
      refine absurd ?_ (both.2 same z apart.2 apart.1)
      rw [← outNext z apart.1, ← outSelf]
      exact UInt64.toNat_inj.mp clash
    · exact .inl ((outMem u).mpr ⟨same, both.1⟩)

/-! ## The cut of `GetExpiredCb` -/

/-- The lower bound splits the set into what is before `now` and what is not. -/
theorem Good.lowerBound_split (good : Good s) (now : UInt64) :
    ∃ before after, s.mTimers = before ++ after ∧ s.lowerBound now = before.length ∧
      (∀ t ∈ before, (s.timers t).mNext < now) ∧ ∀ t ∈ after, now ≤ (s.timers t).mNext := by
  have down : ∀ x y, s.key x < s.key y → decide ((s.timers y).mNext < now) = true →
      decide ((s.timers x).mNext < now) = true := by
    intro x y lt below
    exact decide_eq_true (UInt64.lt_trans (UInt64.lt_iff_toNat_lt.mpr lt) (of_decide_eq_true below))
  refine ⟨_, _, (List.takeWhile_append_dropWhile ..).symm, rfl, fun t member => ?_,
    fun t member => ?_⟩
  · rw [good.ordered.takeWhile_eq_filter down] at member
    exact of_decide_eq_true (List.mem_filter.mp member).2
  · rw [good.ordered.dropWhile_eq_filter down] at member
    have late := (List.mem_filter.mp member).2
    simp only [Bool.not_eq_eq_eq_not, Bool.not_true, decide_eq_false_iff_not,
      UInt64.not_lt] at late
    exact late

/-- The cut of `GetExpiredCb` takes exactly the timers that are due, in order. -/
theorem Good.expired_eq (good : Good s) (now : UInt64) :
    s.expired now = s.mTimers.filter fun t => decide ((s.timers t).mNext ≤ now) := by
  obtain ⟨before, after, split, bound, early, late⟩ := good.lowerBound_split now
  have ordered : KeyedSet.Ordered s.key (before ++ after) := split ▸ good.ordered
  have allBefore : before.filter (fun t => decide ((s.timers t).mNext ≤ now)) = before :=
    List.filter_eq_self.mpr fun t member => decide_eq_true (UInt64.le_of_lt (early t member))
  unfold expired cut
  rw [bound, split, List.filter_append, allBefore]
  cases after with
  | nil => simp only [List.append_nil, List.getElem?_length, List.take_length, List.filter_nil]
  | cons t after =>
    have later : after.filter (fun u => decide ((s.timers u).mNext ≤ now)) = [] := by
      refine List.filter_eq_nil_iff.mpr fun u member due => ?_
      have lt := (List.pairwise_append.mp ordered).2.1
      have past : (s.timers t).mNext < (s.timers u).mNext :=
        UInt64.lt_iff_toNat_lt.mpr ((KeyedSet.ordered_cons.mp lt).1 u member)
      have start := late t List.mem_cons_self
      exact absurd (UInt64.lt_of_le_of_lt start past) (UInt64.not_lt.mpr (of_decide_eq_true due))
    have here : (before ++ t :: after)[before.length]? = some t := by
      rw [List.getElem?_append_right (Nat.le_refl _), Nat.sub_self, List.getElem?_cons_zero]
    simp only [here, List.filter_cons, later]
    by_cases same : (s.timers t).mNext = now
    · rw [if_pos same, if_pos (decide_eq_true (UInt64.le_of_eq same))]
      simp only [List.take_append, List.take_of_length_le (Nat.le_succ _),
        Nat.add_sub_cancel_left, List.take_succ_cons, List.take_zero]
    · have notDue : ¬ decide ((s.timers t).mNext ≤ now) = true := by
        intro due
        exact same (UInt64.le_antisymm (of_decide_eq_true due) (late t List.mem_cons_self))
      rw [if_neg same, if_neg notDue]
      simp only [List.take_left, List.append_nil]

/-- Erasing the first elements one by one leaves the rest. -/
theorem edits_erase_prefix (s : TimerManager F) (temp rest : List ℕ)
    (split : s.mTimers = temp ++ rest) :
    s.edits (temp.map Edit.erase) = { s with mTimers := rest } := by
  induction temp generalizing s with
  | nil =>
    have same : s.mTimers = rest := split
    simp only [List.map_nil, edits_nil, ← same]
  | cons t temp ih =>
    have next : (s.edit (.erase t)).mTimers = temp ++ rest := by
      rw [mTimers_erase, split, List.cons_append, List.erase_cons_head]
    rw [List.map_cons, edits_cons, ih _ next]
    rfl

theorem safeEdits_erase (s : TimerManager F) (temp : List ℕ) :
    SafeEdits s (temp.map Edit.erase) := by
  induction temp generalizing s with
  | nil => exact safeEdits_nil
  | cons t temp ih => exact safeEdits_cons.mpr ⟨trivial, ih _⟩

/-- After the cut: the timers that are not due, in order. -/
theorem Good.after_cut (good : Good s) (now : UInt64) :
    s.edits ((s.expired now).map Edit.erase) =
      { s with mTimers := s.mTimers.filter fun t => !decide ((s.timers t).mNext ≤ now) } := by
  have down : ∀ x y, s.key x < s.key y → decide ((s.timers y).mNext ≤ now) = true →
      decide ((s.timers x).mNext ≤ now) = true := by
    intro x y lt below
    exact decide_eq_true (UInt64.le_of_lt (UInt64.lt_of_lt_of_le
      (UInt64.lt_iff_toNat_lt.mpr lt) (of_decide_eq_true below)))
  refine edits_erase_prefix s _ _ ?_
  rw [good.expired_eq, ← good.ordered.takeWhile_eq_filter down,
    ← good.ordered.dropWhile_eq_filter down, List.takeWhile_append_dropWhile]

theorem count_insert_le (m : TimerManager F) (u t : ℕ) :
    (m.edit (.insert u)).mTimers.count t ≤ (u :: m.mTimers).count t := by
  rw [mTimers_insert]
  rcases KeyedSet.insert_perm m.key u m.mTimers with same | added
  · rw [same]
    exact List.count_le_count_cons
  · exact (added.count_eq t).le

/-- An edit that puts nothing in leaves no more in the set than before. -/
theorem count_edit_le {e : Edit F} (outside : ∀ u, e ≠ .insert u) (m : TimerManager F) (t : ℕ) :
    (m.edit e).mTimers.count t ≤ m.mTimers.count t := by
  cases e with
  | create v | assign u f => exact Nat.le_refl _
  | erase u => exact List.Sublist.count_le t List.erase_sublist
  | insert u => exact absurd rfl (outside u)

/-- The cut of `GetExpiredCb` splits the set. -/
theorem mTimers_expired (m : TimerManager F) (now : UInt64) :
    m.mTimers = m.expired now ++ (m.edits ((m.expired now).map Edit.erase)).mTimers := by
  have split : m.mTimers = m.expired now ++ m.mTimers.drop (m.cut now) :=
    (List.take_append_drop (m.cut now) m.mTimers).symm
  have rest := edits_erase_prefix m _ _ split
  rw [rest]
  exact split

/-- A timer that is taken out is due. -/
theorem le_of_expired {now : UInt64} (out : t ∈ s.expired now) : (s.timers t).mNext ≤ now := by
  have early {u : ℕ} (member : u ∈ s.mTimers.take (s.lowerBound now)) :
      (s.timers u).mNext < now := by
    have before : s.mTimers.take (s.lowerBound now) =
        s.mTimers.takeWhile fun t => decide ((s.timers t).mNext < now) :=
      (List.prefix_iff_eq_take.mp (List.takeWhile_prefix _)).symm
    rw [before] at member
    have below := List.mem_takeWhile_imp member
    exact of_decide_eq_true below
  unfold expired cut at out
  dsimp only at out
  split at out
  · next u here =>
    split at out
    · next same =>
      rw [List.take_add_one, here] at out
      rcases List.mem_append.mp out with old | new
      · exact UInt64.le_of_lt (early old)
      · cases List.mem_singleton.mp new
        exact UInt64.le_of_eq same
    · exact UInt64.le_of_lt (early out)
  · exact UInt64.le_of_lt (early out)

/-! ## The loop of `GetExpiredCb` -/

/-- What the loop over the timers taken out does, from any state `u` in which
none of them is in the set: `s` is the state the call was made in. -/
structure Rearmed (s u v : TimerManager F) (temp : List ℕ) : Prop where
  good : Good v
  created : v.created = u.created
  others : ∀ t, t ∉ temp → v.timers t = u.timers t
  kept : ∀ t ∈ u.mTimers, t ∈ v.mTimers
  origin : ∀ t ∈ v.mTimers, t ∈ u.mTimers ∨ (t ∈ temp ∧ (s.timers t).mRecurring = true)

theorem rearm_spec (s : TimerManager F) (clock : ℕ → UInt64) (k : ℕ) (temp : List ℕ)
    (u : TimerManager F) (good : Good u) (nodup : temp.Nodup)
    (out : ∀ t ∈ temp, t ∉ u.mTimers ∧ t < u.created) :
    SafeEdits u (s.rearm clock k temp) ∧ Rearmed s u (u.edits (s.rearm clock k temp)) temp := by
  induction temp generalizing u k with
  | nil => exact ⟨safeEdits_nil, good, rfl, fun _ _ => rfl, fun _ member => member, fun _ => .inl⟩
  | cons item temp ih =>
    have fresh := List.nodup_cons.mp nodup
    have itemOut := out item List.mem_cons_self
    unfold rearm
    split_ifs with recurring
    · -- the recurring timer is put back, so the rest of the loop starts from a larger set
      set f : Timer F → Timer F := fun v => { v with mNext := clock k + v.mGap }
      have safe : SafeEdits u [.assign item f, .insert item] :=
        safeEdits_cons.mpr ⟨itemOut.1, safeEdits_cons.mpr ⟨itemOut.2, safeEdits_nil⟩⟩
      have goodNext := good.edits safe
      have outNext : ∀ t ∈ temp, t ∉ (u.edits [.assign item f, .insert item]).mTimers ∧
          t < (u.edits [.assign item f, .insert item]).created := by
        intro t member
        have tOut := out t (List.mem_cons_of_mem item member)
        refine ⟨fun inside => ?_, tOut.2⟩
        rcases KeyedSet.mem_of_mem_insert inside with rfl | old
        · exact fresh.1 member
        · exact tOut.1 old
      obtain ⟨safeRest, rest⟩ := ih (k + 1) _ goodNext fresh.2 outNext
      refine ⟨safeEdits_append (l := [.assign item f, .insert item]) safe safeRest, rest.good,
        rest.created, fun t other => ?_, fun t member => ?_, fun t member => ?_⟩
      · have apart := not_or.mp (List.mem_cons.not.mp other)
        exact (rest.others t apart.2).trans (timers_assign_ne apart.1)
      · exact rest.kept t (KeyedSet.mem_insert_of_mem member)
      · rcases rest.origin t member with inside | ⟨later, again⟩
        · rcases KeyedSet.mem_of_mem_insert inside with rfl | old
          · exact .inr ⟨List.mem_cons_self, recurring⟩
          · exact .inl old
        · exact .inr ⟨List.mem_cons_of_mem item later, again⟩
    · set f : Timer F → Timer F := fun v => { v with mCb := none }
      have safe : SafeEdits u [.assign item f] := safeEdits_cons.mpr ⟨itemOut.1, safeEdits_nil⟩
      have outNext : ∀ t ∈ temp, t ∉ (u.edits [.assign item f]).mTimers ∧
          t < (u.edits [.assign item f]).created :=
        fun t member => out t (List.mem_cons_of_mem item member)
      obtain ⟨safeRest, rest⟩ := ih k _ (good.edits safe) fresh.2 outNext
      refine ⟨safeEdits_append (l := [.assign item f]) safe safeRest, rest.good, rest.created,
        fun t other => ?_, rest.kept, fun t member => ?_⟩
      · have apart := not_or.mp (List.mem_cons.not.mp other)
        exact (rest.others t apart.2).trans (timers_assign_ne apart.1)
      · rcases rest.origin t member with inside | ⟨later, again⟩
        · exact .inl inside
        · exact .inr ⟨List.mem_cons_of_mem item later, again⟩

/-- The set right after the cut, before the loop. -/
def remaining (s : TimerManager F) (now : UInt64) : TimerManager F :=
  { s with mTimers := s.mTimers.filter fun t => !decide ((s.timers t).mNext ≤ now) }

theorem mem_remaining {now : UInt64} :
    t ∈ (s.remaining now).mTimers ↔ t ∈ s.mTimers ∧ now < (s.timers t).mNext := by
  simp only [remaining, List.mem_filter, Bool.not_eq_eq_eq_not, Bool.not_true,
    decide_eq_false_iff_not, UInt64.not_le]

theorem Good.remaining (good : Good s) (now : UInt64) : Good (s.remaining now) :=
  ⟨good.ordered.sublist List.filter_sublist,
    fun t member => good.known t (List.mem_filter.mp member).1⟩

theorem Good.mem_expired (good : Good s) {now : UInt64} :
    t ∈ s.expired now ↔ t ∈ s.mTimers ∧ (s.timers t).mNext ≤ now := by
  rw [good.expired_eq, List.mem_filter, decide_eq_true_eq]

theorem Good.expired_ordered (good : Good s) (now : UInt64) :
    KeyedSet.Ordered s.key (s.expired now) := by
  rw [good.expired_eq]
  exact good.ordered.sublist List.filter_sublist

/-- `GetExpiredCb` makes safe edits only, and after the cut it puts back
nothing but recurring timers that were due. -/
theorem Good.getExpiredCb (good : Good s) (now : UInt64) (clock : ℕ → UInt64) :
    SafeEdits s (s.getExpiredCb now clock).1 ∧
      Rearmed s (s.remaining now) (s.edits (s.getExpiredCb now clock).1) (s.expired now) := by
  have out : ∀ t ∈ s.expired now,
      t ∉ (s.remaining now).mTimers ∧ t < (s.remaining now).created := by
    intro t member
    have due := good.mem_expired.mp member
    refine ⟨fun inside => ?_, good.known t due.1⟩
    exact absurd (mem_remaining.mp inside).2 (UInt64.not_lt.mpr due.2)
  obtain ⟨safe, result⟩ := rearm_spec s clock 0 (s.expired now) (s.remaining now)
    (good.remaining now) (good.expired_ordered now).nodup out
  have cutEdits : s.edits ((s.expired now).map Edit.erase) = s.remaining now := good.after_cut now
  unfold TimerManager.getExpiredCb
  refine ⟨safeEdits_append (safeEdits_erase s _) (cutEdits ▸ safe), ?_⟩
  rw [edits_append, cutEdits]
  exact result

/-! ## New timers -/

/-- A new timer is in the set unless another one has its deadline. -/
theorem Good.mem_addTimer (good : Good s) (ms : UInt64) (cb : Option F) (recurring : Bool)
    (now : UInt64) : s.created ∈ (s.edits (s.addTimer ms cb recurring now).1).mTimers ↔
      ∀ x ∈ s.mTimers, (s.timers x).mNext ≠ now + ms := by
  set v : Timer F := ⟨ms, now + ms, recurring, cb, true⟩
  have made : Good (s.edit (.create v)) := good.edit (e := .create v) trivial
  have deadline : (s.edit (.create v)).key s.created = (now + ms).toNat := by
    unfold key
    rw [timers_create_self]
  have others : ∀ x ∈ s.mTimers, (s.edit (.create v)).key x = (s.timers x).mNext.toNat := by
    intro x member
    unfold key
    rw [good.timers_create member]
  refine made.ordered.mem_insert_self.trans
    ⟨fun free x member clash => ?_, fun free x member clash => ?_⟩
  · have same := free x member (by rw [others x member, deadline, clash])
    exact Nat.ne_of_lt (good.known x member) same
  · rw [others x member, deadline] at clash
    exact absurd (UInt64.toNat_inj.mp clash) (free x member)

/-! ## Every call is safe -/

theorem safe_addTimer (s : TimerManager F) (ms : UInt64) (cb : Option F) (recurring : Bool)
    (now : UInt64) : SafeEdits s (s.addTimer ms cb recurring now).1 :=
  safeEdits_cons.mpr ⟨trivial, safeEdits_cons.mpr ⟨Nat.lt_succ_self s.created, safeEdits_nil⟩⟩

theorem safe_cancel (s : TimerManager F) (t : ℕ) : SafeEdits s (Timer.cancel s t).1 := by
  unfold Timer.cancel
  split
  · exact safeEdits_nil
  · exact safeEdits_cons.mpr ⟨trivial, safeEdits_nil⟩

/-- After `cancel` the timer asked is out of the set, whether it was in or not. -/
theorem Good.not_mem_cancel (good : Good s) : t ∉ (s.edits (Timer.cancel s t).1).mTimers := by
  unfold Timer.cancel
  cases found : s.find t with
  | none =>
    intro member
    rw [good.find_self member] at found
    cases found
  | some it =>
    intro member
    have inside := List.mem_of_mem_erase member
    rw [good.find_self inside] at found
    cases found
    exact good.not_mem_erase member

theorem Good.safe_reset (good : Good s) : SafeEdits s (Timer.reset s t) :=
  safeEdits_append (safe_cancel s t)
    (safeEdits_cons.mpr ⟨good.not_mem_cancel, safeEdits_nil⟩)

theorem Good.safe_refresh (good : Good s) (now : UInt64) :
    SafeEdits s (Timer.refresh s t now) := by
  unfold Timer.refresh
  split
  · exact safeEdits_nil
  · rename_i temp found
    exact good.safe_move (good.find_eq_some.mp found).1 _

theorem Good.safe_resetGap (good : Good s) (gap : UInt64) (fromNow : Bool) (now : UInt64) :
    SafeEdits s (Timer.resetGap s t gap fromNow now) := by
  unfold Timer.resetGap
  split
  · exact safeEdits_nil
  · rename_i temp found
    exact good.safe_move (good.find_eq_some.mp found).1 _

variable {m m' : TimerManager (TimerFn C W)} {c : TimerCall C W}

/-- Every edit of every call is safe. -/
theorem Good.body (good : Good m) (enabled : c.enabled m = true) : SafeEdits m (c.body m) := by
  cases c with
  | addTimer ms cb recurring now => exact safe_addTimer m ms (cb.map .fn) recurring now
  | addTimerPtr t =>
    have valid : t < m.created := by
      simp only [TimerCall.enabled, TimerCall.target, Bool.and_eq_true,
        decide_eq_true_eq] at enabled
      exact enabled.1
    exact safeEdits_cons.mpr ⟨valid, safeEdits_nil⟩
  | addCondtionTimer ms cb weakCond recurring now =>
    exact safe_addTimer m ms (some (.onTimer weakCond cb)) recurring now
  | cancel t => exact safe_cancel m t
  | refresh t now => exact good.safe_refresh now
  | reset t => exact good.safe_reset
  | resetGap t gap fromNow now => exact good.safe_resetGap ..
  | getExpiredCb now clock => exact (good.getExpiredCb now clock).1

theorem step_eq_some : step m c = some m' ↔ c.enabled m = true ∧ m' = m.edits (c.body m) := by
  unfold step
  split_ifs with enabled
  · simp only [Option.some.injEq, enabled, true_and, eq_comm]
  · simp only [enabled, false_and, reduceCtorEq]

theorem Good.next (good : Good m) (edge : step m c = some m') : Good m' := by
  obtain ⟨enabled, rfl⟩ := step_eq_some.mp edge
  exact good.edits (good.body enabled)

theorem good_of_exec {calls : List (TimerCall C W)} (run : Runs.exec step empty calls = some m) :
    Good m := Runs.exec_inv (fun good edge => good.next edge) good_empty run

/-- In every state that calls on one manager and its timers reach, the set is
strictly increasing in `m_next`; it stays so after each edit of any further
call, and no edit changes the deadline of a timer that is in the set. For every
clock reading, `GetExpiredCb` appends exactly the callbacks of the timers due,
each once and in the order of their deadlines; it leaves the timers that are
not due where they are, and no one-shot timer that was due in the set. -/
theorem expiry_in_order {calls : List (TimerCall C W)}
    (run : Runs.exec step empty calls = some m) :
    m.Increasing ∧
      (∀ c : TimerCall C W, c.enabled m = true →
        Runs.Always editStep Increasing m (c.body m) ∧
          Runs.Along editStep KeyKept m (c.body m)) ∧
      ∀ (now : UInt64) (clock : ℕ → UInt64), ∃ due : List ℕ,
        (∀ t, t ∈ due ↔ t ∈ m.mTimers ∧ (m.timers t).mNext ≤ now) ∧
        due.Pairwise (fun a b => (m.timers a).mNext < (m.timers b).mNext) ∧
        (m.getExpiredCb now clock).2 = due.map (fun t => (m.timers t).mCb) ∧
        (∀ t ∈ m.mTimers, now < (m.timers t).mNext →
          t ∈ (m.edits (m.getExpiredCb now clock).1).mTimers ∧
            ((m.edits (m.getExpiredCb now clock).1).timers t).mNext = (m.timers t).mNext) ∧
        ∀ t ∈ due, (m.timers t).mRecurring = false →
          t ∉ (m.edits (m.getExpiredCb now clock).1).mTimers := by
  have good := good_of_exec run
  refine ⟨good.ordered, fun c enabled => ?_, fun now clock => ?_⟩
  · have safe := good.body enabled
    exact ⟨(good.always safe).mono fun u inner => inner.ordered, good.keysKept safe⟩
  · obtain ⟨-, after⟩ := good.getExpiredCb now clock
    refine ⟨m.expired now, fun t => good.mem_expired, good.expired_ordered now, rfl,
      fun t member late => ?_, fun t member oneShot inside => ?_⟩
    · have stays := mem_remaining.mpr ⟨member, late⟩
      have notDue : t ∉ m.expired now := by
        intro due
        exact absurd (good.mem_expired.mp due).2 (UInt64.not_le.mpr late)
      refine ⟨after.kept t stays, ?_⟩
      rw [after.others t notDue]
      rfl
    · rcases after.origin t inside with late | ⟨-, recurring⟩
      · exact absurd (good.mem_expired.mp member).2 (UInt64.not_le.mpr (mem_remaining.mp late).2)
      · rw [oneShot] at recurring
        cases recurring

/-- A recurring timer and a one-shot timer that is due before it. -/
def twoTimers : List (TimerCall Unit Unit) :=
  [.addTimer 9 (some ()) true 100, .addTimer 5 none false 100]

theorem expiry_in_order_two :
    ∃ m, Runs.exec step empty twoTimers = some m ∧ m.mTimers = [1, 0] ∧ m.Increasing := by
  have run : Runs.exec step empty twoTimers = some _ := rfl
  exact ⟨_, run, by decide, (expiry_in_order run).1⟩

end TimerManager

end Sylar
