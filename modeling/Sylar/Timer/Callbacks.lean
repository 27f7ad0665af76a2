import Sylar.Timer.Alone

/-!
# Where the timers of the set and their callbacks come from

No call puts a timer into the set that was neither there before, nor is new, nor
is the timer the call is made on; and no call gives a timer a callback that was
neither the callback of a timer before nor came with the call.

* `not_mem_edits`, `callbacks_edits`: the two facts for a list of edits.
* `not_mem_step`, `callbacks_step`: the same for a call.
* `Leaves`, `Good.mem_step`: the calls that take a one-shot timer out of the set.
-/

namespace Sylar

/-- The callbacks an edit brings in satisfy `Q`: those of the timer it creates,
while an assignment keeps or clears the callback. -/
def Edit.Brings {F : Type} (Q : F → Prop) : Edit F → Prop
  | .create v => ∀ cb, v.mCb = some cb → Q cb
  | .assign _ f => ∀ v cb, (f v).mCb = some cb → v.mCb = some cb
  | _ => True

/-- The edit leaves the timer `t` recurring or not. -/
def Edit.KeepsKind {F : Type} (t : ℕ) : Edit F → Prop
  | .assign u f => u ≠ t ∨ ∀ v : Timer F, (f v).mRecurring = v.mRecurring
  | _ => True

namespace TimerManager

variable {F : Type} {s : TimerManager F} {x t : ℕ} {es : List (Edit F)} {Q : F → Prop}

/-- Every callback of a timer satisfies `Q`. -/
def Callbacks (Q : F → Prop) (s : TimerManager F) : Prop :=
  ∀ t cb, (s.timers t).mCb = some cb → Q cb

theorem not_mem_edits (out : x ∉ s.mTimers) (apart : Edit.insert x ∉ es) :
    x ∉ (s.edits es).mTimers := by
  induction es generalizing s with
  | nil => exact out
  | cons e es ih =>
    refine ih ?_ fun member => apart (List.mem_cons_of_mem e member)
    cases e with
    | create v => exact out
    | erase t => exact fun member => out (List.mem_of_mem_erase member)
    | assign t f => exact out
    | insert t =>
      intro member
      rcases KeyedSet.mem_of_mem_insert member with same | inside
      · exact apart (same ▸ List.mem_cons_self)
      · exact out inside

/-- A timer is written whose callback satisfies `Q`. -/
theorem callbacks_update (before : Callbacks Q s) {u created : ℕ} {v : Timer F}
    (brings : ∀ cb, v.mCb = some cb → Q cb) :
    Callbacks Q { s with timers := Function.update s.timers u v, created := created } := by
  intro t cb stored
  dsimp only at stored
  rw [Function.update_apply] at stored
  split at stored
  · exact brings cb stored
  · exact before t cb stored

theorem callbacks_edits (before : Callbacks Q s) (brings : ∀ e ∈ es, e.Brings Q) :
    Callbacks Q (s.edits es) := by
  induction es generalizing s with
  | nil => exact before
  | cons e es ih =>
    refine ih ?_ fun e' member => brings e' (List.mem_cons_of_mem e member)
    have here := brings e List.mem_cons_self
    cases e with
    | create v => exact callbacks_update before here
    | assign u f => exact callbacks_update before fun cb stored => before u cb (here _ cb stored)
    | erase t => exact before
    | insert t => exact before

theorem recurring_edits (old : x < s.created) (keeps : ∀ e ∈ es, e.KeepsKind x) :
    ((s.edits es).timers x).mRecurring = (s.timers x).mRecurring := by
  induction es generalizing s with
  | nil => rfl
  | cons e es ih =>
    have rest := ih (s := s.edit e) (old.trans_le (created_edit_le s e)) fun e' member =>
      keeps e' (List.mem_cons_of_mem e member)
    refine rest.trans ?_
    cases e with
    | create v => rw [timers_create_ne (by omega)]
    | assign u f =>
      rcases keeps _ List.mem_cons_self with other | same
      · rw [timers_assign_ne other.symm]
      · exact recurring_assign s same x
    | _ => rfl

/-! ## The calls -/

theorem apart_rearm (clock : ℕ → UInt64) (k : ℕ) {temp : List ℕ} (out : x ∉ temp) :
    Edit.insert x ∉ s.rearm clock k temp := by
  induction temp generalizing k with
  | nil => exact List.not_mem_nil
  | cons item temp ih =>
    have apart : x ≠ item := fun same => out (same ▸ List.mem_cons_self)
    have rest := fun k => ih k fun member => out (List.mem_cons_of_mem item member)
    unfold rearm
    split
    · simp only [List.mem_cons, reduceCtorEq, Edit.insert.injEq, apart, false_or]
      exact rest (k + 1)
    · simp only [List.mem_cons, reduceCtorEq, false_or]
      exact rest k

theorem brings_rearm (clock : ℕ → UInt64) (k : ℕ) (temp : List ℕ) :
    ∀ e ∈ s.rearm clock k temp, e.Brings Q := by
  induction temp generalizing k with
  | nil => exact List.forall_mem_nil _
  | cons item temp ih =>
    unfold rearm
    split
    · refine List.forall_mem_cons.mpr ⟨fun v cb stored => stored, ?_⟩
      exact List.forall_mem_cons.mpr ⟨trivial, ih (k + 1)⟩
    · refine List.forall_mem_cons.mpr ⟨fun v cb stored => ?_, ih k⟩
      cases stored

theorem mem_of_mem_expired {now : UInt64} (member : t ∈ s.expired now) : t ∈ s.mTimers :=
  List.mem_of_mem_take member

theorem apart_getExpiredCb (out : x ∉ s.mTimers) (now : UInt64) (clock : ℕ → UInt64) :
    Edit.insert x ∉ (s.getExpiredCb now clock).1 := by
  unfold getExpiredCb
  dsimp only
  rw [List.mem_append, not_or]
  refine ⟨fun member => ?_, apart_rearm clock 0 fun member => out (mem_of_mem_expired member)⟩
  obtain ⟨item, -, same⟩ := List.mem_map.mp member
  cases same

theorem brings_getExpiredCb (now : UInt64) (clock : ℕ → UInt64) :
    ∀ e ∈ (s.getExpiredCb now clock).1, e.Brings Q := by
  intro e member
  unfold getExpiredCb at member
  dsimp only at member
  rcases List.mem_append.mp member with erased | rearmed
  · obtain ⟨item, -, rfl⟩ := List.mem_map.mp erased
    trivial
  · exact brings_rearm clock 0 _ e rearmed

theorem keepsKind_rearm (clock : ℕ → UInt64) (k : ℕ) (temp : List ℕ) :
    ∀ e ∈ s.rearm clock k temp, e.KeepsKind x := by
  induction temp generalizing k with
  | nil => exact List.forall_mem_nil _
  | cons item temp ih =>
    unfold rearm
    split
    · refine List.forall_mem_cons.mpr ⟨.inr fun _ => rfl, ?_⟩
      exact List.forall_mem_cons.mpr ⟨trivial, ih (k + 1)⟩
    · exact List.forall_mem_cons.mpr ⟨.inr fun _ => rfl, ih k⟩

theorem keepsKind_getExpiredCb (now : UInt64) (clock : ℕ → UInt64) :
    ∀ e ∈ (s.getExpiredCb now clock).1, e.KeepsKind x := by
  intro e member
  unfold getExpiredCb at member
  dsimp only at member
  rcases List.mem_append.mp member with erased | rearmed
  · obtain ⟨item, -, rfl⟩ := List.mem_map.mp erased
    trivial
  · exact keepsKind_rearm clock 0 _ e rearmed

theorem apart_cancel (t : ℕ) : Edit.insert x ∉ (Timer.cancel s t).1 := by
  unfold Timer.cancel
  split
  · exact List.not_mem_nil
  · simp only [List.mem_cons, reduceCtorEq, List.not_mem_nil, or_self, not_false_eq_true]

theorem brings_cancel (t : ℕ) : ∀ e ∈ (Timer.cancel s t).1, e.Brings Q := by
  unfold Timer.cancel
  split
  · exact List.forall_mem_nil _
  · exact List.forall_mem_cons.mpr ⟨trivial, List.forall_mem_nil _⟩

theorem keepsKind_cancel (t : ℕ) : ∀ e ∈ (Timer.cancel s t).1, e.KeepsKind x := by
  unfold Timer.cancel
  split
  · exact List.forall_mem_nil _
  · exact List.forall_mem_cons.mpr ⟨trivial, List.forall_mem_nil _⟩

theorem apart_move {temp : ℕ} (apart : x ≠ temp) (f : Timer F → Timer F) :
    Edit.insert x ∉ [Edit.erase temp, .assign temp f, .insert temp] := by
  simp only [List.mem_cons, reduceCtorEq, Edit.insert.injEq, apart, List.not_mem_nil, or_self,
    not_false_eq_true]

theorem apart_refresh (good : Good s) (out : x ∉ s.mTimers) (now : UInt64) :
    Edit.insert x ∉ Timer.refresh s t now := by
  unfold Timer.refresh
  split
  · exact List.not_mem_nil
  · rename_i temp found
    have apart : x ≠ temp := fun same => out (same ▸ (good.find_eq_some.mp found).1)
    exact apart_move apart _

theorem apart_resetGap (good : Good s) (out : x ∉ s.mTimers) (gap : UInt64) (fromNow : Bool)
    (now : UInt64) : Edit.insert x ∉ Timer.resetGap s t gap fromNow now := by
  unfold Timer.resetGap
  split
  · exact List.not_mem_nil
  · rename_i temp found
    have apart : x ≠ temp := fun same => out (same ▸ (good.find_eq_some.mp found).1)
    exact apart_move apart _

/-- An element that is moved keeps its callback. -/
theorem brings_move {temp : ℕ} {f : Timer F → Timer F} (kept : ∀ v, (f v).mCb = v.mCb) :
    ∀ e ∈ [Edit.erase temp, .assign temp f, .insert temp], e.Brings Q := by
  refine List.forall_mem_cons.mpr ⟨trivial, List.forall_mem_cons.mpr ⟨?_, ?_⟩⟩
  · intro v cb stored
    rwa [kept] at stored
  · exact List.forall_mem_cons.mpr ⟨trivial, List.forall_mem_nil _⟩

theorem brings_refresh (t : ℕ) (now : UInt64) : ∀ e ∈ Timer.refresh s t now, e.Brings Q := by
  unfold Timer.refresh
  split
  · exact List.forall_mem_nil _
  · exact brings_move fun _ => rfl

theorem brings_resetGap (t : ℕ) (gap : UInt64) (fromNow : Bool) (now : UInt64) :
    ∀ e ∈ Timer.resetGap s t gap fromNow now, e.Brings Q := by
  unfold Timer.resetGap
  split
  · exact List.forall_mem_nil _
  · exact brings_move fun _ => rfl

theorem keepsKind_move {f : Timer F → Timer F} (t : ℕ)
    (same : ∀ v, (f v).mRecurring = v.mRecurring) : ∀ e ∈ findAndMove s t f, e.KeepsKind x := by
  unfold findAndMove
  split
  · exact List.forall_mem_nil _
  · exact List.forall_mem_cons.mpr ⟨trivial, List.forall_mem_cons.mpr ⟨.inr same,
      List.forall_mem_cons.mpr ⟨trivial, List.forall_mem_nil _⟩⟩⟩

section Calls

variable {C W : Type} {m m' : TimerManager (TimerFn C W)} {c : TimerCall C W}
  {R : TimerFn C W → Prop}

/-- The callbacks a call brings along satisfy `R`. -/
def CallBrings (R : TimerFn C W → Prop) : TimerCall C W → Prop
  | .addTimer _ cb _ _ => ∀ f, cb = some f → R (.fn f)
  | .addCondtionTimer _ cb weakCond _ _ => R (.onTimer weakCond cb)
  | _ => True

/-- A timer that is out of the set stays out, unless it is the timer of the
call. -/
theorem not_mem_step (good : Good m) (edge : m.step c = some m') (old : x < m.created)
    (out : x ∉ m.mTimers) (other : c.target ≠ some x) : x ∉ m'.mTimers := by
  obtain ⟨-, rfl⟩ := step_eq_some.mp edge
  apply not_mem_edits out
  have added : ∀ v : Timer (TimerFn C W), Edit.insert x ∉ [Edit.create v, .insert m.created] := by
    intro v
    have apart : x ≠ m.created := by omega
    simp only [List.mem_cons, reduceCtorEq, Edit.insert.injEq, apart, List.not_mem_nil, or_self,
      not_false_eq_true]
  cases c with
  | addTimer ms cb recurring now => exact added _
  | addCondtionTimer ms cb weakCond recurring now => exact added _
  | addTimerPtr t =>
    have apart : x ≠ t := fun same => other (congrArg some same.symm)
    show Edit.insert x ∉ [Edit.insert t]
    simp only [List.mem_singleton, Edit.insert.injEq, apart, not_false_eq_true]
  | cancel t => exact apart_cancel t
  | refresh t now => exact apart_refresh good out now
  | reset t =>
    show Edit.insert x ∉ (Timer.cancel m t).1 ++ _
    rw [List.mem_append, not_or]
    refine ⟨apart_cancel t, ?_⟩
    simp only [List.mem_singleton, reduceCtorEq, not_false_eq_true]
  | resetGap t gap fromNow now => exact apart_resetGap good out gap fromNow now
  | getExpiredCb now clock => exact apart_getExpiredCb out now clock

/-- The callbacks of the timers come from before or from the call. -/
theorem callbacks_step (before : Callbacks R m) (edge : m.step c = some m')
    (brings : CallBrings R c) : Callbacks R m' := by
  obtain ⟨-, rfl⟩ := step_eq_some.mp edge
  apply callbacks_edits before
  have added : ∀ v : Timer (TimerFn C W), (∀ cb, v.mCb = some cb → R cb) →
      ∀ e ∈ [Edit.create v, .insert m.created], Edit.Brings R e := by
    intro v good
    exact List.forall_mem_cons.mpr ⟨good, List.forall_mem_cons.mpr ⟨trivial, List.forall_mem_nil _⟩⟩
  cases c with
  | addTimer ms cb recurring now =>
    refine added _ fun f stored => ?_
    obtain ⟨g, given, rfl⟩ := Option.map_eq_some_iff.mp stored
    exact brings g given
  | addCondtionTimer ms cb weakCond recurring now =>
    refine added _ fun f stored => ?_
    cases stored
    exact brings
  | addTimerPtr t => exact List.forall_mem_cons.mpr ⟨trivial, List.forall_mem_nil _⟩
  | cancel t => exact brings_cancel t
  | refresh t now => exact brings_refresh t now
  | reset t =>
    intro e member
    rcases List.mem_append.mp member with cancelled | cleared
    · exact brings_cancel t e cancelled
    · cases List.mem_singleton.mp cleared
      intro v cb stored
      cases stored
  | resetGap t gap fromNow now => exact brings_resetGap t gap fromNow now
  | getExpiredCb now clock => exact brings_getExpiredCb now clock

/-! ## Leaving the set -/

/-- What takes a pending one-shot timer out: a pass that has come to its deadline, and a
call on any timer with the same deadline, which finds the pending one. A call that moves
what it finds puts it back, unless another timer has the new deadline. -/
def Leaves (s : TimerManager F) (t : ℕ) : TimerCall C W → Prop
  | .cancel u | .reset u => (s.timers u).mNext = (s.timers t).mNext
  | .refresh u now => (s.timers u).mNext = (s.timers t).mNext ∧
    ∃ x ∈ s.mTimers, x ≠ t ∧ (s.timers x).mNext = now + (s.timers u).mGap
  | .resetGap u gap fromNow now => (s.timers u).mNext = (s.timers t).mNext ∧
    ∃ x ∈ s.mTimers, x ≠ t ∧
      (s.timers x).mNext = if fromNow then now + gap else (s.timers t).mNext - gap
  | .getExpiredCb now _ => (s.timers t).mNext ≤ now
  | .addTimer .. | .addTimerPtr _ | .addCondtionTimer .. => False

/-- A pending timer is found by the timers that have its deadline. -/
theorem Good.finds_iff (good : Good s) {u : ℕ} (pending : t ∈ s.mTimers) :
    s.find u = some t ↔ (s.timers u).mNext = (s.timers t).mNext := by
  rw [good.find_eq_some, and_iff_right pending]
  unfold key
  rw [UInt64.toNat_inj, eq_comm]

theorem Good.mem_cancel (good : Good s) {u : ℕ} (pending : t ∈ s.mTimers) :
    t ∈ (s.edits (Timer.cancel s u).1).mTimers ↔ ¬ (s.timers u).mNext = (s.timers t).mNext := by
  rw [← good.finds_iff pending]
  unfold Timer.cancel
  cases found : s.find u with
  | none => exact iff_of_true pending (Option.some_ne_none t ∘ Eq.symm)
  | some it =>
    show t ∈ s.mTimers.erase it ↔ _
    rw [good.mem_erase, and_iff_left pending, Option.some.injEq, ne_eq, eq_comm]

/-- The element found is moved, and put back if its new deadline is free. -/
theorem Good.mem_found_move (good : Good s) {u : ℕ} (pending : t ∈ s.mTimers)
    (f : Timer F → Timer F) :
    t ∈ (s.edits (findAndMove s u f)).mTimers ↔
      ¬ ((s.timers u).mNext = (s.timers t).mNext ∧
        ∃ x ∈ s.mTimers, x ≠ t ∧ (s.timers x).mNext = (f (s.timers t)).mNext) := by
  rw [← good.finds_iff pending]
  unfold findAndMove
  cases found : s.find u with
  | none => exact iff_of_true pending fun both => nomatch both.1
  | some temp =>
    dsimp only
    rw [good.mem_move (good.find_eq_some.mp found).1, and_iff_right pending, Option.some.injEq]
    constructor
    · rintro free ⟨rfl, x, member, other, same⟩
      exact free rfl x member other same
    · rintro stays rfl x member other same
      exact stays ⟨rfl, x, member, other, same⟩

/-- A pending one-shot timer stays in the set unless the call takes it out. -/
theorem Good.mem_step (good : Good m) (edge : m.step c = some m') (pending : t ∈ m.mTimers)
    (once : (m.timers t).mRecurring = false) : t ∈ m'.mTimers ↔ ¬ Leaves m t c := by
  obtain ⟨-, rfl⟩ := step_eq_some.mp edge
  cases c with
  | addTimer ms cb recurring now =>
    exact iff_of_true (KeyedSet.mem_insert_of_mem pending) id
  | addCondtionTimer ms cb weakCond recurring now =>
    exact iff_of_true (KeyedSet.mem_insert_of_mem pending) id
  | addTimerPtr u => exact iff_of_true (KeyedSet.mem_insert_of_mem pending) id
  | cancel u => exact good.mem_cancel pending
  | refresh u now => exact good.mem_found_move pending _
  | reset u =>
    show t ∈ (m.edits ((Timer.cancel m u).1 ++ _)).mTimers ↔ _
    rw [edits_append]
    exact good.mem_cancel pending
  | resetGap u gap fromNow now => exact good.mem_found_move pending _
  | getExpiredCb now clock =>
    have after := (good.getExpiredCb now clock).2
    constructor
    · intro inside due
      rcases after.origin t inside with late | ⟨-, recurring⟩
      · exact absurd due (UInt64.not_le.mpr (mem_remaining.mp late).2)
      · rw [once] at recurring
        cases recurring
    · intro late
      exact after.kept t (mem_remaining.mpr ⟨pending, UInt64.not_le.mp late⟩)

/-- A call on another timer leaves a timer recurring or not. -/
theorem recurring_step (edge : m.step c = some m') (old : x < m.created)
    (other : c.target ≠ some x) : (m'.timers x).mRecurring = (m.timers x).mRecurring := by
  obtain ⟨-, rfl⟩ := step_eq_some.mp edge
  apply recurring_edits old
  have added : ∀ v : Timer (TimerFn C W),
      ∀ e ∈ [Edit.create v, .insert m.created], e.KeepsKind x := by
    intro v
    refine List.forall_mem_cons.mpr ⟨trivial, ?_⟩
    exact List.forall_mem_cons.mpr ⟨trivial, List.forall_mem_nil _⟩
  cases c with
  | addTimer ms cb recurring now => exact added _
  | addCondtionTimer ms cb weakCond recurring now => exact added _
  | addTimerPtr t => exact List.forall_mem_cons.mpr ⟨trivial, List.forall_mem_nil _⟩
  | cancel t => exact keepsKind_cancel t
  | refresh t now => exact keepsKind_move t fun _ => rfl
  | reset t =>
    intro e member
    rcases List.mem_append.mp member with cancelled | cleared
    · exact keepsKind_cancel t e cancelled
    · cases List.mem_singleton.mp cleared
      exact .inl fun same => other (congrArg some same)
  | resetGap t gap fromNow now => exact keepsKind_move t fun _ => rfl
  | getExpiredCb now clock => exact keepsKind_getExpiredCb now clock

end Calls

end TimerManager

end Sylar
