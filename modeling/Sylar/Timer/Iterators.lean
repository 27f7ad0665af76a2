import Sylar.Timer.Alone
import Sylar.Timer.Cancels

/-!
# Iterators into the timer set

`refresh` joins the operations of `Sylar.Timer.Threads`: it looks the timer up in one
section, erases the element found in another step, and puts it back in a third.
`cancel` and `refresh` hold an iterator between two steps, `refresh` and
`GetExpiredCb` hold a timer that they have taken out of the set.

* `Relies`: what an operation relies on, and `Relies.frame`, what the steps of the
  others have to leave to it.
* `iterators_sound_along`: when no element leaves the set while an iterator denotes it, no
  iterator dangles and a one-shot timer is cancelled once.
-/

namespace Sylar

open Runs Threads TimerManager

/-- The timers, and for each one how many calls of `cancel` on it have returned true
since it was last armed by `addTimer`. -/
structure RefreshTimers (F : Type) extends SharedTimers F where
  wins : ℕ → ℕ

/-- The operations, with `refresh`. -/
inductive RefreshOp (F : Type) where
  | call (op : TimerOp F)
  | refresh (t : ℕ)

/-- Where a thread is in an operation; in `refresh`, before its lookup, its erasure or
its insertion. -/
inductive RefreshPc (F : Type) where
  | call (pc : TimerPc F)
  | find (t : ℕ)
  | erase (t it epoch : ℕ)
  | insert (t temp : ℕ)

namespace RefreshTimers

variable {F : Type}

def init : RefreshTimers F := ⟨SharedTimers.init, fun _ => 0⟩

def begins : RefreshOp F → RefreshPc F
  | .call op => .call (SharedTimers.begins op)
  | .refresh t => .find t

/-- Whether an iterator denotes an element. -/
def Denotes (s : RefreshTimers F) (it epoch : ℕ) : Prop :=
  it ∈ s.mgr.mTimers ∧ s.epoch it = epoch

instance (s : RefreshTimers F) (it epoch : ℕ) : Decidable (s.Denotes it epoch) :=
  inferInstanceAs (Decidable (_ ∧ _))

/-- The counts after a section. -/
def counts (s : RefreshTimers F) : TimerPc F → ℕ → ℕ
  | .add .. => Function.update s.wins s.mgr.created 0
  | .put t => Function.update s.wins t 0
  | .erase t it epoch =>
    if s.Denotes it epoch then Function.update s.wins t (s.wins t + 1) else s.wins
  | _ => s.wins

/-- One step of an operation. The erasure of `refresh` reads the element through its
iterator and takes no lock; the new deadline comes with the insertion. -/
def move (s : RefreshTimers F) (pc : RefreshPc F) (now : UInt64) :
    Option (RefreshTimers F × Option (RefreshPc F)) :=
  match pc with
  | .call pc => (SharedTimers.move s.toSharedTimers pc now).map fun r =>
    (⟨r.1, s.counts pc⟩, r.2.map .call)
  | .find t =>
    if t < s.mgr.created then
      some (s, (s.mgr.find t).map fun it => .erase t it (s.epoch it))
    else none
  | .erase t it epoch =>
    if s.Denotes it epoch then some ({ s with mgr := s.mgr.edit (.erase it) }, some (.insert t it))
    else some ({ s with undefined := true }, none)
  | .insert t temp =>
    let assigned := s.mgr.edit (.assign temp fun v =>
      { v with mNext := now + (s.mgr.timers t).mGap })
    some ({ s with mgr := assigned.edit (.insert temp), epoch := s.counted temp }, none)

/-- An interleaving of operations, step by step. -/
def step : Pool (RefreshTimers F) (RefreshPc F) → Act (RefreshOp F) UInt64 →
    Option (Pool (RefreshTimers F) (RefreshPc F)) :=
  Threads.step begins move

variable {p q : Pool (RefreshTimers F) (RefreshPc F)} {s s' : RefreshTimers F}
  {pc : RefreshPc F} {o : Option (RefreshPc F)} {i j t u : ℕ}

/-- The element that the iterator of an operation denotes. -/
def points : RefreshPc F → Option ℕ
  | .call (.erase _ it _) | .erase _ it _ => some it
  | _ => none

/-- The timers that an operation has taken out and is to put back. -/
def Holds (s : RefreshTimers F) : RefreshPc F → ℕ → Prop
  | .call (.loop item temp), u => u ∈ item :: temp ∧ (s.mgr.timers u).mRecurring = true
  | .insert _ temp, u => u = temp
  | _, _ => False

/-- Every iterator used has denoted an element, and at most one `cancel` of a one-shot
timer that was armed has returned true. -/
structure Sound (p : Pool (RefreshTimers F) (RefreshPc F)) : Prop where
  defined : p.shared.undefined = false
  once : ∀ t, (p.shared.mgr.timers t).mRecurring = false → p.shared.wins t ≤ 1

/-- What a step must not meet. No element is erased that the iterator of another
operation denotes; `cancel` on a one-shot timer finds no other timer; and the user
puts no timer back that an operation is to put back. -/
def Undisturbed (p : Pool (RefreshTimers F) (RefreshPc F)) : Act (RefreshOp F) UInt64 → Prop
  | .enter _ _ => True
  | .run i now => ∀ pc, p.ops i = some pc → match pc with
    | .call (.find t) => (p.shared.mgr.timers t).mRecurring = false → Unmistaken p.shared.mgr t
    | .call (.erase _ it _) | .erase _ it _ =>
      ∀ j pc', j ≠ i → p.ops j = some pc' → points pc' ≠ some it
    | .call .extract => ∀ j pc' it, p.ops j = some pc' → points pc' = some it →
        now < (p.shared.mgr.timers it).mNext
    | .call (.put t) => ∀ j pc', p.ops j = some pc' → ¬ Holds p.shared pc' t
    | _ => True

/-! ## The invariant -/

/-- The set is in order, and a one-shot timer in it has not been cancelled. -/
structure Steady (s : RefreshTimers F) : Prop where
  good : Good s.mgr
  defined : s.undefined = false
  once : ∀ t, (s.mgr.timers t).mRecurring = false →
    s.wins t ≤ 1 ∧ (t ∈ s.mgr.mTimers → s.wins t = 0)

/-- What an operation relies on: its iterator denotes an element, that of a `cancel`
on a one-shot timer this timer, and what it is to put back is not in the set. -/
def Relies (s : RefreshTimers F) : RefreshPc F → Prop
  | .call (.erase t it epoch) => s.Denotes it epoch ∧ t < s.mgr.created ∧
      ((s.mgr.timers t).mRecurring = false → it = t)
  | .call (.loop item temp) => (item :: temp).Nodup ∧ ∀ u ∈ item :: temp,
      u < s.mgr.created ∧ ((s.mgr.timers u).mRecurring = true → u ∉ s.mgr.mTimers)
  | .erase _ it epoch => s.Denotes it epoch
  | .insert _ temp => temp < s.mgr.created ∧ temp ∉ s.mgr.mTimers ∧
      ((s.mgr.timers temp).mRecurring = false → s.wins temp = 0)
  | _ => True

/-- A step leaves an operation what it relies on when the element of its iterator
stays, and the timers it holds stay out and uncancelled. -/
theorem Relies.frame (relies : Relies s pc) (grows : s.mgr.created ≤ s'.mgr.created)
    (same : ∀ u < s.mgr.created, (s'.mgr.timers u).mRecurring = (s.mgr.timers u).mRecurring)
    (stays : ∀ it, points pc = some it → it ∈ s.mgr.mTimers →
      it ∈ s'.mgr.mTimers ∧ s'.epoch it = s.epoch it)
    (out : ∀ u, Holds s pc u → u ∉ s.mgr.mTimers →
      u ∉ s'.mgr.mTimers ∧ ((s.mgr.timers u).mRecurring = false → s'.wins u = s.wins u)) :
    Relies s' pc := by
  have kept : ∀ it epoch, points pc = some it → s.Denotes it epoch → s'.Denotes it epoch := by
    intro it epoch own denotes
    obtain ⟨inside, number⟩ := stays it own denotes.1
    exact ⟨inside, number.trans denotes.2⟩
  cases pc with
  | call pc =>
    cases pc with
    | erase t it epoch =>
      obtain ⟨denotes, known, own⟩ := relies
      refine ⟨kept it epoch rfl denotes, Nat.lt_of_lt_of_le known grows, fun oneShot => ?_⟩
      exact own ((same t known).symm.trans oneShot)
    | loop item temp =>
      refine ⟨relies.1, fun u member => ?_⟩
      obtain ⟨known, absent⟩ := relies.2 u member
      refine ⟨Nat.lt_of_lt_of_le known grows, fun recurring => ?_⟩
      rw [same u known] at recurring
      exact (out u ⟨member, recurring⟩ (absent recurring)).1
    | _ => trivial
  | erase t it epoch => exact kept it epoch rfl relies
  | insert t temp =>
    obtain ⟨known, absent, fresh⟩ := relies
    obtain ⟨absent', wins⟩ := out temp rfl absent
    refine ⟨Nat.lt_of_lt_of_le known grows, absent', fun oneShot => ?_⟩
    have oneShot := (same temp known).symm.trans oneShot
    exact (wins oneShot).trans (fresh oneShot)
  | find t => trivial

/-- The invariant of the pool. -/
structure Inv (p : Pool (RefreshTimers F) (RefreshPc F)) : Prop where
  assured : Assured Steady Relies p
  exclusive : Exclusive Holds p

theorem inv_init : Inv (Pool.idle (init : RefreshTimers F)) where
  assured := assured_idle ⟨good_empty, rfl, fun _ _ => ⟨Nat.zero_le 1, fun _ => rfl⟩⟩
  exclusive := exclusive_idle init

theorem Inv.sound (inv : Inv p) : Sound p :=
  ⟨inv.assured.shared.defined, fun t oneShot => (inv.assured.shared.once t oneShot).1⟩

/-- What an operation holds was created and is not in the set. -/
theorem Inv.held (inv : Inv p) (here : p.ops i = some pc) (held : Holds p.shared pc u) :
    u < p.shared.mgr.created ∧ u ∉ p.shared.mgr.mTimers := by
  have relies := inv.assured.ops i pc here
  cases pc with
  | call pc =>
    cases pc with
    | loop item temp =>
      obtain ⟨known, absent⟩ := relies.2 u held.1
      exact ⟨known, absent held.2⟩
    | _ => exact held.elim
  | insert t temp =>
    obtain rfl : u = temp := held
    exact ⟨relies.1, relies.2.1⟩
  | _ => exact held.elim

/-- A step keeps the invariant that leaves the others the elements of their
iterators, and takes into the set nothing that another operation holds. -/
theorem Inv.next (inv : Inv p) (steady : Steady s)
    (grows : p.shared.mgr.created ≤ s.mgr.created)
    (same : ∀ u < p.shared.mgr.created,
      (s.mgr.timers u).mRecurring = (p.shared.mgr.timers u).mRecurring)
    (stays : ∀ j pc it, j ≠ i → p.ops j = some pc → points pc = some it →
      it ∈ p.shared.mgr.mTimers → it ∈ s.mgr.mTimers ∧ s.epoch it = p.shared.epoch it)
    (out : ∀ j pc u, j ≠ i → p.ops j = some pc → Holds p.shared pc u →
      u ∉ s.mgr.mTimers ∧
        ((p.shared.mgr.timers u).mRecurring = false → s.wins u = p.shared.wins u))
    (own : ∀ pc, o = some pc → Relies s pc)
    (alone : ∀ pc j pc' u, o = some pc → Holds s pc u → j ≠ i → p.ops j = some pc' →
      ¬ Holds p.shared pc' u) :
    Inv ⟨s, Function.update p.ops i o⟩ := by
  constructor
  case assured =>
    refine inv.assured.run steady own fun j pc distinct here relies => ?_
    exact relies.frame grows same (fun it => stays j pc it distinct here)
      fun u held _ => out j pc u distinct here held
  case exclusive =>
    refine inv.exclusive.run (fun j pc u distinct here held => ?_) alone
    have relies := inv.assured.ops j pc here
    cases pc with
    | call pc =>
      cases pc with
      | loop item temp =>
        exact ⟨held.1, (same u (relies.2 u held.1).1).symm.trans held.2⟩
      | _ => exact held.elim
    | _ => exact held

/-- A step that leaves the manager alone and leads to an operation that holds
nothing. -/
theorem Inv.stay (inv : Inv p) (mgr : s.mgr = p.shared.mgr) (epoch : s.epoch = p.shared.epoch)
    (wins : s.wins = p.shared.wins) (defined : s.undefined = p.shared.undefined)
    (own : ∀ pc, o = some pc → Relies s pc ∧ ∀ u, ¬ Holds s pc u) :
    Inv ⟨s, Function.update p.ops i o⟩ := by
  have steady : Steady s := by
    obtain ⟨good, before, once⟩ := inv.assured.shared
    constructor
    case good => rwa [mgr]
    case defined => exact defined.trans before
    case once => rwa [mgr, wins]
  refine inv.next steady (by rw [mgr]) ?_ ?_ ?_ (fun pc next => (own pc next).1) ?_
  · exact fun u _ => by rw [mgr]
  · exact fun _ _ it _ _ _ inside => ⟨by rwa [mgr], congrFun epoch it⟩
  · intro _ _ u _ here held
    rw [mgr]
    exact ⟨(inv.held here held).2, fun _ => congrFun wins u⟩
  · exact fun pc _ _ u next held => absurd held ((own pc next).2 u)

/-- A step that takes `it` out of the set, where no other iterator denotes it. -/
theorem Inv.erases (inv : Inv p) (it : ℕ) (mgr : s.mgr = p.shared.mgr.edit (.erase it))
    (epoch : s.epoch = p.shared.epoch) (defined : s.undefined = p.shared.undefined)
    (apart : ∀ j pc, j ≠ i → p.ops j = some pc → points pc ≠ some it)
    (once : ∀ t, (p.shared.mgr.timers t).mRecurring = false →
      s.wins t ≤ 1 ∧ (t ≠ it → t ∈ p.shared.mgr.mTimers → s.wins t = 0))
    (wins : ∀ u, u ∉ p.shared.mgr.mTimers → (p.shared.mgr.timers u).mRecurring = false →
      s.wins u = p.shared.wins u)
    (own : ∀ pc, o = some pc → Relies s pc)
    (alone : ∀ pc u, o = some pc → Holds s pc u → u ∈ p.shared.mgr.mTimers) :
    Inv ⟨s, Function.update p.ops i o⟩ := by
  have good := inv.assured.shared.good
  have members : ∀ u, u ∈ s.mgr.mTimers ↔ u ≠ it ∧ u ∈ p.shared.mgr.mTimers := by
    intro u
    rw [mgr]
    exact good.mem_erase
  have timers : s.mgr.timers = p.shared.mgr.timers := by rw [mgr, timers_erase]
  have steady : Steady s := by
    constructor
    case good =>
      rw [mgr]
      exact good.edit (e := .erase it) trivial
    case defined => exact defined.trans inv.assured.shared.defined
    case once =>
      intro t oneShot
      rw [timers] at oneShot
      obtain ⟨most, fresh⟩ := once t oneShot
      exact ⟨most, fun member => fresh ((members t).mp member).1 ((members t).mp member).2⟩
  refine inv.next steady ?_ ?_ ?_ ?_ own ?_
  · rw [mgr, created_erase]
  · exact fun u _ => by rw [timers]
  · intro j pc u distinct here denotes inside
    refine ⟨(members u).mpr ⟨?_, inside⟩, congrFun epoch u⟩
    rintro rfl
    exact apart j pc distinct here denotes
  · intro j pc u _ here held
    have absent := (inv.held here held).2
    exact ⟨fun member => absent ((members u).mp member).2, wins u absent⟩
  · intro pc j pc' u next held _ here also
    exact (inv.held here also).2 (alone pc u next held)

/-- A step that puts `t` into the set, where no other operation holds it. -/
theorem Inv.puts (inv : Inv p) (good : Good s.mgr)
    (grows : p.shared.mgr.created ≤ s.mgr.created)
    (same : ∀ u, u ≠ t ∨ u < p.shared.mgr.created →
      (s.mgr.timers u).mRecurring = (p.shared.mgr.timers u).mRecurring)
    (into : ∀ u ∈ s.mgr.mTimers, u = t ∨ u ∈ p.shared.mgr.mTimers)
    (stays : ∀ u ∈ p.shared.mgr.mTimers, u ∈ s.mgr.mTimers)
    (epoch : s.epoch = p.shared.counted t) (defined : s.undefined = p.shared.undefined)
    (wins : ∀ u, u ≠ t → s.wins u = p.shared.wins u)
    (fresh : (s.mgr.timers t).mRecurring = false → s.wins t = 0)
    (unheld : ∀ j pc, j ≠ i → p.ops j = some pc → ¬ Holds p.shared pc t)
    (own : ∀ pc, o = some pc → Relies s pc)
    (alone : ∀ pc j pc' u, o = some pc → Holds s pc u → j ≠ i → p.ops j = some pc' →
      ¬ Holds p.shared pc' u) :
    Inv ⟨s, Function.update p.ops i o⟩ := by
  have steady : Steady s := by
    constructor
    case good => exact good
    case defined => exact defined.trans inv.assured.shared.defined
    case once =>
      intro u oneShot
      by_cases here : u = t
      · subst here
        have none_yet := fresh oneShot
        exact ⟨by omega, fun _ => none_yet⟩
      · rw [same u (.inl here)] at oneShot
        obtain ⟨most, before⟩ := inv.assured.shared.once u oneShot
        rw [wins u here]
        exact ⟨most, fun member => before ((into u member).resolve_left here)⟩
  refine inv.next steady grows (fun u known => same u (.inr known)) ?_ ?_ own alone
  · intro j pc u _ _ _ inside
    refine ⟨stays u inside, ?_⟩
    rw [epoch]
    exact SharedTimers.counted_of_mem inside
  · intro j pc u distinct here held
    have other : u ≠ t := by
      rintro rfl
      exact unheld j pc distinct here held
    refine ⟨fun member => ?_, fun _ => wins u other⟩
    exact (inv.held here held).2 ((into u member).resolve_left other)

/-! ## The steps -/

/-- `addTimer(ms, cb, recurring)`. -/
theorem Inv.add (inv : Inv p) (ms : UInt64) (cb : Option F) (recurring : Bool) {now : UInt64}
    {r : SharedTimers F × Option (TimerPc F)}
    (moved : SharedTimers.move p.shared.toSharedTimers (.add ms cb recurring) now = some r) :
    Inv ⟨⟨r.1, p.shared.counts (.add ms cb recurring)⟩,
      Function.update p.ops i (r.2.map .call)⟩ := by
  cases moved
  have good := inv.assured.shared.good
  refine inv.puts (t := p.shared.mgr.created) (good.edits (safe_addTimer _ ms cb recurring now))
    (Nat.le_succ _) ?_ (fun u => KeyedSet.mem_of_mem_insert)
    (fun u => KeyedSet.mem_insert_of_mem) rfl rfl (fun u other => Function.update_of_ne other ..)
    (fun _ => Function.update_self ..) ?_ nofun nofun
  · intro u known
    have other : u ≠ p.shared.mgr.created := by omega
    exact congrArg Timer.mRecurring (timers_create_ne other)
  · intro j pc _ here held
    exact Nat.lt_irrefl _ (inv.held here held).1

/-- `addTimer(timer)`, called by the user. -/
theorem Inv.put (inv : Inv p) {now : UInt64} {r : SharedTimers F × Option (TimerPc F)}
    (unheld : ∀ j pc, p.ops j = some pc → ¬ Holds p.shared pc t)
    (moved : SharedTimers.move p.shared.toSharedTimers (.put t) now = some r) :
    Inv ⟨⟨r.1, p.shared.counts (.put t)⟩, Function.update p.ops i (r.2.map .call)⟩ := by
  obtain ⟨known, moved⟩ := Option.ite_none_right_eq_some.mp moved
  cases moved
  have safe : SafeEdits p.shared.mgr (addTimerPtr t) := safeEdits_cons.mpr ⟨known, safeEdits_nil⟩
  exact inv.puts (t := t) (inv.assured.shared.good.edits safe) (Nat.le_refl _) (fun u _ => rfl)
    (fun u => KeyedSet.mem_of_mem_insert) (fun u => KeyedSet.mem_insert_of_mem) rfl rfl
    (fun u other => Function.update_of_ne other ..) (fun _ => Function.update_self ..)
    (fun j pc _ here => unheld j pc here) nofun nofun

/-- `cancel` looks `t` up. -/
theorem Inv.find (inv : Inv p) {now : UInt64} {r : SharedTimers F × Option (TimerPc F)}
    (apart : (p.shared.mgr.timers t).mRecurring = false → Unmistaken p.shared.mgr t)
    (moved : SharedTimers.move p.shared.toSharedTimers (.find t) now = some r) :
    Inv ⟨⟨r.1, p.shared.counts (.find t)⟩, Function.update p.ops i (r.2.map .call)⟩ := by
  obtain ⟨known, moved⟩ := Option.ite_none_right_eq_some.mp moved
  have good := inv.assured.shared.good
  cases found : p.shared.mgr.find t with
  | none =>
    rw [found] at moved
    cases moved
    exact inv.stay rfl rfl rfl rfl nofun
  | some it =>
    rw [found] at moved
    cases moved
    refine inv.stay rfl rfl rfl rfl fun pc next => ?_
    cases next
    refine ⟨⟨⟨(good.find_eq_some.mp found).1, rfl⟩, known, fun oneShot => ?_⟩, fun _ held => held⟩
    by_cases pending : t ∈ p.shared.mgr.mTimers
    · rw [good.find_self pending] at found
      exact (Option.some.inj found).symm
    · rw [find_eq_none.mpr ⟨pending, apart oneShot⟩] at found
      cases found

/-- `cancel` erases what it has found. -/
theorem Inv.cancel (inv : Inv p) {it epoch : ℕ} {now : UInt64}
    {r : SharedTimers F × Option (TimerPc F)} (here : p.ops i = some (.call (.erase t it epoch)))
    (apart : ∀ j pc, j ≠ i → p.ops j = some pc → points pc ≠ some it)
    (moved : SharedTimers.move p.shared.toSharedTimers (.erase t it epoch) now = some r) :
    Inv ⟨⟨r.1, p.shared.counts (.erase t it epoch)⟩, Function.update p.ops i (r.2.map .call)⟩ := by
  obtain ⟨denotes, -, own⟩ := inv.assured.ops i _ here
  have once := inv.assured.shared.once
  rw [SharedTimers.move, if_pos ⟨denotes.1, denotes.2⟩] at moved
  cases moved
  rw [counts, if_pos denotes]
  refine inv.erases it rfl rfl rfl apart ?_ ?_ (fun _ next => by cases next)
    (fun _ _ next _ => by cases next)
  · intro u oneShot
    by_cases same : u = t
    · subst same
      obtain rfl := own oneShot
      have before := (once it oneShot).2 denotes.1
      simp only [Function.update_self, before]
      exact ⟨Nat.le_refl 1, fun other => absurd rfl other⟩
    · simp only [Function.update_of_ne same]
      exact ⟨(once u oneShot).1, fun _ => (once u oneShot).2⟩
  · intro u absent oneShot
    have other : u ≠ t := by
      rintro rfl
      exact absent (own oneShot ▸ denotes.1)
    exact Function.update_of_ne other ..

/-- The loop of `GetExpiredCb` is entered with the timers that it goes over. -/
theorem eq_loop_of_loops {temp : List ℕ} {pc : RefreshPc F}
    (next : (SharedTimers.loops temp).map .call = some pc) :
    ∃ item rest, temp = item :: rest ∧ pc = .call (.loop item rest) := by
  cases temp with
  | nil => cases next
  | cons item rest =>
    cases next
    exact ⟨item, rest, rfl, rfl⟩

/-- `GetExpiredCb` takes the expired timers out. -/
theorem Inv.extract (inv : Inv p) {now : UInt64} {r : SharedTimers F × Option (TimerPc F)}
    (undue : ∀ j pc it, p.ops j = some pc → points pc = some it →
      now < (p.shared.mgr.timers it).mNext)
    (moved : SharedTimers.move p.shared.toSharedTimers .extract now = some r) :
    Inv ⟨⟨r.1, p.shared.counts .extract⟩, Function.update p.ops i (r.2.map .call)⟩ := by
  have good := inv.assured.shared.good
  rw [SharedTimers.move, good.after_cut now] at moved
  cases moved
  have left : ∀ u, u ∈ (p.shared.mgr.remaining now).mTimers → u ∈ p.shared.mgr.mTimers :=
    fun u member => (mem_remaining.mp member).1
  have steady : Steady (F := F) ⟨{ p.shared.toSharedTimers with
      mgr := p.shared.mgr.remaining now
      late := p.shared.late ++ (p.shared.mgr.expired now).filter p.shared.cancelled },
      p.shared.wins⟩ := by
    refine ⟨good.remaining now, inv.assured.shared.defined, fun t oneShot => ?_⟩
    obtain ⟨most, fresh⟩ := inv.assured.shared.once t oneShot
    exact ⟨most, fun member => fresh (left t member)⟩
  refine inv.next steady (Nat.le_refl _) (fun _ _ => rfl) ?_ ?_ ?_ ?_
  · intro j pc it _ here denotes inside
    exact ⟨mem_remaining.mpr ⟨inside, undue j pc it here denotes⟩, rfl⟩
  · intro j pc u _ here held
    exact ⟨fun member => (inv.held here held).2 (left u member), fun _ => rfl⟩
  · intro pc next
    obtain ⟨item, rest, taken, rfl⟩ := eq_loop_of_loops next
    refine ⟨taken ▸ (good.expired_ordered now).nodup, fun u member => ?_⟩
    rw [← taken] at member
    obtain ⟨inside, due⟩ := good.mem_expired.mp member
    refine ⟨good.known u inside, fun _ stays => ?_⟩
    exact UInt64.not_lt.mpr due (mem_remaining.mp stays).2
  · intro pc j pc' u next held _ here also
    refine (inv.held here also).2 ?_
    obtain ⟨item, rest, taken, rfl⟩ := eq_loop_of_loops next
    have member := held.1
    rw [← taken] at member
    exact (good.mem_expired.mp member).1

/-- A timer that is out of the set is given a new deadline and put back. -/
theorem put_back {m : TimerManager F} (good : Good m) (absent : u ∉ m.mTimers)
    (known : u < m.created) (f : Timer F → Timer F) :
    Good ((m.edit (.assign u f)).edit (.insert u)) ∧
      (∀ v ∈ ((m.edit (.assign u f)).edit (.insert u)).mTimers, v = u ∨ v ∈ m.mTimers) ∧
      ∀ v ∈ m.mTimers, v ∈ ((m.edit (.assign u f)).edit (.insert u)).mTimers := by
  have assigned : Good (m.edit (.assign u f)) := good.edit (e := .assign u f) absent
  refine ⟨assigned.edit (e := .insert u) known, fun v => ?_, fun v => ?_⟩
  · exact KeyedSet.mem_of_mem_insert
  · exact KeyedSet.mem_insert_of_mem

/-- What is left of the loop of `GetExpiredCb` after the timer `item`. -/
theorem Inv.rest (inv : Inv p) {item : ℕ} {temp : List ℕ}
    (here : p.ops i = some (.call (.loop item temp)))
    (created : s.mgr.created = p.shared.mgr.created)
    (same : ∀ u, (s.mgr.timers u).mRecurring = (p.shared.mgr.timers u).mRecurring)
    (into : ∀ u ∈ s.mgr.mTimers, u = item ∨ u ∈ p.shared.mgr.mTimers) :
    ∀ pc, (SharedTimers.loops temp).map .call = some pc → Relies s pc := by
  obtain ⟨nodup, relies⟩ := inv.assured.ops i _ here
  obtain ⟨fresh, nodup⟩ := List.nodup_cons.mp nodup
  intro pc next
  obtain ⟨head, rest, rfl, rfl⟩ := eq_loop_of_loops next
  refine ⟨nodup, fun u member => ?_⟩
  obtain ⟨known, absent⟩ := relies u (List.mem_cons_of_mem item member)
  refine ⟨created ▸ known, fun recurring inside => ?_⟩
  rw [same] at recurring
  rcases into u inside with rfl | old
  · exact fresh member
  · exact absent recurring old

theorem Inv.rest_alone (inv : Inv p) {item : ℕ} {temp : List ℕ}
    (here : p.ops i = some (.call (.loop item temp)))
    (same : ∀ u, (s.mgr.timers u).mRecurring = (p.shared.mgr.timers u).mRecurring) :
    ∀ pc j pc' u, (SharedTimers.loops temp).map .call = some pc → Holds s pc u → j ≠ i →
      p.ops j = some pc' → ¬ Holds p.shared pc' u := by
  intro pc j pc' u next held distinct there also
  obtain ⟨head, rest, rfl, rfl⟩ := eq_loop_of_loops next
  have taken : Holds p.shared (.call (.loop item (head :: rest))) u :=
    ⟨List.mem_cons_of_mem item held.1, (same u).symm.trans held.2⟩
  exact distinct (inv.exclusive j i pc' _ u there here also taken)

/-- The loop of `GetExpiredCb` at one timer. -/
theorem Inv.loop (inv : Inv p) {item : ℕ} {temp : List ℕ} {now : UInt64}
    {r : SharedTimers F × Option (TimerPc F)} (here : p.ops i = some (.call (.loop item temp)))
    (moved : SharedTimers.move p.shared.toSharedTimers (.loop item temp) now = some r) :
    Inv ⟨⟨r.1, p.shared.counts (.loop item temp)⟩, Function.update p.ops i (r.2.map .call)⟩ := by
  have steady := inv.assured.shared
  obtain ⟨known, absent⟩ := (inv.assured.ops i _ here).2 item List.mem_cons_self
  cases recurring : (p.shared.mgr.timers item).mRecurring with
  | true =>
    have held : Holds p.shared (.call (.loop item temp)) item := ⟨List.mem_cons_self, recurring⟩
    obtain ⟨good, into, stays⟩ := put_back steady.good (absent recurring) known
      fun v => { v with mNext := now + v.mGap }
    have same : ∀ u, _ = (p.shared.mgr.timers u).mRecurring :=
      recurring_assign (t := item) (f := fun v => { v with mNext := now + v.mGap })
        p.shared.mgr fun _ => rfl
    simp only [SharedTimers.move, rearm, recurring, if_true, edits_cons, edits_nil] at moved
    cases moved
    refine inv.puts (t := item) good (Nat.le_refl _) (fun u _ => same u) into stays rfl rfl
      (fun _ _ => rfl) (fun oneShot => ?_) (fun j pc distinct there also => ?_)
      (inv.rest here rfl same into) (inv.rest_alone here same)
    · have never := (same item).symm.trans oneShot
      rw [recurring] at never
      cases never
    · exact distinct (inv.exclusive j i pc _ item there here also held)
  | false =>
    have same : ∀ u, _ = (p.shared.mgr.timers u).mRecurring :=
      recurring_assign (t := item) (f := fun v => { v with mCb := none }) p.shared.mgr
        fun _ => rfl
    have good : Good (p.shared.mgr.edit (.assign item fun v => { v with mCb := none })) := by
      refine ⟨steady.good.ordered.congr fun u _ => ?_, steady.good.known⟩
      by_cases this : u = item
      · rw [this, key, timers_assign_self]
        rfl
      · exact key_eq (timers_assign_ne this)
    simp only [SharedTimers.move, rearm, recurring, Bool.false_eq_true, if_false, edits_cons,
      edits_nil] at moved
    cases moved
    refine inv.next ⟨good, steady.defined, fun t oneShot => ?_⟩ (Nat.le_refl _)
      (fun u _ => same u) ?_ ?_ (inv.rest here rfl same fun u => .inr) (inv.rest_alone here same)
    · exact steady.once t ((same t).symm.trans oneShot)
    · exact fun _ _ _ _ _ _ inside => ⟨inside, rfl⟩
    · exact fun _ _ _ _ there held => ⟨(inv.held there held).2, fun _ => rfl⟩

/-- `refresh` puts back what it has taken out. -/
theorem Inv.insert (inv : Inv p) {temp : ℕ} {now : UInt64} (here : p.ops i = some (.insert t temp))
    (moved : move p.shared (.insert t temp) now = some (s, o)) :
    Inv ⟨s, Function.update p.ops i o⟩ := by
  obtain ⟨known, absent, fresh⟩ := inv.assured.ops i _ here
  obtain ⟨good, into, stays⟩ := put_back inv.assured.shared.good absent known
    fun v => { v with mNext := now + (p.shared.mgr.timers t).mGap }
  have same : ∀ u, _ = (p.shared.mgr.timers u).mRecurring :=
    recurring_assign (t := temp)
      (f := fun v => { v with mNext := now + (p.shared.mgr.timers t).mGap }) _ fun _ => rfl
  cases moved
  refine inv.puts (t := temp) good (Nat.le_refl _) (fun u _ => same u) into stays rfl rfl
    (fun _ _ => rfl) (fun oneShot => ?_) (fun j pc distinct there also => ?_) nofun nofun
  · exact fresh ((same temp).symm.trans oneShot)
  · exact distinct (inv.exclusive j i pc _ temp there here also rfl)

theorem Inv.keep {a : Act (RefreshOp F) UInt64} (inv : Inv p) (ok : Undisturbed p a)
    (edge : step p a = some q) : Inv q := by
  cases a with
  | enter i op =>
    constructor
    case assured =>
      refine inv.assured.enter edge ?_
      cases op with
      | call op => cases op with
        | _ => trivial
      | refresh t => trivial
    case exclusive =>
      refine inv.exclusive.enter edge fun u held => ?_
      cases op with
      | call op => cases op with
        | _ => exact held
      | refresh t => exact held
  | run i now =>
    obtain ⟨pc, s, o, here, moved, rfl⟩ := step_run edge
    have ok := ok pc here
    cases pc with
    | call pc =>
      obtain ⟨r, called, same⟩ := Option.map_eq_some_iff.mp moved
      cases same
      cases pc with
      | add ms cb recurring => exact inv.add ms cb recurring called
      | put t => exact inv.put ok called
      | find t => exact inv.find ok called
      | erase t it epoch => exact inv.cancel here ok called
      | extract => exact inv.extract ok called
      | loop item temp => exact inv.loop here called
    | find t =>
      obtain ⟨-, moved⟩ := Option.ite_none_right_eq_some.mp moved
      cases moved
      refine inv.stay rfl rfl rfl rfl fun pc next => ?_
      obtain ⟨it, found, rfl⟩ := Option.map_eq_some_iff.mp next
      have member := (inv.assured.shared.good.find_eq_some.mp found).1
      exact ⟨⟨member, rfl⟩, fun _ held => held⟩
    | erase t it epoch =>
      have denotes : p.shared.Denotes it epoch := inv.assured.ops i _ here
      have once := inv.assured.shared.once
      rw [move, if_pos denotes] at moved
      cases moved
      refine inv.erases it rfl rfl rfl ok (fun u oneShot => ?_) (fun _ _ _ => rfl) ?_ ?_
      · exact ⟨(once u oneShot).1, fun _ => (once u oneShot).2⟩
      · intro pc next
        cases next
        have good := inv.assured.shared.good
        refine ⟨good.known it denotes.1, good.not_mem_erase, fun oneShot => ?_⟩
        exact (once it oneShot).2 denotes.1
      · intro pc u next held
        cases next
        obtain rfl : u = it := held
        exact denotes.1
    | insert t temp => exact inv.insert here moved

/-! ## Runs -/

/-- In a run whose steps are all undisturbed, every iterator that is used denotes an
element of the set, and of the `cancel` calls on a one-shot timer at most one
returns true each time it is armed. -/
theorem iterators_sound_along {as : List (Act (RefreshOp F) UInt64)}
    (along : Along step Undisturbed (Pool.idle (init : RefreshTimers F)) as) :
    Always step Sound (Pool.idle (init : RefreshTimers F)) as :=
  (always_of_along Inv.keep inv_init along).mono fun _ => Inv.sound

/-- A one-shot timer is refreshed, and then cancelled by another thread. -/
def refreshed : List (Act (RefreshOp Unit) UInt64) :=
  [.enter 0 (.call (.addTimer 10 (some ()) false)), .run 0 0, .enter 1 (.refresh 0), .run 1 5,
    .run 1 5, .run 1 5, .enter 0 (.call (.cancel 0)), .run 0 6, .run 0 6]

theorem sound_refreshed : Always step Sound (Pool.idle init) refreshed := by
  apply iterators_sound_along
  refine along_cons trivial rfl ?_
  refine along_cons (fun _ here => by cases here; trivial) rfl ?_
  refine along_cons trivial rfl ?_
  refine along_cons (fun _ here => by cases here; trivial) rfl ?_
  refine along_cons ?_ rfl ?_
  · rintro _ ⟨⟩ j pc distinct here
    match j with
    | 0 => cases here
    | 1 => exact absurd rfl distinct
    | j + 2 => cases here
  refine along_cons (fun _ here => by cases here; trivial) rfl ?_
  refine along_cons trivial rfl ?_
  refine along_cons ?_ rfl ?_
  · rintro _ ⟨⟩ - absent
    exact absurd (List.mem_singleton.mpr rfl) absent
  refine along_cons ?_ rfl trivial
  rintro _ ⟨⟩ j pc distinct here
  match j with
  | 0 => exact absurd rfl distinct
  | 1 => cases here
  | j + 2 => cases here

/-- A one-shot timer is added. -/
def armed : List (Act (RefreshOp Unit) UInt64) :=
  [.enter 0 (.call (.addTimer 10 (some ()) false)), .run 0 0]

/-- Two threads cancel it, both with an iterator to it; or one cancels and the other
refreshes it; or, between two calls of `cancel` that overlap, another timer is added
with its deadline, and both calls return true. -/
theorem iterators_dangle :
    ¬ Always step Sound (Pool.idle init) (armed ++
        [.enter 0 (.call (.cancel 0)), .enter 1 (.call (.cancel 0)), .run 0 1, .run 1 1, .run 0 1,
          .run 1 1]) ∧
      ¬ Always step Sound (Pool.idle init) (armed ++
        [.enter 0 (.call (.cancel 0)), .enter 1 (.refresh 0), .run 0 1, .run 1 1, .run 0 1,
          .run 1 1]) ∧
      ¬ Always step Sound (Pool.idle init) (armed ++
        [.enter 0 (.call (.cancel 0)), .enter 1 (.call (.cancel 0)), .run 0 1, .run 0 1,
          .enter 0 (.call (.addTimer 7 (some ()) false)), .run 0 3, .run 1 4, .run 1 4]) := by
  refine ⟨?_, ?_, ?_⟩
  · intro always
    cases (always.last rfl).defined
  · intro always
    cases (always.last rfl).defined
  · intro always
    have most := (always.last rfl).once 0 rfl
    revert most
    decide

end RefreshTimers

end Sylar
