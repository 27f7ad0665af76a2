import Mathlib.Data.Fintype.Card
import Sylar.IOmanager.Iterators
import Sylar.Lib.Weight

/-!
# The number of events

`m_number_event` is to be the number of registrations in `m_events`. It is counted up
by each accepted request of `addEvent`, and down by each `delEvent` that finds an
entry, before its request, and by each direction of a report, which leaves the entry
where it is. `cancel` erases without counting, and `cancelAllEvent` erases the entry
that its loop stands on.

* `counted_step_iff`: which steps keep the count.
* `counted_along_iff`: the runs that keep it are those whose steps all balance. A
  registration whose report arrives is not one of them.
-/

namespace Sylar

open Epoll Runs

variable {Cb : Type}

/-- The number of directions in a mask. -/
def Event.directions (event : Event) : ℕ :=
  (if event &&& Event.READ = 0#32 then 0 else 1) + if event &&& Event.WRITE = 0#32 then 0 else 1

namespace IOmanager

/-- The registrations held in `m_events`: the descriptors with the directions in their
`events_now`. -/
def held (s : IOmanager Cb) : ℕ := s.mEvents.weight fun ctx => Event.directions ctx.eventsNow

/-- Those of one descriptor. -/
def heldAt (s : IOmanager Cb) (fd : Int32) : ℕ :=
  s.mEvents.weightAt (fun ctx => Event.directions ctx.eventsNow) fd

/-- The directions that a report counts down. -/
def reported (s : IOmanager Cb) (fd : Int32) (events : BitVec 32) : ℕ :=
  match s.epoll fd with
  | some entry => match s.target entry.data with
    | .context _ ctx => Event.directions (realEvents ctx events)
    | _ => 0
  | none => 0

/-- How often a step counts down. -/
def decrements (s : IOmanager Cb) : IOStep Cb → ℕ
  | .call (.delEvent fd _ _) _ => if (s.mEvents.lookup fd).isSome then 1 else 0
  | .call _ _ => 0
  | .report fd events => s.reported fd events

end IOmanager

/-- The manager, with whether `m_number_event` has been counted down at 0, and whether
`cancelAllEvent` has gone on from an entry that is erased. -/
structure EventCount (Cb : Type) where
  mgr : IOmanager Cb
  underflow : Bool
  broken : Bool

/-- The steps: the calls and the reports, and `cancelAllEvent` with the entry that its
loop begins with. -/
inductive CountStep (Cb : Type) where
  | io (a : IOStep Cb)
  | cancelAllEvent (fd : Int32) (refuse : Option Errno)

namespace EventCount

/-- `IOmanager::cancelAllEvent`. With a first entry that is refused it returns `false`;
with one that is erased, the loop has nothing to go on from. -/
def cancelAllEvent (s : EventCount Cb) (fd : Int32) (refuse : Option Errno) :
    Option (EventCount Cb) :=
  if s.mgr.mEvents.entries.isEmpty then
    some { s with mgr := { s.mgr with mEvents := ∅, mNumberEvent := 0 } }
  else if (s.mgr.mEvents.lookup fd).isSome then
    let (mgr, reply) := s.mgr.delEvent fd Event.NONE false refuse
    some {
      mgr := mgr
      underflow := s.underflow || s.mgr.mNumberEvent == 0
      broken := match reply.ret with
        | .ok true => true
        | _ => s.broken }
  else none

/-- One step. -/
def step (s : EventCount Cb) : CountStep Cb → Option (EventCount Cb)
  | .io a => (s.mgr.step a).map fun mgr => { s with
      mgr := mgr
      underflow := s.underflow || decide (s.mgr.mNumberEvent.toNat < s.mgr.decrements a) }
  | .cancelAllEvent fd refuse => s.cancelAllEvent fd refuse

def init (tickleFds : Int32 × Int32) (stack : BitVec 64) : EventCount Cb :=
  ⟨IOmanager.init tickleFds stack, false, false⟩

/-- The count is right, and has never been counted down at 0. -/
structure Counted (s : EventCount Cb) : Prop where
  number : s.mgr.mNumberEvent.toNat = s.mgr.held
  underflow : s.underflow = false
  broken : s.broken = false

/-- The steps that keep the count. `addEvent` gives the descriptor one direction more
than it had when its request is accepted, and as many when it is refused. `delEvent`,
where it finds an entry, erases it, and the entry has one direction. `cancel` is called
where there is none, a report counts none down, and `cancelAllEvent` finds an empty
table. -/
def Balances (s : EventCount Cb) : CountStep Cb → Prop
  | .io (.call (.addEvent fd _ event _ _) refuse) => event ≠ Event.NONE →
      (Accepts s.mgr.epoll (s.mgr.addedOp fd) fd refuse →
        Event.directions event = s.mgr.heldAt fd + 1) ∧
      (¬ Accepts s.mgr.epoll (s.mgr.addedOp fd) fd refuse →
        Event.directions event = s.mgr.heldAt fd)
  | .io (.call (.delEvent fd event activate) refuse) => s.mgr.mEvents.lookup fd ≠ none →
      s.mgr.Erases fd event activate refuse ∧ s.mgr.heldAt fd = 1
  | .io (.call (.cancel fd) _) => s.mgr.heldAt fd = 0
  | .io (.call (.changerEvent fd event) _) => s.mgr.mEvents.lookup fd ≠ none →
      Event.directions event = s.mgr.heldAt fd
  | .io (.report fd events) => s.mgr.reported fd events = 0
  | .cancelAllEvent _ _ => s.mgr.mEvents = ∅

end EventCount

/-! ## Counting -/

theorem Event.directions_le (event : Event) : Event.directions event ≤ 2 := by
  unfold directions
  split
  · split <;> omega
  · split <;> omega

namespace IOmanager

variable {s s' : IOmanager Cb} {fd : Int32} {ctx : FdContext Cb}

/-- A table has at most one entry for each descriptor. -/
theorem held_lt (s : IOmanager Cb) : s.held ≤ 2 ^ 33 := by
  have keys : s.mEvents.keys.length ≤ 2 ^ 32 := by
    have nodup : (s.mEvents.keys.map fun fd : Int32 => fd.toBitVec.toFin).Nodup := by
      refine s.mEvents.keys_nodup.map fun fd fd' same => ?_
      exact Int32.toBitVec_inj.mp (BitVec.toFin_inj.mp same)
    have bound := nodup.length_le_card
    rwa [List.length_map, Fintype.card_fin] at bound
  have weight := AList.weight_le (m := s.mEvents) fun ctx : FdContext Cb =>
    Event.directions_le ctx.eventsNow
  unfold held
  omega

theorem heldAt_le : s.heldAt fd ≤ s.held := AList.weightAt_le

theorem heldAt_of_none (absent : s.mEvents.lookup fd = none) : s.heldAt fd = 0 :=
  AList.weightAt_of_none absent

theorem held_congr (table : s'.mEvents = s.mEvents) : s'.held = s.held := by
  rw [held, table, held]

theorem held_insert (table : s'.mEvents = s.mEvents.insert fd ctx) :
    s'.held + s.heldAt fd = s.held + Event.directions ctx.eventsNow := by
  rw [held, table]
  exact AList.weight_insert

theorem held_erase (table : s'.mEvents = s.mEvents.erase fd) :
    s'.held + s.heldAt fd = s.held := by
  rw [held, table]
  exact AList.weight_erase

theorem toNat_sub_one {n : UInt64} (positive : 1 ≤ n.toNat) : (n - 1).toNat = n.toNat - 1 := by
  have one : (1 : UInt64).toNat = 1 := rfl
  have bounded := n.toNat_lt
  rw [UInt64.toNat_sub, one]
  omega

/-- One direction of a report. -/
theorem toNat_fire {real event : Event}
    (enough : (if real &&& event = 0#32 then 0 else 1) ≤ s.mNumberEvent.toNat) :
    (s.fire ctx real event).1.mNumberEvent.toNat =
      s.mNumberEvent.toNat - if real &&& event = 0#32 then 0 else 1 := by
  unfold fire
  by_cases silent : real &&& event = 0#32
  · rw [if_pos silent, if_pos silent, Nat.sub_zero]
  · rw [if_neg silent] at enough
    rw [if_neg silent, if_neg silent, toNat_sub_one enough]

/-- A report counts its directions down, when there are as many. -/
theorem toNat_handle {events : BitVec 32}
    (enough : Event.directions (realEvents ctx events) ≤ s.mNumberEvent.toNat) :
    (s.handle ctx events).1.mNumberEvent.toNat =
      s.mNumberEvent.toNat - Event.directions (realEvents ctx events) := by
  unfold handle
  dsimp only
  by_cases nothing :
      ctx.eventsNow &&& (if realEvents ctx events = Event.NONE then 1#32 else 0#32) ≠ 0#32
  · have none : realEvents ctx events = Event.NONE := by
      by_contra some
      rw [if_neg some, BitVec.and_zero] at nothing
      exact nothing rfl
    rw [if_pos nothing, none]
    rfl
  · rw [if_neg nothing]
    dsimp only
    unfold Event.directions at enough ⊢
    have first : (s.fire ctx (realEvents ctx events) Event.READ).1.mNumberEvent.toNat =
        s.mNumberEvent.toNat - if realEvents ctx events &&& Event.READ = 0#32 then 0 else 1 :=
      toNat_fire (by omega)
    rw [toNat_fire (by omega), first]
    omega

end IOmanager

namespace EventCount

open IOmanager

variable {s t : EventCount Cb} {a : CountStep Cb} {fd : Int32}

/-- The count after a step that moves it to `n` and the registrations to `h`, with `k`
decrements. -/
theorem counted_step {mgr : IOmanager Cb} {k : ℕ} (counted : Counted s) :
    Counted { s with
      mgr := mgr
      underflow := s.underflow || decide (s.mgr.mNumberEvent.toNat < k) } ↔
      mgr.mNumberEvent.toNat = mgr.held ∧ k ≤ s.mgr.held := by
  have flag : (s.underflow || decide (s.mgr.mNumberEvent.toNat < k)) = false ↔
      k ≤ s.mgr.held := by
    rw [counted.underflow, Bool.false_or, decide_eq_false_iff_not, counted.number, Nat.not_lt]
  constructor
  · intro after
    exact ⟨after.number, flag.mp after.underflow⟩
  · rintro ⟨number, enough⟩
    exact ⟨number, flag.mpr enough, counted.broken⟩

theorem toNat_add_one (counted : Counted s) : (s.mgr.mNumberEvent + 1).toNat = s.mgr.held + 1 := by
  have one : (1 : UInt64).toNat = 1 := rfl
  have bound := s.mgr.held_lt
  rw [UInt64.toNat_add, one, counted.number]
  omega

theorem number_addEvent (counted : Counted s) (fd : Int32) (cb : Option Cb) (event : Event)
    (change : Bool) (alloc : BitVec 64) (refuse : Option Errno) :
    (s.mgr.addEvent fd cb event change alloc refuse).1.mNumberEvent.toNat =
        (s.mgr.addEvent fd cb event change alloc refuse).1.held ↔
      Balances s (.io (.call (.addEvent fd cb event change alloc) refuse)) := by
  have written {mgr : IOmanager Cb} (table : mgr.mEvents =
      s.mgr.mEvents.insert fd (s.mgr.addedContext fd cb event change alloc)) :
      mgr.held + s.mgr.heldAt fd = s.mgr.held + Event.directions event := by
    have weight := held_insert table
    rwa [eventsNow_addedContext] at weight
  have within : s.mgr.heldAt fd ≤ s.mgr.held := heldAt_le
  dsimp only [Balances]
  rcases s.mgr.addEvent_cases fd cb event change alloc refuse with
    ⟨none, after, -⟩ | ⟨some, refused, after, -⟩ | ⟨some, accepted, after, -⟩
  · rw [after]
    exact iff_of_true counted.number (absurd none)
  · have weight := written (congrArg mEvents after)
    rw [forall_prop_of_true some, and_iff_right fun accepted => absurd accepted refused,
      forall_prop_of_true refused, congrArg mNumberEvent after]
    dsimp only
    rw [counted.number]
    omega
  · have weight := written (congrArg mEvents after)
    rw [forall_prop_of_true some, and_iff_left fun refused => absurd accepted refused,
      forall_prop_of_true accepted, congrArg mNumberEvent after]
    dsimp only
    rw [toNat_add_one counted]
    omega

theorem number_delEvent (counted : Counted s) (fd : Int32) (event : Event) (activate : Bool)
    (refuse : Option Errno) :
    ((s.mgr.delEvent fd event activate refuse).1.mNumberEvent.toNat =
        (s.mgr.delEvent fd event activate refuse).1.held ∧
      (if (s.mgr.mEvents.lookup fd).isSome then 1 else 0) ≤ s.mgr.held) ↔
      Balances s (.io (.call (.delEvent fd event activate) refuse)) := by
  have within : s.mgr.heldAt fd ≤ s.mgr.held := heldAt_le
  dsimp only [Balances]
  cases found : s.mgr.mEvents.lookup fd with
  | none =>
    rw [s.mgr.delEvent_absent found]
    exact iff_of_true ⟨counted.number, Nat.zero_le _⟩ (absurd rfl)
  | some ctx =>
    have number : (s.mgr.delEvent fd event activate refuse).1.mNumberEvent =
        s.mgr.mNumberEvent - 1 := by
      rcases s.mgr.delEvent_cases found event activate refuse with ⟨-, after, -⟩ | ⟨-, after, -⟩
      · rw [after]
      · rw [after]
    rw [forall_prop_of_true (Option.some_ne_none ctx), number, Option.isSome_some, if_pos rfl]
    have counts (positive : 1 ≤ s.mgr.held) :
        (s.mgr.mNumberEvent - 1).toNat = s.mgr.held - 1 := by
      rw [toNat_sub_one (counted.number ▸ positive), counted.number]
    rcases delEvent_mEvents found event activate refuse with ⟨stays, table⟩ | ⟨erases, table⟩
    · -- counted down, and still held
      have held := held_congr table
      refine iff_of_false (fun both => ?_) fun both => stays both.1
      have count := counts both.2
      have number := both.1
      omega
    · have weight := held_erase table
      rw [and_iff_right erases]
      constructor
      · rintro ⟨number, positive⟩
        have count := counts positive
        omega
      · intro one
        have count := counts (by omega)
        omega

theorem number_cancel (counted : Counted s) (fd : Int32) (refuse : Option Errno) :
    (s.mgr.cancel fd refuse).1.mNumberEvent.toNat = (s.mgr.cancel fd refuse).1.held ↔
      Balances s (.io (.call (.cancel fd) refuse)) := by
  dsimp only [Balances]
  cases found : s.mgr.mEvents.lookup fd with
  | none =>
    rw [s.mgr.cancel_absent found]
    exact iff_of_true counted.number (heldAt_of_none found)
  | some ctx =>
    have number := counted.number
    have after : (s.mgr.cancel fd refuse).1.mNumberEvent = s.mgr.mNumberEvent ∧
        (s.mgr.cancel fd refuse).1.mEvents = s.mgr.mEvents.erase fd := by
      rcases s.mgr.cancel_cases found refuse with ⟨-, after, -⟩ | ⟨-, after, -⟩
      · rw [after]
        exact ⟨rfl, rfl⟩
      · rw [after]
        exact ⟨rfl, rfl⟩
    have weight := held_erase after.2
    rw [after.1]
    omega

theorem number_changerEvent (counted : Counted s) (fd : Int32) (event : Event)
    (refuse : Option Errno) :
    (s.mgr.changerEvent fd event refuse).1.mNumberEvent.toNat =
        (s.mgr.changerEvent fd event refuse).1.held ↔
      Balances s (.io (.call (.changerEvent fd event) refuse)) := by
  dsimp only [Balances]
  cases found : s.mgr.mEvents.lookup fd with
  | none =>
    rw [s.mgr.changerEvent_absent found]
    exact iff_of_true counted.number (absurd rfl)
  | some ctx =>
    have number := counted.number
    have after : (s.mgr.changerEvent fd event refuse).1.mNumberEvent = s.mgr.mNumberEvent ∧
        (s.mgr.changerEvent fd event refuse).1.mEvents =
          s.mgr.mEvents.insert fd (changedContext ctx event) := by
      rcases s.mgr.changerEvent_cases found event refuse with ⟨-, after, -⟩ | ⟨-, after, -⟩
      · rw [after]
        exact ⟨rfl, rfl⟩
      · rw [after]
        exact ⟨rfl, rfl⟩
    have weight := held_insert after.2
    rw [changedContext] at weight
    dsimp only at weight
    rw [forall_prop_of_true (Option.some_ne_none ctx), after.1]
    omega

theorem toNat_report {events : BitVec 32} {mgr : IOmanager Cb}
    (edge : s.mgr.step (.report fd events) = some mgr)
    (enough : s.mgr.reported fd events ≤ s.mgr.mNumberEvent.toNat) :
    mgr.mNumberEvent.toNat = s.mgr.mNumberEvent.toNat - s.mgr.reported fd events := by
  obtain ⟨entry, stored, edge⟩ := Option.bind_eq_some_iff.mp edge
  obtain ⟨⟨mgr', cbs⟩, sent, rfl⟩ := Option.map_eq_some_iff.mp edge
  unfold reported at enough ⊢
  rw [stored] at enough ⊢
  dsimp only at enough ⊢
  unfold report at sent
  cases target : s.mgr.target entry.data with
  | tickle =>
    rw [target] at sent
    cases sent
    rfl
  | context fd' ctx =>
    rw [target] at sent enough
    dsimp only at sent enough ⊢
    have counted := toNat_handle enough
    rwa [Option.some.inj sent] at counted
  | dangling =>
    rw [target] at sent
    cases sent

theorem number_report (counted : Counted s) {events : BitVec 32} {mgr : IOmanager Cb}
    (edge : s.mgr.step (.report fd events) = some mgr) :
    (mgr.mNumberEvent.toNat = mgr.held ∧ s.mgr.reported fd events ≤ s.mgr.held) ↔
      Balances s (.io (.report fd events)) := by
  have held : mgr.held = s.mgr.held := held_congr (s.mgr.step_report edge).1
  have number := counted.number
  dsimp only [Balances]
  constructor
  · rintro ⟨same, enough⟩
    have count := toNat_report edge (number ▸ enough)
    omega
  · intro none
    have count := toNat_report edge (none ▸ Nat.zero_le _)
    omega

/-! ## Steps -/

theorem counted_io (counted : Counted s) {a : IOStep Cb} (edge : s.step (.io a) = some t) :
    Counted t ↔ Balances s (.io a) := by
  obtain ⟨mgr, inner, rfl⟩ := Option.map_eq_some_iff.mp edge
  rw [counted_step counted]
  cases a with
  | report fd events => exact number_report counted inner
  | call c refuse =>
    obtain ⟨-, rfl⟩ := s.mgr.step_call.mp inner
    have none (silent : s.mgr.decrements (.call c refuse) = 0) :
        s.mgr.decrements (.call c refuse) ≤ s.mgr.held := by
      rw [silent]
      exact Nat.zero_le _
    cases c with
    | addEvent fd cb event change alloc =>
      rw [and_iff_left (none rfl)]
      exact number_addEvent counted fd cb event change alloc refuse
    | delEvent fd event activate => exact number_delEvent counted fd event activate refuse
    | cancel fd =>
      rw [and_iff_left (none rfl)]
      exact number_cancel counted fd refuse
    | changerEvent fd event =>
      rw [and_iff_left (none rfl)]
      exact number_changerEvent counted fd event refuse

theorem counted_cancelAllEvent (counted : Counted s) {refuse : Option Errno}
    (edge : s.cancelAllEvent fd refuse = some t) : Counted t ↔ s.mgr.mEvents = ∅ := by
  unfold cancelAllEvent at edge
  split at edge
  · next empty =>
    rw [← Option.some.inj edge]
    refine iff_of_true ⟨?_, counted.underflow, counted.broken⟩ ?_
    · rfl
    · exact AList.ext (List.isEmpty_iff.mp empty)
  · split at edge
    · next present =>
      obtain ⟨ctx, found⟩ := Option.isSome_iff_exists.mp present
      refine iff_of_false (fun after => ?_) fun empty => ?_
      · by_cases accepted : Accepts s.mgr.epoll .del fd refuse
        · -- the entry is erased under the loop
          rw [s.mgr.delEvent_accepted found accepted] at edge
          have broken := after.broken
          rw [← Option.some.inj edge] at broken
          cases broken
        · obtain ⟨err, refused⟩ := s.mgr.delEvent_refused found accepted Event.NONE false
          rw [refused] at edge
          obtain rfl := Option.some.inj edge
          have number : (s.mgr.mNumberEvent - 1).toNat = s.mgr.held := after.number
          have underflow : (s.underflow || s.mgr.mNumberEvent == 0) = false := after.underflow
          rw [counted.underflow, Bool.false_or, beq_eq_false_iff_ne] at underflow
          have apart : s.mgr.mNumberEvent.toNat ≠ 0 :=
            fun zero => underflow (UInt64.toNat_inj.mp zero)
          rw [toNat_sub_one (by omega), counted.number] at number
          rw [counted.number] at apart
          omega
      · rw [empty] at found
        cases found
    · cases edge

theorem counted_step_iff (counted : Counted s) (edge : s.step a = some t) :
    Counted t ↔ Balances s a := by
  cases a with
  | io a => exact counted_io counted edge
  | cancelAllEvent fd refuse => exact counted_cancelAllEvent counted edge

/-! ## Runs -/

theorem counted_init (tickleFds : Int32 × Int32) (stack : BitVec 64) :
    Counted (init tickleFds stack : EventCount Cb) := ⟨rfl, rfl, rfl⟩

/-- Over every run from the constructor: `m_number_event` is the number of the
registrations in every state, and is never counted down at 0, if and only if every
step of the run balances. -/
theorem counted_along_iff (tickleFds : Int32 × Int32) (stack : BitVec 64)
    (as : List (CountStep Cb)) :
    Always step Counted (init tickleFds stack) as ↔ Along step Balances (init tickleFds stack) as :=
  always_iff_along (I := fun _ => True) (fun _ _ => trivial)
    (fun _ counted edge => counted_step_iff counted edge) trivial (counted_init tickleFds stack)

/-- A registration is reported, and taken out. -/
def cycle : List (CountStep ℕ) :=
  [.io (.call (.addEvent 5 (some 0) Event.READ false 64) none), .io (.report 5 EPOLLIN),
    .io (.call (.delEvent 5 Event.READ false) none)]

/-- After the report nothing is counted and one registration is held; and taking that
out counts down at 0. -/
theorem counted_fails :
    (∃ s, exec step (init (3, 4) 0) (cycle.take 2) = some s ∧
        s.mgr.mNumberEvent = 0 ∧ s.mgr.held = 1) ∧
      ∃ s, exec step (init (3, 4) 0) cycle = some s ∧ s.underflow = true ∧
        s.mgr.mNumberEvent = 18446744073709551615 ∧ s.mgr.held = 0 := by
  refine ⟨⟨_, rfl, ?_⟩, ⟨_, rfl, ?_⟩⟩
  · exact ⟨rfl, rfl⟩
  · exact ⟨rfl, rfl, rfl⟩

end EventCount

end Sylar
