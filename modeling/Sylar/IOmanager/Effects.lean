import Sylar.IOmanager.Model

/-!
# What the calls do to the table

Each call either leaves the state as it is, or updates the table and the counter
and has its `epoll_ctl` request refused, or has it accepted. There is one lemma
for each call, with the whole state after it and whether it returned `false`.
-/

namespace Sylar

open Epoll

variable {Cb : Type}

namespace Event

theorem none_guard {event : Event} :
    (event = NONE ∧ event ≠ READ ∧ event ≠ WRITE) ↔ event = NONE := by
  constructor
  · intro all
    exact all.1
  · intro none
    subst none
    decide

end Event

namespace Reply

/-- The call has returned `false`. -/
def Failed (r : Reply Cb) : Prop := r.ret = .ok false

/-- The kernel has rejected the request, and the call returned `false`. -/
def Rejected (r : Reply Cb) : Prop := r.Failed ∧ r.errno ≠ none

/-- The kernel has taken the request, and the call did not return `false`. -/
def Taken (r : Reply Cb) : Prop := ¬ r.Failed ∧ r.errno = none

end Reply

/-- Looking up after an insertion. -/
theorem lookup_insert {V : Type} (m : AList fun _ : Int32 => V) (fd fd' : Int32) (v : V) :
    (m.insert fd v).lookup fd' = if fd' = fd then some v else m.lookup fd' := by
  split
  · next same =>
    subst same
    exact AList.lookup_insert m
  · next other => exact AList.lookup_insert_ne other

/-- Looking up after an erasure. -/
theorem lookup_erase {V : Type} (m : AList fun _ : Int32 => V) (fd fd' : Int32) :
    (m.erase fd).lookup fd' = if fd' = fd then none else m.lookup fd' := by
  split
  · next same =>
    subst same
    exact AList.lookup_erase fd' m
  · next other => exact AList.lookup_erase_ne other

namespace IOmanager

variable (s : IOmanager Cb)

/-- The entry that `addEvent` hands to the kernel. -/
def addedEntry (fd : Int32) (cb : Option Cb) (event : Event) (change : Bool) (alloc : BitVec 64) :
    Entry :=
  ⟨event ||| EPOLLET, (s.addedContext fd cb event change alloc).addr⟩

@[simp] theorem eventsNow_addedContext (fd : Int32) (cb : Option Cb) (event : Event)
    (change : Bool) (alloc : BitVec 64) :
    (s.addedContext fd cb event change alloc).eventsNow = event := by
  unfold addedContext
  rw [FdContext.eventsNow_reset]

@[simp] theorem addr_addedContext (fd : Int32) (cb : Option Cb) (event : Event)
    (change : Bool) (alloc : BitVec 64) :
    (s.addedContext fd cb event change alloc).addr =
      ((s.mEvents.lookup fd).getD (FdContext.new alloc)).addr := by
  unfold addedContext
  rw [FdContext.addr_reset]

theorem addEvent_cases (fd : Int32) (cb : Option Cb) (event : Event) (change : Bool)
    (alloc : BitVec 64) (refuse : Option Errno) :
    (event = Event.NONE ∧ (s.addEvent fd cb event change alloc refuse).1 = s ∧
        (s.addEvent fd cb event change alloc refuse).2 = ⟨.ok false, none, none⟩) ∨
      (event ≠ Event.NONE ∧ ¬ Accepts s.epoll (s.addedOp fd) fd refuse ∧
        (s.addEvent fd cb event change alloc refuse).1 =
          { s with mEvents := s.mEvents.insert fd (s.addedContext fd cb event change alloc) } ∧
        (s.addEvent fd cb event change alloc refuse).2.Rejected) ∨
      (event ≠ Event.NONE ∧ Accepts s.epoll (s.addedOp fd) fd refuse ∧
        (s.addEvent fd cb event change alloc refuse).1 =
          { s with
            mEvents := s.mEvents.insert fd (s.addedContext fd cb event change alloc)
            epoll := Function.update s.epoll fd (some (s.addedEntry fd cb event change alloc))
            mNumberEvent := s.mNumberEvent + 1 } ∧
        (s.addEvent fd cb event change alloc refuse).2.Taken) := by
  unfold addEvent Reply.Rejected Reply.Taken Reply.Failed
  simp only [Event.none_guard]
  by_cases empty : event = Event.NONE
  · rw [if_pos empty]
    exact .inl ⟨empty, rfl, rfl⟩
  rw [if_neg empty]
  by_cases accepted : Accepts s.epoll (s.addedOp fd) fd refuse
  · refine .inr (.inr ⟨empty, accepted, ?_⟩)
    have op : result (s.addedOp fd) (s.addedEntry fd cb event change alloc) =
        some (s.addedEntry fd cb event change alloc) := by
      unfold addedOp
      split <;> rfl
    have taken := ctl_of_accepts (e := s.addedEntry fd cb event change alloc) accepted
    rw [op] at taken
    unfold addedEntry at taken
    simp only [taken]
    cases (s.addedContext fd cb event change alloc).getEvent event with
    | error e => exact ⟨rfl, (fun same => nomatch same), rfl⟩
    | ok ctx => exact ⟨rfl, (fun same => nomatch same), rfl⟩
  · refine .inr (.inl ⟨empty, accepted, ?_⟩)
    obtain ⟨err, rejected⟩ :=
      ctl_eq_error (e := s.addedEntry fd cb event change alloc) accepted
    unfold addedEntry at rejected
    simp only [rejected]
    exact ⟨trivial, trivial, fun same => nomatch same⟩

theorem delEvent_absent {fd : Int32} (absent : s.mEvents.lookup fd = none) (event : Event)
    (activate : Bool) (refuse : Option Errno) :
    s.delEvent fd event activate refuse = (s, ⟨.ok false, none, none⟩) := by
  unfold delEvent
  rw [absent]

/-- A refused request has been counted down already. An accepted one erases the
context, unless the callback to activate is empty. -/
theorem delEvent_cases {fd : Int32} {ctx : FdContext Cb} (found : s.mEvents.lookup fd = some ctx)
    (event : Event) (activate : Bool) (refuse : Option Errno) :
    (¬ Accepts s.epoll .del fd refuse ∧
        (s.delEvent fd event activate refuse).1 = { s with mNumberEvent := s.mNumberEvent - 1 } ∧
        (s.delEvent fd event activate refuse).2.Rejected) ∨
      (Accepts s.epoll .del fd refuse ∧
        (s.delEvent fd event activate refuse).1 =
          { s with
            mNumberEvent := s.mNumberEvent - 1
            epoll := Function.update s.epoll fd none
            mEvents := if activate ∧ (event = Event.READ ∧ ctx.read.mCb = none ∨
                event = Event.WRITE ∧ ctx.write.mCb = none) then s.mEvents
              else s.mEvents.erase fd } ∧
        (s.delEvent fd event activate refuse).2.Taken) := by
  unfold delEvent Reply.Rejected Reply.Taken Reply.Failed
  rw [found]
  by_cases accepted : Accepts s.epoll .del fd refuse
  · refine .inr ⟨accepted, ?_⟩
    have taken := ctl_of_accepts (e := ⟨ctx.eventsNow, ctx.addr⟩) accepted
    simp only [taken, result]
    have apart : Event.READ ≠ Event.WRITE := by decide
    cases activate with
    | false => simp
    | true =>
      by_cases reading : event = Event.READ
      · subst reading
        cases stored : ctx.read.mCb <;> simp [apart, stored]
      · by_cases writing : event = Event.WRITE
        · subst writing
          cases stored : ctx.write.mCb <;> simp [apart.symm, stored]
        · simp [reading, writing]
  · refine .inl ⟨accepted, ?_⟩
    obtain ⟨err, rejected⟩ := ctl_eq_error (e := ⟨ctx.eventsNow, ctx.addr⟩) accepted
    simp only [rejected]
    exact ⟨trivial, trivial, fun same => nomatch same⟩

/-- Without activation, an accepted request makes the call return `true`. -/
theorem delEvent_accepted {fd : Int32} {ctx : FdContext Cb}
    (found : s.mEvents.lookup fd = some ctx) {refuse : Option Errno}
    (accepted : Accepts s.epoll .del fd refuse) (event : Event) :
    s.delEvent fd event false refuse =
      ({ s with
          mNumberEvent := s.mNumberEvent - 1
          epoll := Function.update s.epoll fd none
          mEvents := s.mEvents.erase fd }, ⟨.ok true, none, none⟩) := by
  have taken := ctl_of_accepts (e := ⟨ctx.eventsNow, ctx.addr⟩) accepted
  unfold delEvent
  simp only [found, taken, result, Bool.false_eq_true, false_and, if_false]

/-- With activation, a refused request calls no callback. -/
theorem delEvent_refused {fd : Int32} {ctx : FdContext Cb}
    (found : s.mEvents.lookup fd = some ctx) {refuse : Option Errno}
    (refused : ¬ Accepts s.epoll .del fd refuse) (event : Event) (activate : Bool) :
    ∃ err, s.delEvent fd event activate refuse =
      ({ s with mNumberEvent := s.mNumberEvent - 1 }, ⟨.ok false, some err, none⟩) := by
  obtain ⟨err, rejected⟩ := ctl_eq_error (e := ⟨ctx.eventsNow, ctx.addr⟩) refused
  refine ⟨err, ?_⟩
  unfold delEvent
  simp only [found, rejected]

/-- With activation, an accepted request erases the context and calls the callback of
its direction; when that is empty the call throws before the erasure. -/
theorem delEvent_direction {fd : Int32} {ctx : FdContext Cb}
    (found : s.mEvents.lookup fd = some ctx) {refuse : Option Errno}
    (accepted : Accepts s.epoll .del fd refuse) (d : Direction) :
    s.delEvent fd d.event true refuse =
      match (ctx.waiter d).mCb with
      | some cb =>
        ({ s with
            mNumberEvent := s.mNumberEvent - 1
            epoll := Function.update s.epoll fd none
            mEvents := s.mEvents.erase fd }, ⟨.ok true, none, some cb⟩)
      | none =>
        ({ s with
            mNumberEvent := s.mNumberEvent - 1
            epoll := Function.update s.epoll fd none },
          ⟨.error .badFunctionCall, none, none⟩) := by
  have taken := ctl_of_accepts (e := ⟨ctx.eventsNow, ctx.addr⟩) accepted
  unfold delEvent
  rw [found]
  simp only [taken, result]
  have apart : Event.READ ≠ Event.WRITE := by decide
  cases d with
  | read =>
    have here : ctx.waiter .read = ctx.read := rfl
    cases stored : ctx.read.mCb <;> simp [Direction.event, here, stored]
  | write =>
    have here : ctx.waiter .write = ctx.write := rfl
    cases stored : ctx.write.mCb <;> simp [Direction.event, apart.symm, here, stored]

theorem delEvent_activated {fd : Int32} {ctx : FdContext Cb} {d : Direction} {cb : Cb}
    (found : s.mEvents.lookup fd = some ctx) {refuse : Option Errno}
    (accepted : Accepts s.epoll .del fd refuse) (stored : (ctx.waiter d).mCb = some cb) :
    s.delEvent fd d.event true refuse =
      ({ s with
          mNumberEvent := s.mNumberEvent - 1
          epoll := Function.update s.epoll fd none
          mEvents := s.mEvents.erase fd }, ⟨.ok true, none, some cb⟩) := by
  rw [s.delEvent_direction found accepted d, stored]

theorem delEvent_throws {fd : Int32} {ctx : FdContext Cb} {d : Direction}
    (found : s.mEvents.lookup fd = some ctx) {refuse : Option Errno}
    (accepted : Accepts s.epoll .del fd refuse) (empty : (ctx.waiter d).mCb = none) :
    ∃ s', s.delEvent fd d.event true refuse = (s', ⟨.error .badFunctionCall, none, none⟩) := by
  rw [s.delEvent_direction found accepted d, empty]
  exact ⟨_, rfl⟩

/-- The error that `addEvent` leaves is that of its request. -/
theorem errno_addEvent (fd : Int32) (cb : Option Cb) {event : Event}
    (some_event : event ≠ Event.NONE) (change : Bool) (alloc : BitVec 64) (refuse : Option Errno) :
    (s.addEvent fd cb event change alloc refuse).2.errno =
      refusal s.epoll (s.addedOp fd) fd refuse := by
  unfold addEvent
  simp only [Event.none_guard, if_neg some_event]
  cases refused : refusal s.epoll (s.addedOp fd) fd refuse with
  | none =>
    simp only [ctl_of_no_refusal refused]
    cases (s.addedContext fd cb event change alloc).getEvent event <;> rfl
  | some err => simp only [ctl_of_refusal refused]

/-- The error that `delEvent` leaves is that of its request, when it makes one. -/
theorem errno_delEvent {fd : Int32} {ctx : FdContext Cb}
    (found : s.mEvents.lookup fd = some ctx) (event : Event) (refuse : Option Errno) :
    (s.delEvent fd event false refuse).2.errno = refusal s.epoll .del fd refuse := by
  unfold delEvent
  rw [found]
  cases refused : refusal s.epoll .del fd refuse with
  | none =>
    simp only [ctl_of_no_refusal refused, Bool.false_eq_true, false_and, if_false]
  | some err => simp only [ctl_of_refusal refused]

theorem cancel_absent {fd : Int32} (absent : s.mEvents.lookup fd = none)
    (refuse : Option Errno) : s.cancel fd refuse = (s, ⟨.ok false, none, none⟩) := by
  unfold cancel
  rw [absent]

/-- The context is erased whether or not the request is accepted. -/
theorem cancel_cases {fd : Int32} {ctx : FdContext Cb} (found : s.mEvents.lookup fd = some ctx)
    (refuse : Option Errno) :
    (¬ Accepts s.epoll .del fd refuse ∧
        (s.cancel fd refuse).1 = { s with mEvents := s.mEvents.erase fd } ∧
        (s.cancel fd refuse).2.Rejected) ∨
      (Accepts s.epoll .del fd refuse ∧
        (s.cancel fd refuse).1 =
          { s with mEvents := s.mEvents.erase fd, epoll := Function.update s.epoll fd none } ∧
        (s.cancel fd refuse).2.Taken) := by
  unfold cancel Reply.Rejected Reply.Taken Reply.Failed
  rw [found]
  by_cases accepted : Accepts s.epoll .del fd refuse
  · refine .inr ⟨accepted, ?_⟩
    have taken := ctl_of_accepts (e := ⟨ctx.eventsNow, withFd ctx.addr fd.toBitVec⟩) accepted
    simp only [taken, result]
    exact ⟨trivial, (fun same => nomatch same), trivial⟩
  · refine .inl ⟨accepted, ?_⟩
    obtain ⟨err, rejected⟩ :=
      ctl_eq_error (e := ⟨ctx.eventsNow, withFd ctx.addr fd.toBitVec⟩) accepted
    simp only [rejected]
    exact ⟨trivial, trivial, fun same => nomatch same⟩

/-- The context `changerEvent` stores, and the entry it hands to the kernel. -/
def changedContext (ctx : FdContext Cb) (event : Event) : FdContext Cb :=
  { ctx with eventsNow := event }

def changedEntry (ctx : FdContext Cb) (fd : Int32) (event : Event) : Entry :=
  ⟨event ||| EPOLLET, withFd ctx.addr fd.toBitVec⟩

theorem changerEvent_absent {fd : Int32} (absent : s.mEvents.lookup fd = none) (event : Event)
    (refuse : Option Errno) :
    s.changerEvent fd event refuse = (s, ⟨.ok false, none, none⟩) := by
  unfold changerEvent
  rw [absent]

theorem changerEvent_cases {fd : Int32} {ctx : FdContext Cb}
    (found : s.mEvents.lookup fd = some ctx) (event : Event) (refuse : Option Errno) :
    (¬ Accepts s.epoll .mod fd refuse ∧
        (s.changerEvent fd event refuse).1 =
          { s with mEvents := s.mEvents.insert fd (changedContext ctx event) } ∧
        (s.changerEvent fd event refuse).2.Rejected) ∨
      (Accepts s.epoll .mod fd refuse ∧
        (s.changerEvent fd event refuse).1 =
          { s with
            mEvents := s.mEvents.insert fd (changedContext ctx event)
            epoll := Function.update s.epoll fd (some (changedEntry ctx fd event)) } ∧
        (s.changerEvent fd event refuse).2.Taken) := by
  unfold changerEvent Reply.Rejected Reply.Taken Reply.Failed
  rw [found]
  by_cases accepted : Accepts s.epoll .mod fd refuse
  · refine .inr ⟨accepted, ?_⟩
    have taken := ctl_of_accepts (e := changedEntry ctx fd event) accepted
    unfold changedEntry at taken
    simp only [taken, result]
    exact ⟨rfl, (fun same => nomatch same), trivial⟩
  · refine .inl ⟨accepted, ?_⟩
    obtain ⟨err, rejected⟩ := ctl_eq_error (e := changedEntry ctx fd event) accepted
    unfold changedEntry at rejected
    simp only [rejected]
    exact ⟨rfl, trivial, fun same => nomatch same⟩

theorem fire_frame (ctx : FdContext Cb) (real event : Event) :
    (s.fire ctx real event).1.mEvents = s.mEvents ∧ (s.fire ctx real event).1.epoll = s.epoll ∧
      (s.fire ctx real event).1.mTickleFds = s.mTickleFds := by
  unfold fire
  split <;> exact ⟨rfl, rfl, rfl⟩

theorem handle_frame (ctx : FdContext Cb) (events : BitVec 32) :
    (s.handle ctx events).1.mEvents = s.mEvents ∧ (s.handle ctx events).1.epoll = s.epoll ∧
      (s.handle ctx events).1.mTickleFds = s.mTickleFds := by
  have first := s.fire_frame ctx (realEvents ctx events) Event.READ
  have second := (s.fire ctx (realEvents ctx events) Event.READ).1.fire_frame ctx
    (realEvents ctx events) Event.WRITE
  unfold handle
  dsimp only
  by_cases nothing :
      ctx.eventsNow &&& (if realEvents ctx events = Event.NONE then 1#32 else 0#32) ≠ 0#32
  · rw [if_pos nothing]
    exact ⟨rfl, rfl, rfl⟩
  · rw [if_neg nothing]
    exact ⟨second.1.trans first.1, second.2.1.trans first.2.1, second.2.2.trans first.2.2⟩

/-- A report counts directions down and leaves the table and the kernel alone. -/
theorem report_frame {events : BitVec 32} {data : BitVec 64} {s' : IOmanager Cb} {cbs : List Cb}
    (reported : s.report events data = some (s', cbs)) :
    s'.mEvents = s.mEvents ∧ s'.epoll = s.epoll ∧ s'.mTickleFds = s.mTickleFds := by
  unfold report at reported
  cases sent : s.target data with
  | tickle =>
    rw [sent] at reported
    cases reported
    exact ⟨rfl, rfl, rfl⟩
  | context fd ctx =>
    simp only [sent, Option.some.injEq] at reported
    have frame := s.handle_frame ctx events
    rwa [reported] at frame
  | dangling =>
    rw [sent] at reported
    cases reported

/-! ## Contexts by their address -/

variable {s} {fd : Int32} {ctx : FdContext Cb}

theorem contextAt_eq_none {ptr : BitVec 64} (absent : s.contextAt ptr = none)
    (found : s.mEvents.lookup fd = some ctx) : ctx.addr ≠ ptr := by
  unfold contextAt at absent
  rw [Option.map_eq_none_iff, List.find?_eq_none] at absent
  have member := AList.mem_lookup_iff.mp (Option.mem_def.mpr found)
  have other := absent _ member
  rwa [beq_iff_eq] at other

theorem lookup_of_contextAt {ptr : BitVec 64} (hit : s.contextAt ptr = some (fd, ctx)) :
    s.mEvents.lookup fd = some ctx ∧ ctx.addr = ptr := by
  unfold contextAt at hit
  obtain ⟨⟨fd', ctx'⟩, found, same⟩ := Option.map_eq_some_iff.mp hit
  obtain ⟨rfl, rfl⟩ := Prod.mk.inj same
  refine ⟨Option.mem_def.mp (AList.mem_lookup_iff.mpr (List.mem_of_find?_eq_some found)), ?_⟩
  have here := List.find?_some found
  rwa [beq_iff_eq] at here

/-! ## Steps -/

variable (s)

/-- A step is a call the allocator allows, or a report. -/
theorem step_call {c : EventCall Cb} {refuse : Option Errno} {s' : IOmanager Cb} :
    s.step (.call c refuse) = some s' ↔ s.enabled c = true ∧ (s.apply c refuse).1 = s' := by
  unfold step
  dsimp only
  by_cases enabled : s.enabled c = true
  · rw [if_pos enabled, Option.some.injEq, and_iff_right enabled]
  · rw [if_neg enabled]
    exact iff_of_false (fun none => nomatch none) fun both => enabled both.1

theorem step_report {fd : Int32} {events : BitVec 32} {s' : IOmanager Cb}
    (edge : s.step (.report fd events) = some s') :
    s'.mEvents = s.mEvents ∧ s'.epoll = s.epoll ∧ s'.mTickleFds = s.mTickleFds := by
  obtain ⟨entry, -, edge⟩ := Option.bind_eq_some_iff.mp edge
  obtain ⟨⟨s'', cbs⟩, reported, rfl⟩ := Option.map_eq_some_iff.mp edge
  exact s.report_frame reported

end IOmanager

end Sylar
