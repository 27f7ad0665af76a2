import Sylar.IOmanager.Effects

/-!
# Where the callbacks of the table come from

A context holds for a direction what it held before the call, or the callback
that `addEvent` was called with; a report passes on callbacks of the table only;
and a call touches the context of its own descriptor only.

* `waits_apply`, `lookup_apply`: the two facts for the calls.
* `waits_report`: the one for a report.
-/

namespace Sylar

open Epoll

variable {Cb : Type}

/-- `cb` stands in the context of `fd` for the direction `d`. -/
def IOmanager.Waits (s : IOmanager Cb) (fd : Int32) (d : Direction) (cb : Cb) : Prop :=
  ∃ ctx, s.mEvents.lookup fd = some ctx ∧ (ctx.waiter d).mCb = some cb

namespace FdContext

theorem waiter_reset (c : FdContext Cb) (fd : Int32) (cb : Option Cb) (event : Event)
    (d : Direction) :
    ((c.reset fd cb event).waiter d).mCb = if event = d.event then cb else (c.waiter d).mCb := by
  have apart : Event.READ ≠ Event.WRITE := by decide
  unfold reset
  by_cases reading : event = Event.READ
  · subst reading
    cases d with
    | read => simp [waiter, Direction.event]
    | write => simp [waiter, Direction.event, apart]
  · by_cases writing : event = Event.WRITE
    · subst writing
      cases d with
      | read => simp [waiter, Direction.event, apart.symm]
      | write => simp [waiter, Direction.event, apart.symm]
    · cases d with
      | read => simp [waiter, Direction.event, reading, writing]
      | write => simp [waiter, Direction.event, reading, writing]

theorem mem_triggerEvent {c : FdContext Cb} {d : Direction} {cbs : List Cb} {cb : Cb}
    (triggered : c.triggerEvent d.event = .ok cbs) (member : cb ∈ cbs) :
    (c.waiter d).mCb = some cb := by
  have entry : c.getEvent d.event = .ok (c.waiter d) := by
    cases d <;> rfl
  unfold triggerEvent at triggered
  rw [entry] at triggered
  dsimp only at triggered
  split at triggered
  · cases triggered
    cases member
  · cases triggered
    exact Option.mem_toList.mp member

end FdContext

namespace IOmanager

variable {s s' : IOmanager Cb} {fd x : Int32} {d : Direction} {cb : Cb}

theorem waits_congr (table : s'.mEvents = s.mEvents) : Waits s' fd d cb ↔ Waits s fd d cb := by
  unfold Waits
  rw [table]

theorem not_waits_of_none (absent : s.mEvents.lookup fd = none) : ¬ Waits s fd d cb := by
  rintro ⟨ctx, found, -⟩
  rw [absent] at found
  cases found

/-- A table with one context written. -/
theorem waits_insert {ctx : FdContext Cb} (table : s'.mEvents = s.mEvents.insert fd ctx) :
    Waits s' x d cb ↔ if x = fd then (ctx.waiter d).mCb = some cb else Waits s x d cb := by
  unfold Waits
  rw [table, lookup_insert]
  split
  · simp only [Option.some.injEq, exists_eq_left']
  · exact Iff.rfl

theorem waits_erase (table : s'.mEvents = s.mEvents.erase fd) :
    Waits s' x d cb ↔ x ≠ fd ∧ Waits s x d cb := by
  unfold Waits
  rw [table, lookup_erase]
  by_cases here : x = fd
  · rw [if_pos here]
    exact iff_of_false (fun ⟨_, found, _⟩ => nomatch found) fun both => both.1 here
  · rw [if_neg here, and_iff_right here]

theorem waiter_addedContext (event : Event) (given : Option Cb) (change : Bool)
    (alloc : BitVec 64) :
    ((s.addedContext fd given event change alloc).waiter d).mCb = some cb ↔
      if event = d.event then given = some cb else Waits s fd d cb := by
  unfold addedContext Waits
  rw [FdContext.waiter_reset]
  split
  · exact Iff.rfl
  · cases s.mEvents.lookup fd with
    | none =>
      refine iff_of_false (fun stored => ?_) fun ⟨_, found, _⟩ => nomatch found
      cases d <;> cases stored
    | some ctx =>
      simp only [Option.getD_some, Option.some.injEq, exists_eq_left']
      cases d <;> exact Iff.rfl

/-- After `addEvent`: its own callback, and what waited before. -/
theorem waits_addEvent {event : Event} {given : Option Cb} {change : Bool} {alloc : BitVec 64}
    {refuse : Option Errno}
    (waits : Waits (s.addEvent fd given event change alloc refuse).1 x d cb) :
    Waits s x d cb ∨ (x = fd ∧ event = d.event ∧ given = some cb) := by
  have written : ∀ s' : IOmanager Cb,
      s'.mEvents = s.mEvents.insert fd (s.addedContext fd given event change alloc) →
      Waits s' x d cb → Waits s x d cb ∨ (x = fd ∧ event = d.event ∧ given = some cb) := by
    intro s' table waits
    rw [waits_insert table] at waits
    split at waits
    · next here =>
      rw [waiter_addedContext] at waits
      split at waits
      · next own => exact .inr ⟨here, own, waits⟩
      · exact .inl (here ▸ waits)
    · exact .inl waits
  rcases s.addEvent_cases fd given event change alloc refuse with
    ⟨-, after, -⟩ | ⟨-, -, after, -⟩ | ⟨-, -, after, -⟩
  · rw [after] at waits
    exact .inl waits
  · exact written _ (by rw [after]) waits
  · exact written _ (by rw [after]) waits

theorem waits_delEvent {event : Event} {activate : Bool} {refuse : Option Errno}
    (waits : Waits (s.delEvent fd event activate refuse).1 x d cb) : Waits s x d cb := by
  cases found : s.mEvents.lookup fd with
  | none => rwa [s.delEvent_absent found] at waits
  | some ctx =>
    rcases s.delEvent_cases found event activate refuse with ⟨-, after, -⟩ | ⟨-, after, -⟩
    · exact (waits_congr (by rw [after])).mp waits
    · have table := congrArg IOmanager.mEvents after
      dsimp only at table
      split at table
      · exact (waits_congr table).mp waits
      · exact ((waits_erase table).mp waits).2

/-- A callback that `delEvent` calls has waited for its direction. -/
theorem waits_of_called {refuse : Option Errno}
    (called : (s.delEvent fd d.event true refuse).2.called = some cb) : Waits s fd d cb := by
  cases found : s.mEvents.lookup fd with
  | none =>
    rw [s.delEvent_absent found] at called
    cases called
  | some ctx =>
    by_cases accepted : Accepts s.epoll .del fd refuse
    · cases stored : (ctx.waiter d).mCb with
      | some cb' =>
        rw [s.delEvent_activated found accepted stored] at called
        cases called
        exact ⟨ctx, found, stored⟩
      | none =>
        obtain ⟨_, throws⟩ := s.delEvent_throws found accepted stored
        rw [throws] at called
        cases called
    · obtain ⟨err, after⟩ := s.delEvent_refused found accepted d.event true
      rw [after] at called
      cases called

theorem waits_cancel {refuse : Option Errno} (waits : Waits (s.cancel fd refuse).1 x d cb) :
    Waits s x d cb := by
  cases found : s.mEvents.lookup fd with
  | none => rwa [s.cancel_absent found] at waits
  | some ctx =>
    rcases s.cancel_cases found refuse with ⟨-, after, -⟩ | ⟨-, after, -⟩
    · exact ((waits_erase (by rw [after])).mp waits).2
    · exact ((waits_erase (by rw [after])).mp waits).2

theorem waits_changerEvent {event : Event} {refuse : Option Errno}
    (waits : Waits (s.changerEvent fd event refuse).1 x d cb) : Waits s x d cb := by
  cases found : s.mEvents.lookup fd with
  | none => rwa [s.changerEvent_absent found] at waits
  | some ctx =>
    have written : ∀ s' : IOmanager Cb,
        s'.mEvents = s.mEvents.insert fd (changedContext ctx event) →
        Waits s' x d cb → Waits s x d cb := by
      intro s' table waits
      rw [waits_insert table] at waits
      split at waits
      · next here =>
        refine ⟨ctx, here ▸ found, ?_⟩
        cases d <;> exact waits
      · exact waits
    rcases s.changerEvent_cases found event refuse with ⟨-, after, -⟩ | ⟨-, after, -⟩
    · exact written _ (by rw [after]) waits
    · exact written _ (by rw [after]) waits

/-- After a call of somebody else's: nothing new waits but the callback of the
call. -/
theorem waits_apply {c : EventCall ℕ} {f : ℕ → Cb} {refuse : Option Errno}
    (waits : Waits (s.apply (c.map f) refuse).1 x d cb) : Waits s x d cb ∨ ∃ k, cb = f k := by
  cases c with
  | addEvent fd given event change alloc =>
    rcases waits_addEvent waits with old | ⟨-, -, new⟩
    · exact .inl old
    · obtain ⟨k, -, same⟩ := Option.map_eq_some_iff.mp new
      exact .inr ⟨k, same.symm⟩
  | delEvent fd event activate => exact .inl (waits_delEvent waits)
  | cancel fd => exact .inl (waits_cancel waits)
  | changerEvent fd event => exact .inl (waits_changerEvent waits)

/-- A call leaves the contexts of other descriptors alone. -/
theorem lookup_apply {c : EventCall Cb} (refuse : Option Errno) (other : x ≠ c.fd) :
    (s.apply c refuse).1.mEvents.lookup x = s.mEvents.lookup x := by
  cases c with
  | addEvent fd cb event change alloc =>
    show (s.addEvent fd cb event change alloc refuse).1.mEvents.lookup x = _
    rcases s.addEvent_cases fd cb event change alloc refuse with
      ⟨-, after, -⟩ | ⟨-, -, after, -⟩ | ⟨-, -, after, -⟩
    · rw [after]
    · rw [after]
      exact AList.lookup_insert_ne other
    · rw [after]
      exact AList.lookup_insert_ne other
  | delEvent fd event activate =>
    show (s.delEvent fd event activate refuse).1.mEvents.lookup x = _
    cases found : s.mEvents.lookup fd with
    | none => rw [s.delEvent_absent found]
    | some ctx =>
      rcases s.delEvent_cases found event activate refuse with ⟨-, after, -⟩ | ⟨-, after, -⟩
      · rw [after]
      · rw [after]
        dsimp only
        split
        · rfl
        · exact AList.lookup_erase_ne other
  | cancel fd =>
    show (s.cancel fd refuse).1.mEvents.lookup x = _
    cases found : s.mEvents.lookup fd with
    | none => rw [s.cancel_absent found]
    | some ctx =>
      rcases s.cancel_cases found refuse with ⟨-, after, -⟩ | ⟨-, after, -⟩
      · rw [after]
        exact AList.lookup_erase_ne other
      · rw [after]
        exact AList.lookup_erase_ne other
  | changerEvent fd event =>
    show (s.changerEvent fd event refuse).1.mEvents.lookup x = _
    cases found : s.mEvents.lookup fd with
    | none => rw [s.changerEvent_absent found]
    | some ctx =>
      rcases s.changerEvent_cases found event refuse with ⟨-, after, -⟩ | ⟨-, after, -⟩
      · rw [after]
        exact AList.lookup_insert_ne other
      · rw [after]
        exact AList.lookup_insert_ne other

/-! ## Reports -/

theorem mem_fire {ctx : FdContext Cb} {real : Event} (member : cb ∈ (s.fire ctx real d.event).2) :
    (ctx.waiter d).mCb = some cb := by
  unfold fire at member
  split at member
  · cases member
  · cases triggered : ctx.triggerEvent d.event with
    | ok cbs =>
      simp only [triggered] at member
      exact FdContext.mem_triggerEvent triggered member
    | error e =>
      simp only [triggered, List.not_mem_nil] at member

theorem mem_handle {ctx : FdContext Cb} {events : BitVec 32}
    (member : cb ∈ (s.handle ctx events).2) : ∃ d, (ctx.waiter d).mCb = some cb := by
  unfold handle at member
  dsimp only at member
  by_cases nothing :
      ctx.eventsNow &&& (if realEvents ctx events = Event.NONE then 1#32 else 0#32) ≠ 0#32
  · rw [if_pos nothing] at member
    cases member
  · rw [if_neg nothing] at member
    rcases List.mem_append.mp member with reads | writes
    · exact ⟨.read, mem_fire (d := .read) reads⟩
    · exact ⟨.write, mem_fire (d := .write) writes⟩

/-- A report passes on what waits in the table. -/
theorem waits_report {events : BitVec 32} {data : BitVec 64} {cbs : List Cb}
    (reported : s.report events data = some (s', cbs)) (member : cb ∈ cbs) :
    ∃ fd d, Waits s fd d cb := by
  unfold report at reported
  cases sent : s.target data with
  | tickle =>
    rw [sent] at reported
    cases reported
    cases member
  | context fd ctx =>
    simp only [sent, Option.some.injEq] at reported
    have inside : cb ∈ (s.handle ctx events).2 := by rwa [reported]
    obtain ⟨d, stored⟩ := mem_handle inside
    refine ⟨fd, d, ctx, ?_, stored⟩
    unfold target at sent
    split at sent
    · cases sent
    · split at sent
      · next fd' ctx' hit =>
        cases sent
        exact (lookup_of_contextAt hit).1
      · cases sent
  | dangling =>
    rw [sent] at reported
    cases reported

end IOmanager

end Sylar
