import Sylar.IOmanager.Effects
import Sylar.Lib.Runs

/-!
# Where a readiness report goes

The user data of a descriptor is a union: `addEvent` leaves the address of the
context in it, the constructor a descriptor, and `changerEvent` the address with
a descriptor written over its low half. `idle` reads it as a descriptor first
and as an address otherwise.

* `dispatches_iff`: what a single descriptor needs for its reports to arrive.
* `step_linked`: which steps keep the data of every descriptor right.
* `dispatches_along_iff`: the runs in which every report arrives are those whose
  steps are all `Faithful`.
-/

namespace Sylar.IOmanager

open Epoll

variable {Cb : Type}

/-- The reports of a descriptor arrive: the data stored for a descriptor in
`m_events` is the address of its context, `idle` takes only the pipe for the
pipe, and it sends every other report to the context of its descriptor. -/
structure Dispatches (s : IOmanager Cb) (fd : Int32) : Prop where
  data : ∀ ctx entry, s.mEvents.lookup fd = some ctx → s.epoll fd = some entry →
    entry.data = ctx.addr
  tickle : ∀ entry, s.epoll fd = some entry → fdOf entry.data = s.mTickleFds.1.toBitVec →
    fd = s.mTickleFds.1
  target : ∀ entry, s.epoll fd = some entry → fd ≠ s.mTickleFds.1 →
    ∃ ctx, s.mEvents.lookup fd = some ctx ∧ s.target entry.data = .context fd ctx

/-- The steps that store the right data. `addEvent` puts a new context only
where its address is the data stored already, or, if the kernel takes the
request, where the address cannot be taken for the pipe. `cancel` is not refused
for a registered descriptor. `changerEvent` is refused, or writes the descriptor
over an address whose low half it is. -/
def Faithful (s : IOmanager Cb) : IOStep Cb → Prop
  | .call (.addEvent fd _ event _ alloc) refuse =>
    event ≠ Event.NONE → s.mEvents.lookup fd = none →
      match s.epoll fd with
      | some entry => entry.data = alloc
      | none => refuse = none → fdOf alloc = s.mTickleFds.1.toBitVec → fd = s.mTickleFds.1
  | .call (.cancel fd) refuse =>
    s.mEvents.lookup fd ≠ none → s.epoll fd ≠ none → fd ≠ s.mTickleFds.1 → refuse = none
  | .call (.changerEvent fd _) refuse =>
    ∀ ctx, s.mEvents.lookup fd = some ctx → s.epoll fd ≠ none → refuse = none →
      fdOf ctx.addr = fd.toBitVec
  | _ => True

variable {s s' : IOmanager Cb} {a : IOStep Cb} {fd : Int32} {ctx : FdContext Cb} {entry : Entry}

/-! ## Contexts by their address -/

/-- Different descriptors have contexts at different addresses. -/
def Distinct (s : IOmanager Cb) : Prop :=
  ∀ fd fd' ctx ctx', s.mEvents.lookup fd = some ctx → s.mEvents.lookup fd' = some ctx' →
    ctx.addr = ctx'.addr → fd = fd'

/-- A context is found at its address. -/
theorem Distinct.contextAt (distinct : Distinct s) (found : s.mEvents.lookup fd = some ctx) :
    s.contextAt ctx.addr = some (fd, ctx) := by
  cases hit : s.contextAt ctx.addr with
  | none => exact absurd rfl (contextAt_eq_none hit found)
  | some pair =>
    obtain ⟨fd', ctx'⟩ := pair
    obtain ⟨found', same⟩ := lookup_of_contextAt hit
    obtain rfl := distinct fd' fd ctx' ctx found' found same
    rw [found] at found'
    cases found'
    rfl

theorem Distinct.insert (distinct : Distinct s)
    (apart : ∀ other ctx', other ≠ fd → s.mEvents.lookup other = some ctx' → ctx'.addr ≠ ctx.addr)
    (events : s'.mEvents = s.mEvents.insert fd ctx) : Distinct s' := by
  intro x y cx cy foundx foundy same
  rw [events, lookup_insert] at foundx foundy
  by_cases herex : x = fd
  · by_cases herey : y = fd
    · exact herex.trans herey.symm
    · rw [if_pos herex] at foundx
      rw [if_neg herey] at foundy
      cases foundx
      exact absurd same.symm (apart y cy herey foundy)
  · rw [if_neg herex] at foundx
    by_cases herey : y = fd
    · rw [if_pos herey] at foundy
      cases foundy
      exact absurd same (apart x cx herex foundx)
    · rw [if_neg herey] at foundy
      exact distinct x y cx cy foundx foundy same

theorem Distinct.erase (distinct : Distinct s) (events : s'.mEvents = s.mEvents.erase fd) :
    Distinct s' := by
  intro x y cx cy foundx foundy
  rw [events, lookup_erase] at foundx foundy
  by_cases herex : x = fd
  · rw [if_pos herex] at foundx
    cases foundx
  · by_cases herey : y = fd
    · rw [if_pos herey] at foundy
      cases foundy
    · rw [if_neg herex] at foundx
      rw [if_neg herey] at foundy
      exact distinct x y cx cy foundx foundy

theorem Distinct.congr (distinct : Distinct s) (events : s'.mEvents = s.mEvents) : Distinct s' := by
  unfold Distinct
  rw [events]
  exact distinct

/-- The context that `addEvent` writes is at its old address, or at a free one. -/
theorem Distinct.apart_added (distinct : Distinct s) {alloc : BitVec 64}
    (free : s.contextAt alloc = none) (fd : Int32) (cb : Option Cb) (event : Event)
    (change : Bool) :
    ∀ other ctx', other ≠ fd → s.mEvents.lookup other = some ctx' →
      ctx'.addr ≠ (s.addedContext fd cb event change alloc).addr := by
  intro other ctx' apart found
  rw [addr_addedContext]
  cases old : s.mEvents.lookup fd with
  | none => exact contextAt_eq_none free found
  | some ctx =>
    intro same
    exact apart (distinct other fd ctx' ctx found old same)

theorem Distinct.next (distinct : Distinct s) (edge : s.step a = some s') : Distinct s' := by
  cases a with
  | report fd events => exact distinct.congr (s.step_report edge).1
  | call c refuse =>
    obtain ⟨enabled, rfl⟩ := s.step_call.mp edge
    cases c with
    | addEvent fd cb event change alloc =>
      have apart := distinct.apart_added (Option.isNone_iff_eq_none.mp enabled) fd cb event change
      unfold apply
      dsimp only
      rcases s.addEvent_cases fd cb event change alloc refuse with
        ⟨-, after, -⟩ | ⟨-, -, after, -⟩ | ⟨-, -, after, -⟩
      · rwa [after]
      · exact distinct.insert apart (congrArg IOmanager.mEvents after)
      · exact distinct.insert apart (congrArg IOmanager.mEvents after)
    | delEvent fd event activate =>
      unfold apply
      dsimp only
      cases found : s.mEvents.lookup fd with
      | none => rwa [s.delEvent_absent found]
      | some ctx =>
        rcases s.delEvent_cases found event activate refuse with ⟨-, after, -⟩ | ⟨-, after, -⟩
        · exact distinct.congr (by rw [after])
        · have events := congrArg IOmanager.mEvents after
          dsimp only at events
          split at events
          · exact distinct.congr events
          · exact distinct.erase events
    | cancel fd =>
      unfold apply
      dsimp only
      cases found : s.mEvents.lookup fd with
      | none => rwa [s.cancel_absent found]
      | some ctx =>
        rcases s.cancel_cases found refuse with ⟨-, after, -⟩ | ⟨-, after, -⟩
        · exact distinct.erase (congrArg IOmanager.mEvents after)
        · exact distinct.erase (congrArg IOmanager.mEvents after)
    | changerEvent fd event =>
      unfold apply
      dsimp only
      cases found : s.mEvents.lookup fd with
      | none => rwa [s.changerEvent_absent found]
      | some ctx =>
        have apart : ∀ other ctx', other ≠ fd → s.mEvents.lookup other = some ctx' →
            ctx'.addr ≠ (changedContext ctx event).addr :=
          fun other ctx' apart found' same => apart (distinct other fd ctx' ctx found' found same)
        rcases s.changerEvent_cases found event refuse with ⟨-, after, -⟩ | ⟨-, after, -⟩
        · exact distinct.insert apart (congrArg IOmanager.mEvents after)
        · exact distinct.insert apart (congrArg IOmanager.mEvents after)

/-! ## One descriptor -/

/-- What the reports of a descriptor need of its context and its entry. -/
def Linked (tickle fd : Int32) (ctx : Option (FdContext Cb)) (entry : Option Entry) : Prop :=
  ∀ e, entry = some e → (∀ c, ctx = some c → e.data = c.addr) ∧
    (fdOf e.data = tickle.toBitVec → fd = tickle) ∧ (fd ≠ tickle → ctx ≠ none)

/-- With the contexts at different addresses, that is all they need. -/
theorem dispatches_iff (distinct : Distinct s) :
    Dispatches s fd ↔ Linked s.mTickleFds.1 fd (s.mEvents.lookup fd) (s.epoll fd) := by
  constructor
  · intro arrives e stored
    refine ⟨fun c found => arrives.data c e found stored, arrives.tickle e stored, fun off => ?_⟩
    obtain ⟨ctx, found, -⟩ := arrives.target e stored off
    rw [found]
    exact Option.some_ne_none ctx
  · intro linked
    refine ⟨fun ctx e found stored => (linked e stored).1 ctx found,
      fun e stored => (linked e stored).2.1, fun e stored off => ?_⟩
    obtain ⟨data, tickle, known⟩ := linked e stored
    obtain ⟨ctx, found⟩ := Option.ne_none_iff_exists'.mp (known off)
    refine ⟨ctx, found, ?_⟩
    unfold target
    rw [if_neg fun same => off (tickle same), data ctx found, distinct.contextAt found]

/-- Every descriptor is linked. -/
def AllLinked (s : IOmanager Cb) : Prop :=
  ∀ fd, Linked s.mTickleFds.1 fd (s.mEvents.lookup fd) (s.epoll fd)

/-- A call that changes one descriptor has to keep that one linked. -/
theorem AllLinked.at (all : AllLinked s) (fd : Int32) {m : AList fun _ : Int32 => FdContext Cb}
    {k : InterestSet Int32} {n : UInt64}
    (after : s' = { s with mEvents := m, epoll := k, mNumberEvent := n })
    (events : ∀ other, other ≠ fd → m.lookup other = s.mEvents.lookup other)
    (epoll : ∀ other, other ≠ fd → k other = s.epoll other) :
    AllLinked s' ↔ Linked s.mTickleFds.1 fd (m.lookup fd) (k fd) := by
  subst after
  constructor
  · intro all'
    exact all' fd
  · intro here other
    dsimp only
    by_cases same : other = fd
    · rwa [same]
    · rw [events other same, epoll other same]
      exact all other

/-- The context `addEvent` writes keeps the address of the one stored. -/
theorem linked_added {ctx : FdContext Cb} (found : s.mEvents.lookup fd = some ctx)
    (cb : Option Cb) (event : Event) (change : Bool) (alloc : BitVec 64)
    (linked : Linked s.mTickleFds.1 fd (some ctx) (s.epoll fd)) :
    Linked s.mTickleFds.1 fd (some (s.addedContext fd cb event change alloc)) (s.epoll fd) := by
  intro e stored
  obtain ⟨data, tickle, -⟩ := linked e stored
  refine ⟨fun c same => ?_, tickle, fun _ => Option.some_ne_none _⟩
  cases same
  rw [addr_addedContext, found, Option.getD_some]
  exact data ctx rfl

/-- When the kernel refuses the entry of a new context, that context is linked only
if the entry stands there already. -/
theorem linked_refused (found : s.mEvents.lookup fd = none)
    (before : Linked s.mTickleFds.1 fd (s.mEvents.lookup fd) (s.epoll fd)) {refuse : Option Errno}
    (refused : ¬ Accepts s.epoll (s.addedOp fd) fd refuse) (cb : Option Cb) (event : Event)
    (change : Bool) (alloc : BitVec 64) :
    Linked s.mTickleFds.1 fd (some (s.addedContext fd cb event change alloc)) (s.epoll fd) ↔
      match s.epoll fd with
      | some entry => entry.data = alloc
      | none => refuse = none → fdOf alloc = s.mTickleFds.1.toBitVec → fd = s.mTickleFds.1 := by
  cases stored : s.epoll fd with
  | none =>
    refine iff_of_true (fun e same => nomatch same) fun taken => ?_
    refine absurd ⟨taken, iff_of_true stored ?_⟩ refused
    unfold addedOp
    rw [found]
    rfl
  | some e =>
    obtain ⟨-, tickle, -⟩ := before e stored
    constructor
    · intro linked
      have data := (linked e rfl).1 _ rfl
      rwa [addr_addedContext, found] at data
    · intro data e' same
      cases same
      refine ⟨fun c same => ?_, tickle, fun _ => Option.some_ne_none _⟩
      cases same
      rw [addr_addedContext, found]
      exact data

/-- The entry the kernel takes from `addEvent` points to the context; it must not
be taken for the pipe. -/
theorem linked_written (cb : Option Cb) (event : Event) (change : Bool) (alloc : BitVec 64) :
    Linked s.mTickleFds.1 fd (some (s.addedContext fd cb event change alloc))
        (some (s.addedEntry fd cb event change alloc)) ↔
      (fdOf (s.addedContext fd cb event change alloc).addr = s.mTickleFds.1.toBitVec →
        fd = s.mTickleFds.1) := by
  constructor
  · intro linked
    exact (linked _ rfl).2.1
  · intro tickle e same
    cases same
    refine ⟨fun c same => ?_, tickle, fun _ => Option.some_ne_none _⟩
    cases same
    rfl

theorem step_addEvent (all : AllLinked s) (cb : Option Cb) (event : Event) (change : Bool)
    (alloc : BitVec 64) (refuse : Option Errno) :
    AllLinked (s.addEvent fd cb event change alloc refuse).1 ↔
      Faithful s (.call (.addEvent fd cb event change alloc) refuse) := by
  have before := all fd
  unfold Faithful
  dsimp only
  rcases s.addEvent_cases fd cb event change alloc refuse with
    ⟨none, after, -⟩ | ⟨some, refused, after, -⟩ | ⟨some, accepted, after, -⟩
  · rw [after]
    exact iff_of_true all fun some => absurd none some
  · have rule : AllLinked (s.addEvent fd cb event change alloc refuse).1 ↔
        Linked s.mTickleFds.1 fd (Option.some (s.addedContext fd cb event change alloc))
          (s.epoll fd) := by
      rw [all.at fd after (fun other apart => AList.lookup_insert_ne apart) fun _ _ => rfl,
        AList.lookup_insert]
    rw [rule, forall_prop_of_true some]
    cases found : s.mEvents.lookup fd with
    | some ctx =>
      rw [found] at before
      exact iff_of_true (linked_added found cb event change alloc before)
        fun absent => nomatch absent
    | none =>
      rw [forall_prop_of_true rfl]
      exact linked_refused found before refused cb event change alloc
  · have rule : AllLinked (s.addEvent fd cb event change alloc refuse).1 ↔
        Linked s.mTickleFds.1 fd (Option.some (s.addedContext fd cb event change alloc))
          (Option.some (s.addedEntry fd cb event change alloc)) := by
      rw [all.at fd after (fun other apart => AList.lookup_insert_ne apart)
        fun other apart => Function.update_of_ne apart _ _, AList.lookup_insert,
        Function.update_self]
    rw [rule, linked_written, forall_prop_of_true some, addr_addedContext]
    obtain ⟨taken, op⟩ := accepted
    unfold addedOp at op
    cases found : s.mEvents.lookup fd with
    | some ctx =>
      refine iff_of_true (fun same => ?_) fun absent => nomatch absent
      have registered : s.epoll fd ≠ none := by
        intro unregistered
        rw [found] at op
        cases op.mp unregistered
      obtain ⟨e, stored⟩ := Option.ne_none_iff_exists'.mp registered
      obtain ⟨data, tickle, -⟩ := before e stored
      rw [Option.getD_some, ← data ctx found] at same
      exact tickle same
    | none =>
      rw [found] at op
      rw [op.mpr rfl, forall_prop_of_true rfl, forall_prop_of_true taken]
      rfl

theorem step_delEvent (all : AllLinked s) (event : Event) (activate : Bool)
    (refuse : Option Errno) : AllLinked (s.delEvent fd event activate refuse).1 := by
  cases found : s.mEvents.lookup fd with
  | none => rwa [s.delEvent_absent found]
  | some ctx =>
    rcases s.delEvent_cases found event activate refuse with ⟨-, after, -⟩ | ⟨-, after, -⟩
    · rwa [after]
    · refine (all.at fd after (fun other apart => ?_)
        fun other apart => Function.update_of_ne apart _ _).mpr ?_
      · split
        · rfl
        · exact AList.lookup_erase_ne apart
      · intro e stored
        rw [Function.update_self] at stored
        cases stored

theorem step_cancel (all : AllLinked s) (refuse : Option Errno) :
    AllLinked (s.cancel fd refuse).1 ↔ Faithful s (.call (.cancel fd) refuse) := by
  unfold Faithful
  dsimp only
  cases found : s.mEvents.lookup fd with
  | none =>
    rw [s.cancel_absent found]
    exact iff_of_true all fun known => absurd rfl known
  | some ctx =>
    rw [forall_prop_of_true (Option.some_ne_none ctx)]
    rcases s.cancel_cases found refuse with ⟨refused, after, -⟩ | ⟨⟨taken, -⟩, after, -⟩
    · rw [all.at fd after (fun other apart => AList.lookup_erase_ne apart) fun _ _ => rfl,
        AList.lookup_erase]
      have before := all fd
      constructor
      · intro linked registered off
        obtain ⟨e, stored⟩ := Option.ne_none_iff_exists'.mp registered
        exact absurd rfl ((linked e stored).2.2 off)
      · intro accepted e stored
        refine ⟨(fun c same => nomatch same), (before e stored).2.1, fun off => ?_⟩
        have registered : s.epoll fd ≠ none := by
          rw [stored]
          exact Option.some_ne_none e
        exact absurd ⟨accepted registered off, iff_of_false registered (by decide)⟩ refused
    · refine iff_of_true ?_ fun _ _ => taken
      refine (all.at fd after (fun other apart => AList.lookup_erase_ne apart)
        fun other apart => Function.update_of_ne apart _ _).mpr ?_
      intro e stored
      rw [Function.update_self] at stored
      cases stored

theorem step_changerEvent (all : AllLinked s) (event : Event) (refuse : Option Errno) :
    AllLinked (s.changerEvent fd event refuse).1 ↔
      Faithful s (.call (.changerEvent fd event) refuse) := by
  unfold Faithful
  dsimp only
  cases found : s.mEvents.lookup fd with
  | none =>
    rw [s.changerEvent_absent found]
    exact iff_of_true all fun ctx known => nomatch known
  | some ctx =>
    have before := all fd
    rw [found] at before
    simp only [Option.some.injEq, forall_eq']
    rcases s.changerEvent_cases found event refuse with
      ⟨refused, after, -⟩ | ⟨⟨taken, op⟩, after, -⟩
    · rw [all.at fd after (fun other apart => AList.lookup_insert_ne apart) fun _ _ => rfl,
        AList.lookup_insert]
      refine iff_of_true (fun e stored => ?_) fun registered taken => ?_
      · obtain ⟨data, tickle, -⟩ := before e stored
        refine ⟨fun c same => ?_, tickle, fun _ => Option.some_ne_none _⟩
        cases same
        exact data ctx rfl
      · exact absurd ⟨taken, iff_of_false registered (by decide)⟩ refused
    · have registered : s.epoll fd ≠ none := by
        intro unregistered
        cases op.mp unregistered
      obtain ⟨e, stored⟩ := Option.ne_none_iff_exists'.mp registered
      obtain ⟨data, tickle, -⟩ := before e stored
      rw [all.at fd after (fun other apart => AList.lookup_insert_ne apart)
        fun other apart => Function.update_of_ne apart _ _, AList.lookup_insert,
        Function.update_self, forall_prop_of_true registered, forall_prop_of_true taken,
        ← withFd_eq_self]
      constructor
      · intro linked
        exact (linked _ rfl).1 (changedContext ctx event) rfl
      · intro same e' written
        cases written
        refine ⟨fun c eq => ?_, fun pipe => ?_, fun _ => Option.some_ne_none _⟩
        · cases eq
          exact same
        · unfold changedEntry at pipe
          rw [same, ← data ctx rfl] at pipe
          exact tickle pipe

/-- A step from a state whose descriptors are all linked leads to another such
state if and only if it is faithful. -/
theorem step_linked (all : AllLinked s) (edge : s.step a = some s') :
    AllLinked s' ↔ Faithful s a := by
  cases a with
  | report fd events =>
    obtain ⟨table, epoll, fds⟩ := s.step_report edge
    refine iff_of_true ?_ trivial
    unfold AllLinked
    rw [table, epoll, fds]
    exact all
  | call c refuse =>
    obtain ⟨-, rfl⟩ := s.step_call.mp edge
    cases c with
    | addEvent fd cb event change alloc => exact step_addEvent all cb event change alloc refuse
    | delEvent fd event activate =>
      exact iff_of_true (step_delEvent all event activate refuse) trivial
    | cancel fd => exact step_cancel all refuse
    | changerEvent fd event => exact step_changerEvent all event refuse

/-! ## Runs -/

theorem distinct_init (tickleFds : Int32 × Int32) (stack : BitVec 64) :
    Distinct (init tickleFds stack : IOmanager Cb) := by
  intro fd fd' ctx ctx' found
  cases found

theorem dispatches_init (tickleFds : Int32 × Int32) (stack : BitVec 64) :
    ∀ fd, Dispatches (init tickleFds stack : IOmanager Cb) fd := by
  intro fd
  rw [dispatches_iff (distinct_init tickleFds stack)]
  intro e stored
  have here : fd = tickleFds.1 := by
    by_contra off
    have none : (init tickleFds stack : IOmanager Cb).epoll fd = none :=
      Function.update_of_ne (f := fun _ => none) off _
    rw [none] at stored
    cases stored
  exact ⟨(fun c found => nomatch found), fun _ => here, fun off => absurd here off⟩

/-- Over every run from the constructor: the reports of every descriptor arrive
in every state if and only if every step of the run is faithful. -/
theorem dispatches_along_iff (tickleFds : Int32 × Int32) (stack : BitVec 64)
    (steps : List (IOStep Cb)) :
    Runs.Always step (fun s => ∀ fd, Dispatches s fd) (init tickleFds stack) steps ↔
      Runs.Along step Faithful (init tickleFds stack) steps := by
  refine Runs.always_iff_along (I := Distinct) (fun distinct edge => distinct.next edge) ?_
    (distinct_init tickleFds stack) (dispatches_init tickleFds stack)
  intro s a s' distinct all edge
  have linked : AllLinked s := fun fd => (dispatches_iff distinct).mp (all fd)
  rw [← step_linked linked edge]
  exact forall_congr' fun fd => dispatches_iff (distinct.next edge)

/-- `changerEvent` writes the descriptor over the low half of the address, and
the report goes to no context; where the descriptor of the pipe is the low half
of an address, the report of the context's descriptor is taken for the pipe. -/
theorem dispatches_fails :
    (∃ s : IOmanager ℕ, Runs.exec step (init (3, 4) 0)
        [.call (.addEvent 5 (some 0) Event.READ false 0x7f5500001000#64) none,
          .call (.changerEvent 5 Event.WRITE) none] = some s ∧ ¬ Dispatches s 5) ∧
      ∃ s : IOmanager ℕ, Runs.exec step (init (16, 17) 0)
        [.call (.addEvent 5 (some 0) Event.READ false 0x7f5500000010#64) none] = some s ∧
          ¬ Dispatches s 5 := by
  refine ⟨⟨_, rfl, fun arrives => ?_⟩, ⟨_, rfl, fun arrives => ?_⟩⟩
  · have data := arrives.data _ _ rfl rfl
    revert data
    decide
  · have pipe := arrives.tickle _ rfl
    revert pipe
    decide

end Sylar.IOmanager
