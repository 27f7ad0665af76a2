import Sylar.IOmanager.Effects
import Sylar.Lib.Runs

/-!
# The table and the kernel's interest set

Whether `addEvent` asks for `EPOLL_CTL_ADD` or `EPOLL_CTL_MOD`, and which mask
each call writes, is right only while the table and the interest set agree.

* `Mirrors.next`: calls that the kernel does not refuse keep the agreement.
* `mirrors_along`: in every run that stays off the pipe's descriptor, the table
  mirrors the interest set and no request is rejected.
* `mirrors_fails`: `addEvent` on the read end of the pipe breaks it.
-/

namespace Sylar.IOmanager

open Epoll

variable {Cb : Type}

/-- The table mirrors the interest set: the keys are the registered descriptors
other than the read end of the pipe, and the kernel's mask is `events_now`
together with `EPOLLET`. -/
structure Mirrors (s : IOmanager Cb) : Prop where
  keys : ∀ fd, fd ∈ s.mEvents ↔ s.epoll fd ≠ none ∧ fd ≠ s.mTickleFds.1
  mask : ∀ fd ctx entry, s.mEvents.lookup fd = some ctx → s.epoll fd = some entry →
    entry.events = ctx.eventsNow ||| EPOLLET

/-- The kernel has not rejected the request of a call. -/
def Unrejected (s : IOmanager Cb) : IOStep Cb → Prop
  | .call c refuse => (s.apply c refuse).2.errno = none
  | .report _ _ => True

/-- The kernel refuses nothing for reasons of its own, `addEvent` stays off the
read end of the pipe, and `delEvent` does not activate. -/
def Permitted (s : IOmanager Cb) : IOStep Cb → Prop
  | .call (.addEvent fd _ _ _ _) refuse => refuse = none ∧ fd ≠ s.mTickleFds.1
  | .call (.delEvent _ _ activate) refuse => refuse = none ∧ activate = false
  | .call (.cancel _) refuse | .call (.changerEvent _ _) refuse => refuse = none
  | .report _ _ => True

variable {s s' : IOmanager Cb} {a : IOStep Cb} {fd : Int32} {ctx : FdContext Cb} {entry : Entry}

theorem mem_of_lookup (found : s.mEvents.lookup fd = some ctx) : fd ∈ s.mEvents := by
  rw [← AList.lookup_isSome, found]
  rfl

theorem not_mem_of_lookup (absent : s.mEvents.lookup fd = none) : fd ∉ s.mEvents :=
  AList.lookup_eq_none.mp absent

namespace Mirrors

theorem congr (inv : Mirrors s) (events : s'.mEvents = s.mEvents) (epoll : s'.epoll = s.epoll)
    (fds : s'.mTickleFds = s.mTickleFds) : Mirrors s' := by
  constructor
  · intro fd
    rw [events, epoll, fds]
    exact inv.keys fd
  · intro fd ctx entry
    rw [events, epoll]
    exact inv.mask fd ctx entry

/-- A context and an entry written together. -/
theorem write (inv : Mirrors s) (off : fd ≠ s.mTickleFds.1)
    (mask : entry.events = ctx.eventsNow ||| EPOLLET)
    (events : s'.mEvents = s.mEvents.insert fd ctx)
    (epoll : s'.epoll = Function.update s.epoll fd (some entry))
    (fds : s'.mTickleFds = s.mTickleFds) : Mirrors s' := by
  constructor
  · intro other
    rw [events, epoll, fds, AList.mem_insert, Function.update_apply]
    by_cases here : other = fd
    · subst here
      rw [if_pos rfl]
      exact iff_of_true (.inl rfl) ⟨Option.some_ne_none _, off⟩
    · rw [if_neg here, or_iff_right here]
      exact inv.keys other
  · intro other ctx' entry' found kernel
    rw [events, lookup_insert] at found
    rw [epoll, Function.update_apply] at kernel
    by_cases here : other = fd
    · rw [if_pos here] at found kernel
      cases found
      cases kernel
      exact mask
    · rw [if_neg here] at found kernel
      exact inv.mask other ctx' entry' found kernel

/-- A context and its entry taken out together. -/
theorem remove (inv : Mirrors s) (events : s'.mEvents = s.mEvents.erase fd)
    (epoll : s'.epoll = Function.update s.epoll fd none)
    (fds : s'.mTickleFds = s.mTickleFds) : Mirrors s' := by
  constructor
  · intro other
    rw [events, epoll, fds, AList.mem_erase, Function.update_apply]
    by_cases here : other = fd
    · rw [if_pos here]
      exact iff_of_false (fun both => both.1 here) fun both => both.1 rfl
    · rw [if_neg here, and_iff_right here]
      exact inv.keys other
  · intro other ctx' entry' found kernel
    rw [events, lookup_erase] at found
    by_cases here : other = fd
    · rw [if_pos here] at found
      cases found
    · rw [if_neg here] at found
      rw [epoll, Function.update_of_ne here] at kernel
      exact inv.mask other ctx' entry' found kernel

/-- The kernel takes a deletion or a modification of a key. -/
theorem accepts (inv : Mirrors s) (found : s.mEvents.lookup fd = some ctx) {op : Op}
    (change : op ≠ .add) : Accepts s.epoll op fd none := by
  have registered := ((inv.keys fd).mp (mem_of_lookup found)).1
  exact ⟨rfl, iff_of_false registered change⟩

/-- The operation `addEvent` chooses is the one the kernel takes. -/
theorem accepts_added (inv : Mirrors s) (off : fd ≠ s.mTickleFds.1) :
    Accepts s.epoll (s.addedOp fd) fd none := by
  unfold addedOp
  cases found : s.mEvents.lookup fd with
  | none =>
    have unregistered : s.epoll fd = none := by
      by_contra registered
      exact not_mem_of_lookup found ((inv.keys fd).mpr ⟨registered, off⟩)
    exact ⟨rfl, iff_of_true unregistered rfl⟩
  | some ctx =>
    rw [Option.isSome_some, if_pos rfl]
    exact inv.accepts found (by decide)

theorem addEvent (inv : Mirrors s) (off : fd ≠ s.mTickleFds.1) (cb : Option Cb) (event : Event)
    (change : Bool) (alloc : BitVec 64) :
    Mirrors (s.addEvent fd cb event change alloc none).1 ∧
      (s.addEvent fd cb event change alloc none).2.errno = none := by
  rcases s.addEvent_cases fd cb event change alloc none with
    ⟨-, after, reply⟩ | ⟨-, refused, -⟩ | ⟨-, -, after, taken⟩
  · rw [after, reply]
    exact ⟨inv, rfl⟩
  · exact absurd (inv.accepts_added off) refused
  · refine ⟨inv.write off ?_ (congrArg IOmanager.mEvents after) (congrArg IOmanager.epoll after)
      (by rw [after]), taken.2⟩
    rw [eventsNow_addedContext]
    rfl

theorem delEvent (inv : Mirrors s) (fd : Int32) (event : Event) :
    Mirrors (s.delEvent fd event false none).1 ∧
      (s.delEvent fd event false none).2.errno = none := by
  cases found : s.mEvents.lookup fd with
  | none =>
    rw [s.delEvent_absent found]
    exact ⟨inv, rfl⟩
  | some ctx =>
    rcases s.delEvent_cases found event false none with ⟨refused, -⟩ | ⟨-, after, taken⟩
    · exact absurd (inv.accepts found (by decide)) refused
    · rw [if_neg (fun both => Bool.false_ne_true both.1)] at after
      exact ⟨inv.remove (congrArg IOmanager.mEvents after) (congrArg IOmanager.epoll after)
        (by rw [after]), taken.2⟩

theorem cancel (inv : Mirrors s) (fd : Int32) :
    Mirrors (s.cancel fd none).1 ∧ (s.cancel fd none).2.errno = none := by
  cases found : s.mEvents.lookup fd with
  | none =>
    rw [s.cancel_absent found]
    exact ⟨inv, rfl⟩
  | some ctx =>
    rcases s.cancel_cases found none with ⟨refused, -⟩ | ⟨-, after, taken⟩
    · exact absurd (inv.accepts found (by decide)) refused
    · exact ⟨inv.remove (congrArg IOmanager.mEvents after) (congrArg IOmanager.epoll after)
        (by rw [after]), taken.2⟩

theorem changerEvent (inv : Mirrors s) (fd : Int32) (event : Event) :
    Mirrors (s.changerEvent fd event none).1 ∧ (s.changerEvent fd event none).2.errno = none := by
  cases found : s.mEvents.lookup fd with
  | none =>
    rw [s.changerEvent_absent found]
    exact ⟨inv, rfl⟩
  | some ctx =>
    have off := ((inv.keys fd).mp (mem_of_lookup found)).2
    rcases s.changerEvent_cases found event none with ⟨refused, -⟩ | ⟨-, after, taken⟩
    · exact absurd (inv.accepts found (by decide)) refused
    · exact ⟨inv.write off rfl (congrArg IOmanager.mEvents after) (congrArg IOmanager.epoll after)
        (by rw [after]), taken.2⟩

/-- A permitted step keeps the agreement and is not rejected. -/
theorem next (inv : Mirrors s) (here : Permitted s a) (edge : s.step a = some s') :
    Mirrors s' ∧ Unrejected s a := by
  cases a with
  | report fd events =>
    obtain ⟨events, epoll, fds⟩ := s.step_report edge
    exact ⟨inv.congr events epoll fds, trivial⟩
  | call c refuse =>
    obtain ⟨-, rfl⟩ := s.step_call.mp edge
    cases c with
    | addEvent fd cb event change alloc =>
      obtain ⟨rfl, off⟩ := here
      exact inv.addEvent off cb event change alloc
    | delEvent fd event activate =>
      obtain ⟨rfl, rfl⟩ := here
      exact inv.delEvent fd event
    | cancel fd =>
      obtain rfl : refuse = none := here
      exact inv.cancel fd
    | changerEvent fd event =>
      obtain rfl : refuse = none := here
      exact inv.changerEvent fd event

end Mirrors

theorem mirrors_init (tickleFds : Int32 × Int32) (stack : BitVec 64) :
    Mirrors (init tickleFds stack : IOmanager Cb) := by
  constructor
  · intro fd
    refine iff_of_false (AList.notMem_empty fd) fun both => both.1 ?_
    exact Function.update_of_ne (f := fun _ => none) both.2 _
  · intro fd ctx entry found
    cases found

/-- Over every run of permitted steps from the constructor: the table mirrors
the interest set in every state, and no request is rejected. -/
theorem mirrors_along (tickleFds : Int32 × Int32) (stack : BitVec 64) (steps : List (IOStep Cb))
    (along : Runs.Along step Permitted (init tickleFds stack) steps) :
    Runs.Always step Mirrors (init tickleFds stack) steps ∧
      Runs.Along step Unrejected (init tickleFds stack) steps := by
  have start : Mirrors (init tickleFds stack : IOmanager Cb) := mirrors_init tickleFds stack
  constructor
  · exact Runs.always_of_along (fun inv here edge => (Mirrors.next inv here edge).1) start along
  · exact Runs.along_of_inv (fun inv here edge => (Mirrors.next inv here edge).1)
      (fun inv here edge => (Mirrors.next inv here edge).2) start along

/-- A descriptor added, changed and deleted. -/
theorem mirrors_along_three :
    Runs.Always step Mirrors (init (3, 4) 0 : IOmanager ℕ)
      [.call (.addEvent 5 (some 0) Event.READ false 64) none,
        .call (.changerEvent 5 Event.WRITE) none, .call (.delEvent 5 Event.WRITE false) none] := by
  refine (mirrors_along (3, 4) 0 _ ?_).1
  rintro _ -
  refine ⟨⟨rfl, by decide⟩, ?_⟩
  rintro _ -
  refine ⟨rfl, ?_⟩
  rintro _ -
  exact ⟨⟨rfl, rfl⟩, trivial⟩

/-- `addEvent` on the read end of the pipe: the kernel rejects the request, and
the descriptor is in the table. -/
theorem mirrors_fails :
    ∃ s : IOmanager ℕ,
      Runs.exec step (init (3, 4) 0) [.call (.addEvent 3 (some 0) Event.READ false 64) none] =
        some s ∧
      ¬ Mirrors s ∧
      ¬ Unrejected (init (3, 4) 0 : IOmanager ℕ)
        (.call (.addEvent 3 (some 0) Event.READ false 64) none) := by
  refine ⟨_, rfl, fun inv => ?_, fun unrejected => ?_⟩
  · exact ((inv.keys 3).mp ((AList.mem_insert _).mpr (.inl rfl))).2 rfl
  · cases unrejected

end Sylar.IOmanager
