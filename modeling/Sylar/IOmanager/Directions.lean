import Sylar.IOmanager.Effects
import Sylar.Lib.Runs

/-!
# A reader and a writer on one descriptor

A context keeps a callback for each direction, but one mask for both.
`addEvent` stores the mask of its own call alone, and `delEvent` takes the whole
descriptor out.

* `keepsOther_iff`: a call for one direction keeps the registration of the other
  only if there is none.
* `keepsOther_along_iff`: the same along every run.
-/

namespace Sylar.IOmanager

open Epoll

variable {Cb : Type} {s : IOmanager Cb} {fd : Int32} {d : Direction} {cb : Cb}

/-- `cb` is registered on `fd` for `d`: it stands in the context kept in
`m_events`, and the bit of `d` in `events_now` and in the mask the kernel has. -/
def Registered (s : IOmanager Cb) (fd : Int32) (d : Direction) (cb : Cb) : Prop :=
  ∃ ctx entry, s.mEvents.lookup fd = some ctx ∧ s.epoll fd = some entry ∧
    (ctx.waiter d).mCb = some cb ∧ ctx.eventsNow &&& d.event ≠ 0#32 ∧
    entry.events &&& d.event ≠ 0#32

/-- With the kernel taking the request, a call of `addEvent` or `delEvent` for
one direction leaves the registrations for the other in place. -/
def KeepsOther (s : IOmanager Cb) : IOStep Cb → Prop
  | .call (.addEvent fd cb event change alloc) none => ∀ d : Direction, event = d.event → ∀ cb',
      Registered s fd d.other cb' →
        Registered (s.addEvent fd cb event change alloc none).1 fd d.other cb'
  | .call (.delEvent fd event activate) none => ∀ d : Direction, event = d.event → ∀ cb',
      Registered s fd d.other cb' → Registered (s.delEvent fd event activate none).1 fd d.other cb'
  | _ => True

/-- A call of `addEvent` or `delEvent` for one direction meets nobody waiting
for the other on its descriptor. -/
def Alone (s : IOmanager Cb) : IOStep Cb → Prop
  | .call (.addEvent fd _ event _ _) none | .call (.delEvent fd event _) none =>
    ∀ d : Direction, event = d.event → ∀ cb', ¬ Registered s fd d.other cb'
  | _ => True

/-- `addEvent` for one direction drops the bit of the other. -/
theorem Registered.not_addEvent {cb' : Cb} (registered : Registered s fd d.other cb')
    (cb : Option Cb) (change : Bool) (alloc : BitVec 64) :
    ¬ Registered (s.addEvent fd cb d.event change alloc none).1 fd d.other cb' := by
  obtain ⟨ctx, entry, found, kernel, -, -, -⟩ := registered
  have op : s.addedOp fd = .mod := by
    unfold addedOp
    rw [found, Option.isSome_some, if_pos rfl]
  have accepted : Accepts s.epoll (s.addedOp fd) fd none := by
    rw [op]
    refine ⟨rfl, iff_of_false (fun absent => ?_) (by decide)⟩
    rw [kernel] at absent
    cases absent
  rintro ⟨ctx', entry', found', -, -, mask, -⟩
  rcases s.addEvent_cases fd cb d.event change alloc none with
    ⟨none, -⟩ | ⟨-, refused, -⟩ | ⟨-, -, after, -⟩
  · exact d.event_ne_none none
  · exact refused accepted
  · rw [after, lookup_insert, if_pos rfl] at found'
    obtain rfl := Option.some.inj found'
    rw [eventsNow_addedContext] at mask
    exact mask d.event_and_other

/-- `delEvent` for one direction takes the descriptor out of the kernel's set. -/
theorem Registered.not_delEvent {cb' : Cb} (registered : Registered s fd d.other cb')
    (activate : Bool) : ¬ Registered (s.delEvent fd d.event activate none).1 fd d.other cb' := by
  obtain ⟨ctx, entry, found, kernel, -, -, -⟩ := registered
  have accepted : Accepts s.epoll .del fd none := by
    refine ⟨rfl, iff_of_false (fun absent => ?_) (by decide)⟩
    rw [kernel] at absent
    cases absent
  rintro ⟨ctx', entry', -, kernel', -⟩
  rcases s.delEvent_cases found d.event activate none with ⟨refused, -⟩ | ⟨-, after, -⟩
  · exact refused accepted
  · rw [after] at kernel'
    simp only [Function.update_self, reduceCtorEq] at kernel'

/-- In every state, a call that the kernel takes keeps the registrations for the
other direction if and only if there are none. -/
theorem keepsOther_iff (s : IOmanager Cb) (a : IOStep Cb) : KeepsOther s a ↔ Alone s a := by
  cases a with
  | report fd events => exact Iff.rfl
  | call c refuse =>
    cases refuse with
    | some err => cases c <;> exact Iff.rfl
    | none =>
      cases c with
      | addEvent fd cb event change alloc =>
        constructor
        · rintro keeps d rfl cb' registered
          exact registered.not_addEvent cb change alloc (keeps d rfl cb' registered)
        · intro alone d same cb' registered
          exact absurd registered (alone d same cb')
      | delEvent fd event activate =>
        constructor
        · rintro keeps d rfl cb' registered
          exact registered.not_delEvent activate (keeps d rfl cb' registered)
        · intro alone d same cb' registered
          exact absurd registered (alone d same cb')
      | cancel fd => exact Iff.rfl
      | changerEvent fd event => exact Iff.rfl

/-- Over every run from the constructor: the calls keep the registrations for
the other direction if and only if none of them meets one. -/
theorem keepsOther_along_iff (tickleFds : Int32 × Int32) (stack : BitVec 64)
    (steps : List (IOStep Cb)) :
    Runs.Along step KeepsOther (init tickleFds stack) steps ↔
      Runs.Along step Alone (init tickleFds stack) steps :=
  Runs.along_congr fun _ => keepsOther_iff _ _

/-- A reader waits on a descriptor; then a writer is added there, or a writer's
wait is ended: in both cases the reader is not registered any more. -/
theorem keepsOther_fails :
    ∃ s : IOmanager ℕ,
      Runs.exec step (init (3, 4) 0) [.call (.addEvent 5 (some 0) Event.READ false 64) none] =
        some s ∧
      ¬ KeepsOther s (.call (.addEvent 5 (some 1) Event.WRITE false 128) none) ∧
      ¬ KeepsOther s (.call (.delEvent 5 Event.WRITE false) none) := by
  have reader : Registered ((init (3, 4) 0 : IOmanager ℕ).addEvent 5 (some 0) Event.READ false 64
      none).1 5 .read 0 :=
    ⟨_, _, rfl, rfl, rfl, by decide, by decide⟩
  refine ⟨_, rfl, fun keeps => ?_, fun keeps => ?_⟩
  · exact reader.not_addEvent (d := .write) _ _ _ (keeps .write rfl 0 reader)
  · exact reader.not_delEvent (d := .write) _ (keeps .write rfl 0 reader)

end Sylar.IOmanager
