import Sylar.IOmanager.Threads

/-!
# Iterators of the event table

An iterator that one section finds and a later one uses is good as long as nobody
erases its entry in between, and nothing in the code keeps others from it.

* `Valid`: what an operation between two of its steps relies on.
* `Undisturbed`: an entry is erased only when no other operation is about to use
  it. `cancel` and `cancelAllEvent` go on with what they have erased themselves.
* `sound_along`: the runs whose steps all meet this use no dead iterator.
-/

namespace Sylar

open Epoll

/-- Whether `delEvent` erases the entry: its request is accepted, and the callback
that it is asked to activate is not empty. -/
def IOmanager.Erases {Cb : Type} (s : IOmanager Cb) (fd : Int32) (event : Event)
    (activate : Bool) (refuse : Option Errno) : Prop :=
  Accepts s.epoll .del fd refuse ∧ ¬ (activate = true ∧ ∃ (ctx : FdContext Cb) (d : Direction),
    s.mEvents.lookup fd = some ctx ∧ event = d.event ∧ (ctx.waiter d).mCb = none)

theorem IOmanager.delEvent_mEvents {Cb : Type} {s : IOmanager Cb} {fd : Int32}
    {ctx : FdContext Cb} (found : s.mEvents.lookup fd = some ctx) (event : Event)
    (activate : Bool) (refuse : Option Errno) :
    (¬ s.Erases fd event activate refuse ∧
        (s.delEvent fd event activate refuse).1.mEvents = s.mEvents) ∨
      (s.Erases fd event activate refuse ∧
        (s.delEvent fd event activate refuse).1.mEvents = s.mEvents.erase fd) := by
  rcases s.delEvent_cases found event activate refuse with
    ⟨refused, after, -⟩ | ⟨accepted, after, -⟩
  · exact .inl ⟨fun erases => refused erases.1, by rw [after]⟩
  · rw [after]
    by_cases empty : activate ∧ (event = Event.READ ∧ ctx.read.mCb = none ∨
        event = Event.WRITE ∧ ctx.write.mCb = none)
    · refine .inl ⟨fun erases => erases.2 ⟨empty.1, ?_⟩, if_pos empty⟩
      rcases empty.2 with ⟨own, none⟩ | ⟨own, none⟩
      · exact ⟨ctx, .read, found, own, none⟩
      · exact ⟨ctx, .write, found, own, none⟩
    · refine .inr ⟨⟨accepted, ?_⟩, if_neg empty⟩
      rintro ⟨active, ctx', d, found', own, none⟩
      obtain rfl := Option.some.inj (found.symm.trans found')
      refine empty ⟨active, ?_⟩
      cases d with
      | read => exact .inl ⟨own, none⟩
      | write => exact .inr ⟨own, none⟩

namespace EventTable

open Runs Threads

variable {Cb : Type} {p q : Pool (EventTable Cb) (EventPc Cb)} {s t : EventTable Cb}
  {pc : EventPc Cb} {fd : Int32} {epoch i : ℕ}

/-- The descriptor whose entry an operation is about to use. -/
def target : EventPc Cb → Option Int32
  | .read fd | .use fd _ _ | .walk fd _ | .eraseAll fd _ _ | .advance fd _ => some fd
  | _ => none

/-- No operation other than that of thread `i` is about to use the entry of `fd`. -/
def Unused (p : Pool (EventTable Cb) (EventPc Cb)) (i : ℕ) (fd : Int32) : Prop :=
  ∀ j pc, j ≠ i → p.ops j = some pc → target pc ≠ some fd

/-- What a step must not meet. An entry is erased only when no other operation is
about to use it, and `addEvent` finds it after its request; `cancel` is called on
descriptors without an entry, and in `cancelAllEvent` no entry is erased. -/
def Undisturbed (p : Pool (EventTable Cb) (EventPc Cb)) : Act (EventOp Cb) EventInput → Prop
  | .enter _ _ => True
  | .run i input => ∀ pc, p.ops i = some pc → match pc with
    | .request fd op _ _ =>
      Accepts p.shared.mgr.epoll op fd input.refuse →
        (p.shared.mgr.mEvents.lookup fd).isSome = true
    | .find fd .cancel => p.shared.mgr.mEvents.lookup fd = none
    | .use fd _ (.del event activate) =>
      p.shared.mgr.Erases fd event activate input.refuse → Unused p i fd
    | .eraseAll fd _ _ => ¬ Accepts p.shared.mgr.epoll .del fd input.refuse
    | .clear => ∀ fd, (p.shared.mgr.mEvents.lookup fd).isSome = true → Unused p i fd
    | _ => True

/-- No operation has used an iterator that denotes no entry, nor a null context. -/
def Sound (p : Pool (EventTable Cb) (EventPc Cb)) : Prop := p.shared.broken = false

/-- What an operation relies on between its steps. -/
def Valid (s : EventTable Cb) : EventPc Cb → Prop
  | .read fd => (s.mgr.mEvents.lookup fd).isSome = true
  | .use fd epoch use => s.present fd epoch = true ∧ use ≠ .cancel
  | .walk fd epoch => s.present fd epoch = true
  | .eraseAll fd _ inner => s.present fd inner = true
  | .advance _ _ => False
  | _ => True

theorem present_iff : s.present fd epoch = true ↔
    (s.mgr.mEvents.lookup fd).isSome = true ∧ s.epoch fd = epoch := by
  unfold present
  rw [Bool.and_eq_true, beq_iff_eq]

/-- An operation keeps what it relies on when the entry that it is about to use
stays. -/
theorem Valid.frame (valid : Valid s pc)
    (stays : ∀ fd, target pc = some fd → (s.mgr.mEvents.lookup fd).isSome = true →
      (t.mgr.mEvents.lookup fd).isSome = true ∧ t.epoch fd = s.epoch fd) : Valid t pc := by
  have kept : ∀ fd epoch, target pc = some fd → s.present fd epoch = true →
      t.present fd epoch = true := by
    intro fd epoch own here
    obtain ⟨inside, number⟩ := present_iff.mp here
    obtain ⟨inside', number'⟩ := stays fd own inside
    exact present_iff.mpr ⟨inside', number'.trans number⟩
  cases pc with
  | read fd => exact (stays fd rfl valid).1
  | use fd epoch use => exact ⟨kept fd epoch rfl valid.1, valid.2⟩
  | walk fd epoch => exact kept fd epoch rfl valid
  | eraseAll fd epoch inner => exact kept fd inner rfl valid
  | advance fd epoch => exact valid
  | _ => trivial

/-- The invariant: no dead iterator has been used, and every operation finds what
it relies on. -/
def Inv (p : Pool (EventTable Cb) (EventPc Cb)) : Prop :=
  Assured (fun s => s.broken = false) Valid p

/-- A step that erases no entry that another operation is about to use. -/
theorem Inv.run (inv : Inv p) {o : Option (EventPc Cb)} (sound : t.broken = false)
    (own : ∀ pc, o = some pc → Valid t pc)
    (stays : ∀ fd, ¬ Unused p i fd → (p.shared.mgr.mEvents.lookup fd).isSome = true →
      (t.mgr.mEvents.lookup fd).isSome = true ∧ t.epoch fd = p.shared.epoch fd) :
    Inv ⟨t, Function.update p.ops i o⟩ := by
  refine Assured.run inv sound own fun j pc distinct here valid => valid.frame fun fd used => ?_
  exact stays fd fun unused => unused j pc distinct here used

/-- A step that leaves the table as it is. -/
theorem Inv.same (inv : Inv p) {o : Option (EventPc Cb)} (sound : t.broken = false)
    (own : ∀ pc, o = some pc → Valid t pc) (mEvents : t.mgr.mEvents = p.shared.mgr.mEvents)
    (epoch : t.epoch = p.shared.epoch) : Inv ⟨t, Function.update p.ops i o⟩ := by
  refine inv.run sound own fun fd _ inside => ⟨?_, congrFun epoch fd⟩
  rw [mEvents]
  exact inside

theorem isSome_insert {m : AList fun _ : Int32 => FdContext Cb} {ctx : FdContext Cb}
    {fd' : Int32} (inside : (m.lookup fd').isSome = true ∨ fd' = fd) :
    ((m.insert fd ctx).lookup fd').isSome = true := by
  rw [Sylar.lookup_insert]
  split
  · rfl
  · next other => exact inside.resolve_right other

/-- What the section of `addEvent` leaves of the table. -/
theorem Inv.add (inv : Inv p) {fd : Int32} (cb : Option Cb) (event : Event) (change : Bool)
    (alloc addr : BitVec 64) (op : Op) :
    Inv ⟨{ p.shared with
        mgr := { p.shared.mgr with
          mEvents := p.shared.mgr.mEvents.insert fd
            (p.shared.mgr.addedContext fd cb event change alloc) }
        epoch := if (p.shared.mgr.mEvents.lookup fd).isSome then p.shared.epoch
          else Function.update p.shared.epoch fd (p.shared.epoch fd + 1) },
      Function.update p.ops i (some (.request fd op event addr))⟩ := by
  refine inv.run inv.shared (fun pc same => by cases same; trivial) fun fd' _ inside => ?_
  refine ⟨isSome_insert (.inl inside), ?_⟩
  by_cases known : (p.shared.mgr.mEvents.lookup fd).isSome = true
  · exact congrFun (if_pos known) fd'
  · have other : fd' ≠ fd := by
      rintro rfl
      exact known inside
    exact (congrFun (if_neg known) fd').trans (Function.update_of_ne other _ _)

/-- A use of an iterator that denotes an entry. -/
theorem Inv.apply (inv : Inv p) {refuse : Option Errno} {use : Use} {o : Option (EventPc Cb)}
    (inside : (p.shared.mgr.mEvents.lookup fd).isSome = true) (once : use ≠ .cancel)
    (undisturbed : ∀ event activate, use = .del event activate →
      p.shared.mgr.Erases fd event activate refuse → Unused p i fd)
    (own : ∀ pc, o = some pc → Valid (p.shared.apply fd refuse use) pc) :
    Inv ⟨p.shared.apply fd refuse use, Function.update p.ops i o⟩ := by
  obtain ⟨ctx, found⟩ := Option.isSome_iff_exists.mp inside
  cases use with
  | cancel => exact absurd rfl once
  | get => exact inv.same inv.shared own rfl rfl
  | change event =>
    refine inv.run inv.shared own fun fd' _ inside' => ⟨?_, rfl⟩
    show ((p.shared.mgr.changerEvent fd event refuse).1.mEvents.lookup fd').isSome = true
    rcases p.shared.mgr.changerEvent_cases found event refuse with ⟨-, after, -⟩ | ⟨-, after, -⟩
    · rw [after]
      exact isSome_insert (.inl inside')
    · rw [after]
      exact isSome_insert (.inl inside')
  | del event activate =>
    rcases p.shared.mgr.delEvent_mEvents found event activate refuse with
      ⟨-, kept⟩ | ⟨erases, erased⟩
    · exact inv.same inv.shared own kept rfl
    · have unused := undisturbed event activate rfl erases
      refine inv.run inv.shared own fun fd' used inside' => ⟨?_, rfl⟩
      show ((p.shared.mgr.delEvent fd event activate refuse).1.mEvents.lookup fd').isSome = true
      have other : fd' ≠ fd := by
        rintro rfl
        exact used unused
      rw [erased, Sylar.lookup_erase, if_neg other]
      exact inside'

theorem Inv.keep {a : Act (EventOp Cb) EventInput} (inv : Inv p) (ok : Undisturbed p a)
    (edge : step p a = some q) : Inv q := by
  cases a with
  | enter i op =>
    obtain ⟨-, rfl⟩ := step_enter edge
    cases op with
    | _ => exact inv.same inv.shared (fun pc same => by cases same; trivial) rfl rfl
  | run i input =>
    obtain ⟨pc, t, o, here, moved, rfl⟩ := step_run edge
    have ok := ok pc here
    have valid := inv.ops i pc here
    cases pc with
    | add fd cb event change alloc =>
      by_cases empty : event = Event.NONE ∧ event ≠ Event.READ ∧ event ≠ Event.WRITE
      · rw [move, if_pos empty] at moved
        cases moved
        exact inv.same inv.shared nofun rfl rfl
      · rw [move, if_neg empty] at moved
        cases moved
        exact inv.add cb event change alloc _ _
    | request fd op event addr =>
      rw [move] at moved
      cases answer : ctl p.shared.mgr.epoll op fd ⟨event ||| EPOLLET, addr⟩ input.refuse with
      | error err =>
        rw [answer] at moved
        cases moved
        exact inv.same inv.shared nofun rfl rfl
      | ok epoll =>
        rw [answer] at moved
        cases moved
        have inside := ok (ctl_eq_ok.mp answer).1
        exact inv.same inv.shared (fun pc same => by cases same; exact inside) rfl rfl
    | read fd =>
      have inside : (p.shared.mgr.mEvents.lookup fd).isSome = true := valid
      cases moved
      rw [if_pos inside]
      exact inv.same inv.shared nofun rfl rfl
    | find fd use =>
      cases moved
      refine inv.same inv.shared (fun pc found => ?_) rfl rfl
      obtain ⟨inside, found⟩ := Option.ite_none_right_eq_some.mp found
      cases found
      refine ⟨present_iff.mpr ⟨inside, rfl⟩, ?_⟩
      rintro rfl
      rw [show p.shared.mgr.mEvents.lookup fd = none from ok] at inside
      cases inside
    | use fd epoch use =>
      obtain ⟨here, once⟩ := valid
      cases moved
      rw [if_pos here]
      refine inv.apply (present_iff.mp here).1 once ?_ nofun
      rintro event activate rfl
      exact ok
    | begin =>
      obtain ⟨-, moved⟩ := Option.ite_none_right_eq_some.mp moved
      cases next : input.next with
      | none =>
        rw [next] at moved
        cases moved
        exact inv.same inv.shared (fun pc same => by cases same; trivial) rfl rfl
      | some fd =>
        rw [next] at moved
        obtain ⟨inside, moved⟩ := Option.ite_none_right_eq_some.mp moved
        cases moved
        refine inv.same inv.shared (fun pc same => ?_) rfl rfl
        cases same
        exact present_iff.mpr ⟨inside, rfl⟩
    | walk fd epoch =>
      have inside : p.shared.present fd epoch = true := valid
      rw [move, if_pos inside] at moved
      cases moved
      exact inv.same inv.shared (fun pc same => by cases same; trivial) rfl rfl
    | findAll fd epoch =>
      cases moved
      refine inv.same inv.shared (fun pc found => ?_) rfl rfl
      obtain ⟨inside, found⟩ := Option.ite_none_right_eq_some.mp found
      cases found
      exact present_iff.mpr ⟨inside, rfl⟩
    | eraseAll fd epoch inner =>
      have present : p.shared.present fd inner = true := valid
      have inside := (present_iff.mp present).1
      rw [move, if_pos present] at moved
      obtain ⟨ctx, found⟩ := Option.isSome_iff_exists.mp inside
      obtain ⟨err, refused⟩ := p.shared.mgr.delEvent_refused found ok Event.NONE false
      rw [refused] at moved
      cases moved
      refine inv.apply inside nofun ?_ nofun
      rintro event activate - ⟨accepted, -⟩
      exact absurd accepted ok
    | advance fd epoch => exact valid.elim
    | clear =>
      cases moved
      refine inv.run inv.shared nofun fun fd used inside => ?_
      exact absurd (ok fd inside) used

/-! ## Runs -/

/-- A manager that watches nothing. -/
def fresh : IOmanager ℕ := IOmanager.init (3, 4) 0

/-- A step for which the kernel accepts every request. -/
def accepting : EventInput := ⟨none, none⟩

/-- An event is added by one thread and deleted by another; after that there is
nothing to cancel. -/
def oneAfterAnother : List (Act (EventOp ℕ) EventInput) :=
  [.enter 0 (.addEvent 5 (some 7) Event.READ false 64), .run 0 accepting, .run 0 accepting,
    .run 0 accepting, .enter 1 (.delEvent 5 Event.READ false), .run 1 accepting,
    .run 1 accepting, .enter 0 (.cancel 5), .run 0 accepting]

/-- An event is added. -/
def added : List (Act (EventOp ℕ) EventInput) :=
  [.enter 0 (.addEvent 5 (some 7) Event.READ false 64), .run 0 accepting, .run 0 accepting,
    .run 0 accepting]

end EventTable

end Sylar
