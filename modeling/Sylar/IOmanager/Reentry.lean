import Sylar.IOmanager.Mutex

/-!
# Acquiring the lock twice

`schedule_mutex` is not recursive, and the code calls out while it holds it: the `stop`
of `Schedule` calls `run()`, `delEvent` calls the callback it activates, and copies of
callbacks are destroyed with what they have captured, among them those of a context that
`delEvent` and `cancel` erase and the one that `addEvent` overwrites.

* `Quiet`: the operations that return before they lock.
* `exec_typed`: every other instruction stands for instructions that lock only when
  the thread does not hold the lock.
* `sound_along`: the runs in which nothing but quiet operations is called from under
  the lock.
-/

namespace Sylar.Locked

open Epoll Runs Threads Stacks

variable {Cb : Type} {kind : IdleKind} {program : Program Cb}
  {s t : Locked Cb} {held held' : Option LockMode} {x : Instr Cb} {input : LockInput Cb}
  {p q : Pool (Locked Cb) (Frame (Option LockMode) (Instr Cb))}

/-- No thread that holds `schedule_mutex` is about to acquire it. -/
def NoReentry (p : Pool (Locked Cb) (Frame (Option LockMode) (Instr Cb))) : Prop :=
  ∀ i l, p.ops i = some l → ∀ mode rest, l.todo = .lock mode :: rest → l.held = none

/-- The operations that return without having locked. -/
def Quiet (s : Locked Cb) : PublicOp Cb → Prop
  | .schedule _ _ => s.sched.mStopping = true
  | .addEvent _ _ event _ _ => event = Event.NONE
  | .destroy => True
  | _ => False

/-- What a step must not meet: the `stop` of `Schedule`, and a callback that is activated
or destroyed under the lock and calls an operation that locks. -/
def Calm (kind : IdleKind) (program : Program Cb)
    (p : Pool (Locked Cb) (Frame (Option LockMode) (Instr Cb))) :
    Act (PublicOp Cb) (LockInput Cb) → Prop
  | .enter _ _ => True
  | .run i input => ∀ l x rest, p.ops i = some l → l.todo = x :: rest → match x with
    | .call .stop => kind = .ioManager
    | .invoke cb => l.held ≠ none → ∀ op ∈ program.performs cb input.choice, Quiet p.shared op
    | .drop cb => l.held ≠ none → ∀ op ∈ program.releases cb input.choice, Quiet p.shared op
    | _ => True

/-! ## The local states along a stack -/

/-- What an instruction asks for: to lock, not to hold the lock; under the lock, to
call quiet operations only. -/
def pre (s : Locked Cb) (held : Option LockMode) : Instr Cb → Prop
  | .lock _ | .loop _ | .resume .. | .round _ => held = none
  | .call op => held ≠ none → Quiet s op
  | _ => True

/-- What a thread holds after an instruction. -/
def post (held : Option LockMode) : Instr Cb → Option LockMode
  | .lock mode => some mode
  | .unlock | .scan _ | .exitTest .. | .idleTest _ | .addEntry .. | .find .. | .use .. => none
  | _ => held

/-- A quiet operation stays quiet, as `m_stopping` is never cleared. -/
theorem pre_mono (stays : s.sched.mStopping = true → t.sched.mStopping = true)
    (held : Option LockMode) (x : Instr Cb) (asked : pre s held x) : pre t held x := by
  cases x with
  | call op =>
    intro holds
    have quiet := asked holds
    cases op with
    | schedule cb threadId => exact stays quiet
    | _ => exact quiet
  | _ => exact asked

theorem useEntry_sched (fd : Int32) (ctx : FdContext Cb) (refuse : Option Errno) (use : Use) :
    (s.useEntry fd ctx refuse use).1.sched = s.sched := by
  cases use with
  | del event activate =>
    unfold useEntry
    dsimp only
    split
    · rfl
    · split
      · split <;> rfl
      · rfl
  | _ => rfl

theorem release_sched (s : Locked Cb) (held : Option LockMode) :
    (s.release held).sched = s.sched := by
  cases held with
  | none => rfl
  | some mode => cases mode <;> rfl

/-- No instruction clears `m_stopping`. -/
theorem exec_stopping {r : Option (List (Instr Cb))}
    (edge : exec kind program s held x input = some (t, held', r))
    (stopping : s.sched.mStopping = true) : t.sched.mStopping = true := by
  cases x with
  | lock mode =>
    obtain ⟨-, edge⟩ := Option.ite_none_left_eq_some.mp edge
    obtain ⟨u, given, same⟩ := Option.map_eq_some_iff.mp edge
    cases same
    cases mode with
    | shared =>
      obtain ⟨-, given⟩ := Option.ite_none_left_eq_some.mp given
      cases given
      exact stopping
    | exclusive =>
      obtain ⟨-, given⟩ := Option.ite_none_left_eq_some.mp given
      cases given
      exact stopping
  | unlock =>
    cases edge
    rw [release_sched]
    exact stopping
  | scan f =>
    cases edge
    exact (s.sched.dequeue_spec input.tid).2.2.trans stopping
  | setStopping =>
    cases edge
    rfl
  | request fd op event addr =>
    unfold exec at edge
    dsimp only at edge
    split at edge <;> cases edge <;> exact stopping
  | resume f task =>
    cases f with
    | yielded | leaving =>
      cases edge
      exact stopping
    | _ => cases edge
  | use fd use =>
    obtain ⟨ctx, -, same⟩ := Option.map_eq_some_iff.mp edge
    have kept := useEntry_sched (s := s) fd ctx input.refuse use
    dsimp only at same
    split at same
    · cases same
      rw [kept]
      exact stopping
    · cases same
      rw [release_sched, kept]
      exact stopping
  | _ =>
    cases edge
    exact stopping

/-- What an instruction stands for locks only when the thread does not hold the
lock, and leaves it as the instruction does. -/
def Stands (t : Locked Cb) (held held' : Option LockMode) (x : Instr Cb)
    (xs : List (Instr Cb)) : Prop :=
  Typed pre post t held' xs ∧ after post held' xs = post held x

/-- An operation that is not quiet is called without the lock. -/
theorem held_none {op : PublicOp Cb} (asked : held ≠ none → Quiet s op) (loud : ¬ Quiet s op) :
    held = none := by
  by_contra holds
  exact loud (asked holds)

/-- Copies that are destroyed leave the lock as it is. -/
theorem steady_drops (s : Locked Cb) (held : Option LockMode) (cbs : List (Option Cb)) :
    Steady pre post s held (drops cbs) := by
  unfold drops
  induction cbs.reduceOption with
  | nil => exact steady_nil
  | cons cb cbs ih =>
    have first : Steady pre post s held [.drop cb] := ⟨⟨trivial, trivial⟩, rfl⟩
    exact first.append ih

/-- Copies are destroyed first. -/
theorem stands_drops {xs : List (Instr Cb)} (cbs : List (Option Cb))
    (stands : Stands t held held' x xs) : Stands t held held' x (drops cbs ++ xs) := by
  have steady := steady_drops t held' cbs
  exact ⟨steady.typed_append.mpr stands.1, steady.after_append.trans stands.2⟩

/-- Copies are destroyed last. -/
theorem stands_append_drops {xs : List (Instr Cb)} (stands : Stands t held held' x xs)
    (cbs : List (Option Cb)) : Stands t held held' x (xs ++ drops cbs) := by
  have steady := steady_drops t (after post held' xs) cbs
  refine ⟨typed_append.mpr ⟨stands.1, steady.1⟩, ?_⟩
  rw [after_append, steady.2]
  exact stands.2

theorem stands_body (op : PublicOp Cb) (asked : held ≠ none → Quiet s op)
    (io : op = .stop → kind = .ioManager) : Stands s held held (.call op) (s.body kind op) := by
  cases op with
  | schedule cb threadId =>
    by_cases stopping : s.sched.mStopping = true
    · rw [body, if_pos stopping]
      exact ⟨⟨trivial, trivial⟩, rfl⟩
    · rw [body, if_neg stopping]
      have free := held_none asked stopping
      exact ⟨⟨free, trivial, trivial, trivial, trivial⟩, free.symm⟩
  | scheduleRange cbs =>
    have free := held_none asked id
    exact ⟨⟨free, trivial, trivial, trivial⟩, free.symm⟩
  | stop =>
    have free := held_none asked id
    obtain rfl := io rfl
    exact ⟨⟨free, trivial, trivial, fun holds => absurd rfl holds, trivial⟩, free.symm⟩
  | run =>
    have free := held_none asked id
    cases kind with
    | schedule => exact ⟨⟨free, trivial, trivial⟩, free.symm⟩
    | ioManager => exact ⟨⟨free, trivial⟩, rfl⟩
  | destroy => exact ⟨⟨trivial, trivial⟩, rfl⟩
  | addEvent fd cb event change alloc =>
    refine stands_append_drops ?_ [cb]
    by_cases empty : event = Event.NONE
    · rw [if_pos (Event.none_guard.mpr empty)]
      exact ⟨trivial, rfl⟩
    · rw [if_neg (mt Event.none_guard.mp empty)]
      have free := held_none asked empty
      exact ⟨⟨free, trivial, trivial⟩, free.symm⟩
  | delEvent fd event activate | cancel fd | changerEvent fd event =>
    have free := held_none asked id
    exact ⟨⟨free, trivial, trivial⟩, free.symm⟩

/-- The operations that a callback calls. -/
theorem stands_calls {ops : List (PublicOp Cb)}
    (quiet : held ≠ none → ∀ op ∈ ops, Quiet s op) : Steady pre post s held (ops.map .call) := by
  induction ops with
  | nil => exact steady_nil
  | cons op ops ih =>
    have first : Steady pre post s held [.call op] :=
      ⟨⟨fun holds => quiet holds op List.mem_cons_self, trivial⟩, rfl⟩
    have rest := ih fun holds o member => quiet holds o (List.mem_cons_of_mem op member)
    exact first.append rest

/-- What is left of `delEvent`, `cancel` or `changerEvent` gives the lock back. -/
theorem stands_use {fd : Int32} {ctx : FdContext Cb} {refuse : Option Errno} {use : Use}
    {xs : List (Instr Cb)} (some_left : (s.useEntry fd ctx refuse use).2 = some xs) :
    Stands t held held (.use fd use) xs := by
  cases use with
  | del event activate =>
    unfold useEntry at some_left
    dsimp only at some_left
    split at some_left
    · cases some_left
      exact ⟨⟨trivial, trivial⟩, rfl⟩
    · split at some_left
      · split at some_left
        · cases some_left
        · cases some_left
          exact ⟨⟨trivial, trivial, trivial, trivial⟩, rfl⟩
      · cases some_left
        exact ⟨⟨trivial, trivial, trivial⟩, rfl⟩
  | cancel =>
    cases some_left
    exact stands_drops _ ⟨⟨trivial, trivial⟩, rfl⟩
  | _ =>
    cases some_left
    exact ⟨⟨trivial, trivial⟩, rfl⟩

/-- Back in `run()`, the loop goes on. -/
theorem stands_again (f : Fiber) (task : Option Cb) (free : held = none)
    (kept : post held x = none) : Stands t held held x (again f task) := by
  subst free
  exact stands_drops [task] ⟨⟨rfl, trivial⟩, kept.symm⟩

/-- A round of `idle` calls `schedule` without the lock. -/
theorem stands_round (free : held = none) (task : Option Cb) (batch fired : List Cb) :
    Stands t held held (.round task)
      ((if batch.isEmpty then [] else [.call (.scheduleRange batch)]) ++ drops (batch.map some) ++
        fired.flatMap (fun cb => [.call (.schedule cb (-1)), .drop cb, .drop cb]) ++
        again .yielded task) := by
  subst free
  have calls (op : PublicOp Cb) : Steady pre post t none [.call op] :=
    ⟨⟨fun holds => absurd rfl holds, trivial⟩, rfl⟩
  have stored : Steady pre post t none
      (if batch.isEmpty then [] else [.call (.scheduleRange batch)]) := by
    split
    · exact steady_nil
    · exact calls _
  have fires : Steady pre post t none
      (fired.flatMap fun cb => [.call (.schedule cb (-1)), .drop cb, .drop cb]) := by
    refine Steady.flatMap (fun cb => ?_) fired
    exact (calls (.schedule cb (-1))).append (steady_drops t none [some cb, some cb])
  have steady := (stored.append (steady_drops t none (batch.map some))).append fires
  obtain ⟨typed, left⟩ := stands_again (x := .round task) (t := t) .yielded task rfl rfl
  exact ⟨steady.typed_append.mpr typed, steady.after_append.trans left⟩

theorem exec_typed {xs : List (Instr Cb)} (asked : pre s held x)
    (io : x = .call .stop → kind = .ioManager)
    (calls : ∀ cb, x = .invoke cb → held ≠ none →
      ∀ op ∈ program.performs cb input.choice, Quiet s op)
    (dies : ∀ cb, x = .drop cb → held ≠ none →
      ∀ op ∈ program.releases cb input.choice, Quiet s op)
    (edge : exec kind program s held x input = some (t, held', some xs)) :
    Stands t held held' x xs := by
  cases x with
  | lock mode =>
    obtain ⟨-, edge⟩ := Option.ite_none_left_eq_some.mp edge
    obtain ⟨u, given, same⟩ := Option.map_eq_some_iff.mp edge
    cases same
    exact ⟨trivial, rfl⟩
  | call op =>
    cases edge
    exact stands_body op asked fun stop => io (congrArg Instr.call stop)
  | invoke cb =>
    cases edge
    exact stands_calls (calls cb rfl)
  | drop cb =>
    cases edge
    exact stands_calls (dies cb rfl)
  | place cb threadId | placeAll cbs =>
    cases edge
    exact steady_drops ..
  | loop f =>
    cases edge
    have free : held = none := asked
    exact ⟨⟨free, trivial, trivial⟩, free.symm⟩
  | scan f =>
    cases edge
    cases (s.sched.dequeue input.tid).2 with
    | none => exact ⟨⟨trivial, rfl, trivial, trivial⟩, rfl⟩
    | some cb =>
      exact ⟨⟨trivial, trivial, trivial, rfl, trivial, trivial, rfl, trivial, trivial⟩, rfl⟩
  | exitTest f task =>
    cases edge
    cases s.sched.leaves with
    | true =>
      have steady := steady_drops s none [task]
      exact ⟨⟨trivial, steady.1⟩, steady.2⟩
    | false => exact ⟨⟨trivial, rfl, trivial⟩, rfl⟩
  | resume f task =>
    have free : held = none := asked
    cases f with
    | yielded =>
      cases edge
      exact ⟨⟨free, trivial, trivial⟩, free.symm⟩
    | leaving =>
      cases edge
      exact stands_again .returned task free free
    | _ => cases edge
  | round task =>
    cases edge
    exact stands_round asked task input.batch input.fired
  | idleTest task =>
    cases edge
    have back (f : Fiber) : Stands s held held (.idleTest task) (.unlock :: again f task) := by
      obtain ⟨typed, left⟩ := stands_again (x := .idleTest task) (t := s) f task rfl rfl
      exact ⟨⟨trivial, typed⟩, left⟩
    cases kind.test s.sched with
    | test => exact ⟨⟨trivial, rfl, trivial, trivial⟩, rfl⟩
    | round => exact ⟨⟨trivial, rfl, trivial⟩, rfl⟩
    | _ => exact back _
  | addEntry fd cb event change alloc =>
    cases edge
    exact stands_drops _ ⟨⟨trivial, trivial, trivial⟩, rfl⟩
  | request fd op event addr =>
    unfold exec at edge
    dsimp only at edge
    split at edge
    · cases edge
      exact ⟨trivial, rfl⟩
    · cases edge
      exact steady_drops ..
  | find fd use =>
    cases edge
    split
    · exact ⟨⟨trivial, rfl, trivial, trivial⟩, rfl⟩
    · exact ⟨⟨trivial, trivial⟩, rfl⟩
  | use fd use =>
    obtain ⟨ctx, -, same⟩ := Option.map_eq_some_iff.mp edge
    dsimp only at same
    split at same
    · next left =>
      cases same
      exact stands_use left
    · cases same
  | erase fd =>
    cases edge
    exact steady_drops ..
  | _ =>
    cases edge
    exact ⟨trivial, rfl⟩

/-! ## Runs -/

/-- Every thread has a stack that locks only when it does not hold the lock. -/
def Inv (p : Pool (Locked Cb) (Frame (Option LockMode) (Instr Cb))) : Prop :=
  Assured (fun _ => True) (fun s l => Typed pre post s l.held l.todo) p

theorem Inv.noReentry (inv : Inv p) : NoReentry p := by
  intro i l here mode rest next
  have typed := inv.ops i l here
  rw [next] at typed
  exact typed.1

/-- A calm step keeps the stacks typed. -/
theorem Inv.keep {a : Act (PublicOp Cb) (LockInput Cb)} (inv : Inv p)
    (calm : Calm kind program p a) (edge : step kind program p a = some q) : Inv q := by
  cases a with
  | enter i op => exact inv.enter edge ⟨fun holds => absurd rfl holds, trivial⟩
  | run i input =>
    obtain ⟨l, t, o, here, moved, rfl⟩ := step_run edge
    have typed := inv.ops i l here
    have calm := fun x rest => calm l x rest here
    cases todo : l.todo with
    | nil =>
      rw [move, todo] at moved
      cases moved
      refine inv.run trivial (fun m next => ?_) fun j m _ _ stays => stays
      cases next
    | cons x rest =>
      obtain ⟨held, r, done, rfl⟩ := move_cons todo moved
      have stays := pre_mono (exec_stopping done)
      refine inv.run trivial (fun m next => ?_) fun j m _ _ typed => typed.mono stays
      obtain ⟨xs, rfl, rfl⟩ := Option.map_eq_some_iff.mp next
      rw [todo] at typed
      have calm := calm x rest todo
      obtain ⟨expands, meets⟩ := exec_typed typed.1 (by rintro rfl; exact calm)
        (by rintro cb rfl; exact calm) (by rintro cb rfl; exact calm) done
      exact typed.expand stays expands meets

/-- In a run whose steps are all calm, no thread is ever about to acquire a lock that
it holds. -/
theorem noReentry_along {mgr : IOmanager Cb} {as : List (Act (PublicOp Cb) (LockInput Cb))}
    (along : Along (step kind program) (Calm kind program) (Pool.idle (init mgr)) as) :
    Always (step kind program) NoReentry (Pool.idle (init mgr)) as :=
  (always_of_along Inv.keep (assured_idle trivial) along).mono fun _ inv => inv.noReentry

/-- The callbacks that the hooks build: the event callback of `do_io`, which clears a
flag, that of `connect_with_timeout`, and the two of their timers. `keeper` is one of a
user that has captured a `Socket` with its descriptor. -/
inductive HookCallback where
  | doIo
  | doIoTimer (fd : Int32) (event : Event)
  | connect (fd : Int32)
  | connectTimer (fd : Int32)
  | keeper (fd : Int32)

/-- What they call. A timer whose condition is gone or cancelled calls nothing. -/
def HookCallback.operations : HookCallback → ℕ → List (PublicOp HookCallback)
  | .doIo, _ | .keeper _, _ => []
  | .doIoTimer fd event, choice => if choice = 0 then [] else [.delEvent fd event true]
  | .connect fd, _ => [.delEvent fd Event.WRITE true]
  | .connectTimer fd, choice => if choice = 0 then [] else [.delEvent fd Event.WRITE true]

/-- The last owner of a `Socket` closes it, and the hooked `close` cancels its events. -/
def HookCallback.releases : HookCallback → ℕ → List (PublicOp HookCallback)
  | .keeper fd, choice => if choice = 0 then [] else [.cancel fd]
  | _, _ => []

def HookCallback.ofHooks : Program HookCallback := ⟨operations, releases⟩

def fresh : IOmanager HookCallback := IOmanager.init (3, 4) 0

/-- A step for which the kernel accepts every request. -/
def plain (choice : ℕ) : LockInput HookCallback := ⟨choice, 0, [], [], none⟩

/-- A thread calls an operation and executes as many instructions as given, the branches
of the callbacks falling out one way. -/
def calls (op : PublicOp HookCallback) (choice n : ℕ) :
    List (Act (PublicOp HookCallback) (LockInput HookCallback)) :=
  .enter 0 op :: List.replicate n (.run 0 (plain choice))

/-- The event of `do_io` is added, and its timer has it deleted and activated. -/
def doIoExpires : List (Act (PublicOp HookCallback) (LockInput HookCallback)) :=
  calls (.addEvent 5 (some .doIo) Event.READ false 64) 0 9 ++
    calls (.delEvent 5 Event.READ true) 0 11

theorem noReentry_doIoExpires :
    Always (step .ioManager HookCallback.ofHooks) NoReentry (Pool.idle (init fresh))
      doIoExpires := by
  apply noReentry_along
  refine along_cons trivial rfl ?_
  iterate 3
    refine along_cons (fun _ _ _ here next => by cases here; cases next; trivial) rfl ?_
  refine along_cons (fun _ _ _ here next => ?_) rfl ?_
  · cases here
    cases next
    exact fun _ _ => nofun
  iterate 2
    refine along_cons (fun _ _ _ here next => by cases here; cases next; trivial) rfl ?_
  refine along_cons (fun _ _ _ here next => ?_) rfl ?_
  · cases here
    cases next
    exact fun _ _ => nofun
  refine along_cons (fun _ _ _ here next => ?_) rfl ?_
  · cases here
    cases next
    exact fun _ _ => nofun
  refine along_cons (fun _ _ _ here next => by cases here; cases next) rfl ?_
  refine along_cons trivial rfl ?_
  iterate 6
    refine along_cons (fun _ _ _ here next => by cases here; cases next; trivial) rfl ?_
  refine along_cons (fun _ _ _ here next => ?_) rfl ?_
  · cases here
    cases next
    exact fun _ _ => nofun
  refine along_cons (fun _ _ _ here next => by cases here; cases next; trivial) rfl ?_
  refine along_cons (fun _ _ _ here next => ?_) rfl ?_
  · cases here
    cases next
    exact fun _ _ => nofun
  refine along_cons (fun _ _ _ here next => by cases here; cases next; trivial) rfl ?_
  exact along_cons (fun _ _ _ here next => by cases here; cases next) rfl trivial

/-- `stop` of a `Schedule`; the event of `connect_with_timeout`, deleted and activated by
its timer; and an event whose callback is the last owner of another `Socket`, deleted. -/
theorem lock_reentered :
    ¬ Always (step .schedule HookCallback.ofHooks) NoReentry (Pool.idle (init fresh))
        (calls .stop 0 4) ∧
      ¬ Always (step .ioManager HookCallback.ofHooks) NoReentry (Pool.idle (init fresh))
        (calls (.addEvent 5 (some (.connect 5)) Event.WRITE false 64) 0 9 ++
          calls (.delEvent 5 Event.WRITE true) 0 8) ∧
      ¬ Always (step .ioManager HookCallback.ofHooks) NoReentry (Pool.idle (init fresh))
        (calls (.addEvent 5 (some (.keeper 6)) Event.READ false 64) 0 9 ++
          calls (.delEvent 5 Event.READ false) 1 9) := by
  refine ⟨fun always => ?_, fun always => ?_, fun always => ?_⟩
  · cases always.last rfl 0 _ rfl _ _ rfl
  · cases always.last rfl 0 _ rfl _ _ rfl
  · cases always.last rfl 0 _ rfl _ _ rfl

end Sylar.Locked
