import Mathlib.Data.Nat.Notation
import Sylar.Lib.Runs

/-!
# The current scheduler

`Schedule::GetThis()` reads `t_scheduler`, a pointer of the whole process. Every
constructor sets it, nothing else does: no worker on entering `run()`, and no
destructor. The hooked calls of every task find their `IOmanager` through it.

The model is a program that constructs and destroys schedulers, numbered in the
order of their construction, with the workers inside their `run()`. What
`GetThis()` has answered is recorded.

* `Inv`: the pointer is the scheduler constructed last, and a scheduler with a
  worker inside `run()` has not been destroyed.
* `sound_iff`: the answers are right in the runs in which only the tasks of the
  scheduler constructed last ask, and the others while it exists.
-/

namespace Sylar

/-- A worker inside `run()`, and whether it is running a task. -/
structure RunLoop where
  scheduler : ℕ
  inTask : Bool

/-- An answer of `GetThis()`: the scheduler whose task asked, if it was a task, the
scheduler that the answer points to, and whether that had been destroyed. -/
structure ThisAnswer where
  asker : Option ℕ
  given : Option ℕ
  destroyed : Bool

structure Schedulers where
  tScheduler : Option ℕ
  constructed : ℕ
  destroyed : ℕ → Bool
  workers : List RunLoop
  answers : List ThisAnswer

/-- The steps: the constructor of a scheduler, the end of its destructor, which has
joined the workers, a worker that enters `run()`, begins a task, finishes it or
leaves, and `GetThis()` called by the task of a worker or by other code. -/
inductive SchedulersStep where
  | construct
  | destroy (s : ℕ)
  | enter (s : ℕ)
  | begin (i : ℕ)
  | finish (i : ℕ)
  | leave (i : ℕ)
  | getThis (i : ℕ)
  | getThisOutside

namespace Schedulers

def init : Schedulers := ⟨none, 0, fun _ => false, [], []⟩

/-- Whether the scheduler `s` exists. -/
def alive (p : Schedulers) (s : ℕ) : Bool := decide (s < p.constructed) && !p.destroyed s

/-- `Schedule::GetThis()`, recorded. -/
def getThis (p : Schedulers) (asker : Option ℕ) : Schedulers :=
  { p with answers := p.answers ++ [⟨asker, p.tScheduler, p.tScheduler.any p.destroyed⟩] }

def step (p : Schedulers) : SchedulersStep → Option Schedulers
  | .construct => some { p with tScheduler := some p.constructed, constructed := p.constructed + 1 }
  | .destroy s =>
    if p.alive s && p.workers.all fun x => x.scheduler != s then
      some { p with destroyed := fun r => p.destroyed r || r == s }
    else none
  | .enter s => if p.alive s then some { p with workers := p.workers ++ [⟨s, false⟩] } else none
  | .begin i => p.workers[i]?.bind fun x =>
    if x.inTask then none else some { p with workers := p.workers.set i { x with inTask := true } }
  | .finish i => p.workers[i]?.bind fun x =>
    if x.inTask then some { p with workers := p.workers.set i { x with inTask := false } } else none
  | .leave i => p.workers[i]?.bind fun x =>
    if x.inTask then none else some { p with workers := p.workers.eraseIdx i }
  | .getThis i => p.workers[i]?.bind fun x =>
    if x.inTask then some (p.getThis (some x.scheduler)) else none
  | .getThisOutside => some (p.getThis none)

/-! ## The property and its condition -/

/-- Every answer was right: a task was given its own scheduler, and nobody a
scheduler that had been destroyed. -/
def Sound (p : Schedulers) : Prop :=
  ∀ r ∈ p.answers, (∀ s, r.asker = some s → r.given = some s) ∧ r.destroyed = false

/-- A task that asks belongs to the scheduler constructed last, and other code asks
while that scheduler exists, or before there is one. -/
def Latest (p : Schedulers) : SchedulersStep → Prop
  | .getThis i => ∀ x, p.workers[i]? = some x → x.scheduler + 1 = p.constructed
  | .getThisOutside => ∀ s, s + 1 = p.constructed → p.destroyed s = false
  | _ => True

/-- The pointer is the scheduler constructed last, and the schedulers with workers
inside `run()` exist. -/
structure Inv (p : Schedulers) : Prop where
  pointer : ∀ s, p.tScheduler = some s ↔ s + 1 = p.constructed
  workers : ∀ x ∈ p.workers, x.scheduler < p.constructed ∧ p.destroyed x.scheduler = false

variable {p q : Schedulers} {a : SchedulersStep} {s : ℕ}

theorem inv_init : Inv init where
  pointer s := iff_of_false nofun (Nat.succ_ne_zero s)
  workers x member := by cases member

theorem alive_iff : p.alive s = true ↔ s < p.constructed ∧ p.destroyed s = false := by
  unfold alive
  rw [Bool.and_eq_true, decide_eq_true_eq, Bool.not_eq_true']

/-- A worker that changes what it does stays with its scheduler. -/
theorem Inv.set (inv : Inv p) {i : ℕ} {x : RunLoop} (there : p.workers[i]? = some x) (b : Bool) :
    Inv { p with workers := p.workers.set i { x with inTask := b } } where
  pointer := inv.pointer
  workers y member := by
    rcases List.mem_or_eq_of_mem_set member with old | rfl
    · exact inv.workers y old
    · exact inv.workers x (List.mem_of_getElem? there)

theorem Inv.next (inv : Inv p) (edge : p.step a = some q) : Inv q := by
  cases a with
  | construct =>
    cases edge
    constructor
    case pointer =>
      intro s
      show some p.constructed = some s ↔ s + 1 = p.constructed + 1
      rw [Option.some.injEq]
      omega
    case workers =>
      intro x member
      obtain ⟨known, present⟩ := inv.workers x member
      exact ⟨Nat.lt_succ_of_lt known, present⟩
  | destroy s =>
    obtain ⟨enabled, rest⟩ := Option.ite_none_right_eq_some.mp edge
    cases rest
    obtain ⟨-, joined⟩ := Bool.and_eq_true_iff.mp enabled
    refine ⟨inv.pointer, fun x member => ?_⟩
    obtain ⟨known, present⟩ := inv.workers x member
    have other : (x.scheduler == s) = false :=
      beq_eq_false_iff_ne.mpr (bne_iff_ne.mp (List.all_eq_true.mp joined x member))
    refine ⟨known, ?_⟩
    show (p.destroyed x.scheduler || x.scheduler == s) = false
    rw [present, other]
    rfl
  | enter s =>
    obtain ⟨enabled, rest⟩ := Option.ite_none_right_eq_some.mp edge
    cases rest
    refine ⟨inv.pointer, fun x member => ?_⟩
    rcases List.mem_append.mp member with old | new
    · exact inv.workers x old
    · rw [List.mem_singleton.mp new]
      exact alive_iff.mp enabled
  | begin i =>
    obtain ⟨x, there, edge⟩ := Option.bind_eq_some_iff.mp edge
    obtain ⟨-, rest⟩ := Option.ite_none_left_eq_some.mp edge
    cases rest
    exact inv.set there true
  | finish i =>
    obtain ⟨x, there, edge⟩ := Option.bind_eq_some_iff.mp edge
    obtain ⟨-, rest⟩ := Option.ite_none_right_eq_some.mp edge
    cases rest
    exact inv.set there false
  | leave i =>
    obtain ⟨x, there, edge⟩ := Option.bind_eq_some_iff.mp edge
    obtain ⟨-, rest⟩ := Option.ite_none_left_eq_some.mp edge
    cases rest
    exact ⟨inv.pointer, fun y member => inv.workers y (List.mem_of_mem_eraseIdx member)⟩
  | getThis i =>
    obtain ⟨x, there, edge⟩ := Option.bind_eq_some_iff.mp edge
    obtain ⟨-, rest⟩ := Option.ite_none_right_eq_some.mp edge
    cases rest
    exact ⟨inv.pointer, inv.workers⟩
  | getThisOutside =>
    cases edge
    exact ⟨inv.pointer, inv.workers⟩

/-! ## The answers -/

/-- The answers stay right if and only if the next one is. -/
theorem sound_getThis (before : Sound p) {asker : Option ℕ} :
    Sound (p.getThis asker) ↔ (∀ s, asker = some s → p.tScheduler = some s) ∧
      ∀ s, p.tScheduler = some s → p.destroyed s = false := by
  have gone : p.tScheduler.any p.destroyed = false ↔
      ∀ s, p.tScheduler = some s → p.destroyed s = false := by
    cases p.tScheduler with
    | none => exact iff_of_true rfl nofun
    | some s =>
      constructor
      · intro present r same
        cases same
        exact present
      · intro present
        exact present s rfl
  constructor
  · intro sound
    obtain ⟨own, present⟩ := sound _ (List.mem_append_right _ List.mem_cons_self)
    exact ⟨own, gone.mp present⟩
  · rintro ⟨own, present⟩ r member
    rcases List.mem_append.mp member with old | new
    · exact before r old
    · rw [List.mem_singleton.mp new]
      exact ⟨own, gone.mpr present⟩

theorem step_sound (inv : Inv p) (before : Sound p) (edge : p.step a = some q) :
    Sound q ↔ Latest p a := by
  cases a with
  | construct =>
    cases edge
    exact iff_of_true before trivial
  | destroy s | enter s =>
    obtain ⟨-, rest⟩ := Option.ite_none_right_eq_some.mp edge
    cases rest
    exact iff_of_true before trivial
  | begin i | leave i =>
    obtain ⟨x, there, edge⟩ := Option.bind_eq_some_iff.mp edge
    obtain ⟨-, rest⟩ := Option.ite_none_left_eq_some.mp edge
    cases rest
    exact iff_of_true before trivial
  | finish i =>
    obtain ⟨x, there, edge⟩ := Option.bind_eq_some_iff.mp edge
    obtain ⟨-, rest⟩ := Option.ite_none_right_eq_some.mp edge
    cases rest
    exact iff_of_true before trivial
  | getThis i =>
    obtain ⟨x, there, edge⟩ := Option.bind_eq_some_iff.mp edge
    obtain ⟨-, rest⟩ := Option.ite_none_right_eq_some.mp edge
    cases rest
    rw [sound_getThis before]
    constructor
    · rintro ⟨own, -⟩ y here
      obtain rfl := Option.some.inj (there.symm.trans here)
      exact (inv.pointer x.scheduler).mp (own x.scheduler rfl)
    · intro latest
      have pointer := (inv.pointer x.scheduler).mpr (latest x there)
      constructor
      · intro s same
        cases same
        exact pointer
      · intro s same
        obtain rfl := Option.some.inj (pointer.symm.trans same)
        exact (inv.workers x (List.mem_of_getElem? there)).2
  | getThisOutside =>
    cases edge
    rw [sound_getThis before]
    constructor
    · rintro ⟨-, present⟩ s last
      exact present s ((inv.pointer s).mpr last)
    · intro latest
      exact ⟨nofun, fun s same => latest s ((inv.pointer s).mp same)⟩

/-- `GetThis()` has always answered right in a run if and only if the tasks that
asked belonged to the scheduler constructed last, and other code asked while that
scheduler existed. -/
theorem sound_iff (as : List SchedulersStep) :
    Runs.Always step Sound init as ↔ Runs.Along step Latest init as :=
  Runs.always_iff_along (fun inv edge => Inv.next inv edge)
    (fun inv before edge => step_sound inv before edge) inv_init (fun r member => by cases member)

/-- A task of the first of two schedulers is given the second, and `GetThis()` goes
on to answer with a scheduler that is gone. -/
theorem answers_wrong :
    ¬ Runs.Always step Sound init [.construct, .construct, .enter 0, .begin 0, .getThis 0] ∧
      ¬ Runs.Always step Sound init [.construct, .destroy 0, .getThisOutside] := by
  constructor
  · intro always
    have last := always.last rfl
    cases (last _ List.mem_cons_self).1 0 rfl
  · intro always
    have last := always.last rfl
    cases (last _ List.mem_cons_self).2

end Schedulers

end Sylar
