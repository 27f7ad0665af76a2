import Mathlib.Data.Nat.Notation
import Mathlib.Logic.Function.Basic
import Sylar.Lib.Runs

/-!
# Threads over a shared state

Any number of threads, each in at most one operation at a time. An operation is
its local state: `begins` is the one it starts in, and `move` one atomic section
of it, with an input, which ends the operation or leaves it in another local
state. `step` lets one thread begin an operation or run a section of the one it
is in, so that a run of `step` is an interleaving.

* `step_enter`, `step_run`: what a step is.
* `Assured I J`: the shared state is good, and each operation finds what its
  local state relies on. `Assured.enter` and `Assured.run` are the rule of
  non-interference: a section has to establish what its own thread relies on next,
  and to leave alone what the others rely on.
* `Exclusive holds`: no two operations hold the same thing.
-/

namespace Threads

variable {S L B A : Type*}

/-- The shared state, and the operation that each thread is in. -/
structure Pool (S L : Type*) where
  shared : S
  ops : ℕ → Option L

/-- A thread begins an operation, or runs the next section of its own. -/
inductive Act (B A : Type*) where
  | enter (i : ℕ) (b : B)
  | run (i : ℕ) (a : A)

/-- A pool in which no thread is in an operation. -/
def Pool.idle (s : S) : Pool S L := ⟨s, fun _ => none⟩

/-- All operations that were begun are over. -/
def Pool.Quiet (p : Pool S L) : Prop := ∀ i, p.ops i = none

/-- One step of one thread. -/
def step (begins : B → L) (move : S → L → A → Option (S × Option L)) (p : Pool S L) :
    Act B A → Option (Pool S L)
  | .enter i b =>
    if (p.ops i).isNone then some { p with ops := Function.update p.ops i (some (begins b)) }
    else none
  | .run i a => (p.ops i).bind fun l =>
    (move p.shared l a).map fun r => ⟨r.1, Function.update p.ops i r.2⟩

variable {begins : B → L} {move : S → L → A → Option (S × Option L)} {p q : Pool S L}
  {i j : ℕ} {a : A} {b : B} {l m : L}

theorem step_enter (edge : step begins move p (.enter i b) = some q) :
    p.ops i = none ∧ q = { p with ops := Function.update p.ops i (some (begins b)) } := by
  obtain ⟨idle, after⟩ := Option.ite_none_right_eq_some.mp edge
  exact ⟨Option.isNone_iff_eq_none.mp idle, (Option.some.inj after).symm⟩

theorem step_run (edge : step begins move p (.run i a) = some q) :
    ∃ l s o, p.ops i = some l ∧ move p.shared l a = some (s, o) ∧
      q = ⟨s, Function.update p.ops i o⟩ := by
  obtain ⟨l, here, after⟩ := Option.bind_eq_some_iff.mp edge
  obtain ⟨⟨s, o⟩, moved, rfl⟩ := Option.map_eq_some_iff.mp after
  exact ⟨l, s, o, here, moved, rfl⟩

/-- What an operation of the pool is after one of thread `i` has changed. -/
theorem update_eq_some {ops : ℕ → Option L} {o : Option L}
    (here : Function.update ops i o j = some m) :
    (j = i ∧ o = some m) ∨ (j ≠ i ∧ ops j = some m) := by
  by_cases same : j = i
  · rw [same, Function.update_self] at here
    exact .inl ⟨same, here⟩
  · rw [Function.update_of_ne same] at here
    exact .inr ⟨same, here⟩

/-! ## Non-interference -/

/-- The shared state meets `I`, and every operation finds `J` of its local
state. -/
structure Assured (I : S → Prop) (J : S → L → Prop) (p : Pool S L) : Prop where
  shared : I p.shared
  ops : ∀ i l, p.ops i = some l → J p.shared l

variable {I : S → Prop} {J : S → L → Prop}

theorem assured_idle {s : S} (good : I s) : Assured I J (Pool.idle s) where
  shared := good
  ops i l here := by cases here

theorem Assured.enter (assured : Assured I J p) (edge : step begins move p (.enter i b) = some q)
    (opens : J p.shared (begins b)) : Assured I J q := by
  obtain ⟨-, rfl⟩ := step_enter edge
  refine ⟨assured.shared, fun j m here => ?_⟩
  rcases update_eq_some here with ⟨-, own⟩ | ⟨-, other⟩
  · exact Option.some.inj own ▸ opens
  · exact assured.ops j m other

/-- A section of one thread: it keeps what is shared, finds what it relies on
next, and leaves the others what they rely on. -/
theorem Assured.run (assured : Assured I J p) {s : S} {o : Option L}
    (shared : I s) (own : ∀ m, o = some m → J s m)
    (apart : ∀ j m, j ≠ i → p.ops j = some m → J p.shared m → J s m) :
    Assured I J ⟨s, Function.update p.ops i o⟩ where
  shared := shared
  ops j m here := by
    rcases update_eq_some here with ⟨-, next⟩ | ⟨distinct, other⟩
    · exact own m next
    · exact apart j m distinct other (assured.ops j m other)

/-! ## Exclusive possession -/

/-- What an operation holds, no other operation holds. -/
def Exclusive {R : Type*} (holds : S → L → R → Prop) (p : Pool S L) : Prop :=
  ∀ i j l m r, p.ops i = some l → p.ops j = some m → holds p.shared l r → holds p.shared m r → i = j

variable {R : Type*} {holds : S → L → R → Prop}

theorem exclusive_idle (s : S) : Exclusive holds (Pool.idle s : Pool S L) :=
  fun i j l m r here _ _ _ => by cases here

theorem Exclusive.enter (exclusive : Exclusive holds p)
    (edge : step begins move p (.enter i b) = some q)
    (nothing : ∀ r, ¬ holds p.shared (begins b) r) : Exclusive holds q := by
  obtain ⟨-, rfl⟩ := step_enter edge
  intro j k l m r hereJ hereK holdsJ holdsK
  rcases update_eq_some hereJ with ⟨-, own⟩ | ⟨-, otherJ⟩
  · cases own
    exact absurd holdsJ (nothing r)
  · rcases update_eq_some hereK with ⟨-, own⟩ | ⟨-, otherK⟩
    · cases own
      exact absurd holdsK (nothing r)
    · exact exclusive j k l m r otherJ otherK holdsJ holdsK

/-- A section of one thread: the others come to hold nothing, and what its own
thread holds next no other does. -/
theorem Exclusive.run (exclusive : Exclusive holds p) {s : S} {o : Option L}
    (fewer : ∀ j m r, j ≠ i → p.ops j = some m → holds s m r → holds p.shared m r)
    (own : ∀ l j m r, o = some l → holds s l r → j ≠ i → p.ops j = some m → ¬ holds p.shared m r) :
    Exclusive holds ⟨s, Function.update p.ops i o⟩ := by
  intro j k l m r hereJ hereK holdsJ holdsK
  rcases update_eq_some hereJ with ⟨sameJ, nextJ⟩ | ⟨distinctJ, otherJ⟩
  · rcases update_eq_some hereK with ⟨sameK, -⟩ | ⟨distinctK, otherK⟩
    · exact sameJ.trans sameK.symm
    · exact absurd (fewer k m r distinctK otherK holdsK) (own l k m r nextJ holdsJ distinctK otherK)
  · rcases update_eq_some hereK with ⟨-, nextK⟩ | ⟨distinctK, otherK⟩
    · exact absurd (fewer j l r distinctJ otherJ holdsJ) (own m j l r nextK holdsK distinctJ otherJ)
    · exact exclusive j k l m r otherJ otherK (fewer j l r distinctJ otherJ holdsJ)
        (fewer k m r distinctK otherK holdsK)

end Threads
