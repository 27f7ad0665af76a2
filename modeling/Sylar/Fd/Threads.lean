import Sylar.Fd.Manager
import Sylar.Lib.Threads

/-!
# `FdManager` on several threads

`get(fd, true)` looks for the context under the shared lock, gives the lock up, and
makes and stores a new one under the unique lock without looking again. Two calls
that have both found nothing both create, and the first is left with a context
that nobody finds any more.

* `same_iff`: when all answers for a descriptor are the context that is found.
* `same_along_iff`: the interleavings that keep it so are those in which no call
  creates after another has been answered, and the vector stays below 2^31 slots
  once there is an answer.
-/

namespace Sylar

open Runs Threads

/-- The manager, over the numbers of the contexts. Beside it: how many have been
made, and what the calls of `get` have answered. -/
structure SharedFds where
  mgr : FdManager ℕ
  created : ℕ
  answers : List (Int32 × Option ℕ)

/-- The operations, but for `del(fd)`. -/
inductive FdOp (fd : Int32) where
  | get (d : Int32) (autoCreate : Bool)
  | del (d : Int32) (other : d ≠ fd)

/-- Where a thread is: before the first section of `get`, before the second, or
before the one of `del`. -/
inductive FdPc (fd : Int32) where
  | find (d : Int32) (autoCreate : Bool)
  | create (d : Int32)
  | del (d : Int32) (other : d ≠ fd)

namespace SharedFds

variable {fd : Int32}

/-- The first section of an operation. -/
def begins : FdOp fd → FdPc fd
  | .get d autoCreate => .find d autoCreate
  | .del d other => .del d other

/-- The call for `d` answers. -/
def answered (s : SharedFds) (d : Int32) (p : Option ℕ) : SharedFds :=
  { s with answers := s.answers ++ [(d, p)] }

/-- One section. The context is made in the second section of `get`. -/
def move (s : SharedFds) (pc : FdPc fd) (_ : Unit) : Option (SharedFds × Option (FdPc fd)) :=
  match pc with
  | .find d autoCreate => (s.mgr.find d autoCreate).map fun
    | .answer p => (s.answered d p, none)
    | .create => (s, some (.create d))
  | .create d => (s.mgr.create d s.created).map fun mgr =>
    (answered ⟨mgr, s.created + 1, s.answers⟩ d (some s.created), none)
  | .del d _ => (s.mgr.del d).map fun mgr => ({ s with mgr := mgr }, none)

/-- An interleaving, section by section. -/
def step : Pool SharedFds (FdPc fd) → Act (FdOp fd) Unit → Option (Pool SharedFds (FdPc fd)) :=
  Threads.step begins move

/-- A manager in a state that it reaches, before any of the calls. -/
structure Start (s : SharedFds) : Prop where
  sized : s.mgr.Sized
  known : ∀ d c, s.mgr.lookup d = some c → c < s.created
  answers : s.answers = []

/-- All calls for `fd` that have answered with a context have answered with the same
one, and every later call finds it. -/
def Same (fd : Int32) (p : Pool SharedFds (FdPc fd)) : Prop :=
  ∀ c, (fd, some c) ∈ p.shared.answers →
    ∀ autoCreate, p.shared.mgr.find fd autoCreate = some (.answer (some c))

/-- A call for `fd` has answered with a context. -/
def Known (fd : Int32) (s : SharedFds) : Prop := ∃ c, (fd, some c) ∈ s.answers

/-- A context is created for `fd` only before any call has answered with one; and
when one is created for `fd`, or for any descriptor after that, the vector stays
below 2^31 slots. -/
def Alone (fd : Int32) (p : Pool SharedFds (FdPc fd)) : Act (FdOp fd) Unit → Prop
  | .enter _ _ => True
  | .run i _ => ∀ d, p.ops i = some (.create d) → (d = fd → ¬ Known fd p.shared) ∧
      (d = fd ∨ Known fd p.shared → (p.shared.mgr.grow d).mDatas.length < 2 ^ 31)

/-! ## What is found -/

section Found

variable {m : FdManager ℕ} {q : ℕ} {autoCreate : Bool}

/-- `get` answers with a context exactly when it is stored and the vector has fewer
than 2^31 slots. -/
theorem find_eq_answer (sized : m.Sized) :
    m.find fd autoCreate = some (.answer (some q)) ↔
      m.mDatas.length < 2 ^ 31 ∧ m.lookup fd = some q := by
  by_cases index : 0 ≤ fd.toInt
  · by_cases small : m.mDatas.length < 2 ^ 31
    · rw [and_iff_right small]
      cases autoCreate with
      | false => rw [FdManager.find_false small index, Option.some.injEq, Found.answer.injEq]
      | true =>
        rw [FdManager.find_true small index]
        cases stored : m.lookup fd with
        | none => exact iff_of_false (fun same => nomatch same) (fun same => nomatch same)
        | some c => rw [Option.isSome_some, if_pos rfl, Option.some.injEq, Found.answer.injEq]
    · rw [FdManager.find_large sized (by omega) index]
      refine iff_of_false (fun answer => ?_) fun both => small both.1
      cases autoCreate <;> cases answer
  · refine iff_of_false (fun answer => ?_) fun both => ?_
    · unfold FdManager.find at answer
      split at answer
      · cases answer
      · split at answer
        · cases autoCreate <;> cases answer
        · rw [FdManager.slot, if_neg index] at answer
          cases answer
    · exact index (FdManager.index_of_lookup (both.2 ▸ Option.some_ne_none q)).1

theorem same_iff {p : Pool SharedFds (FdPc fd)} (sized : p.shared.mgr.Sized) :
    Same fd p ↔ ∀ c, (fd, some c) ∈ p.shared.answers →
      p.shared.mgr.mDatas.length < 2 ^ 31 ∧ p.shared.mgr.lookup fd = some c := by
  constructor
  · exact fun same c member => (find_eq_answer sized).mp (same c member true)
  · exact fun same c member autoCreate => (find_eq_answer sized).mpr (same c member)

end Found

/-! ## The invariant -/

/-- The vector has a size that it can have, and the contexts stored and answered with
have been made. -/
structure Inv (s : SharedFds) : Prop where
  sized : s.mgr.Sized
  stored : ∀ d c, s.mgr.lookup d = some c → c < s.created
  given : ∀ d c, (d, some c) ∈ s.answers → c < s.created

theorem Start.inv {s : SharedFds} (start : Start s) : Inv s where
  sized := start.sized
  stored := start.known
  given d c member := by
    rw [start.answers] at member
    cases member

variable {s s' : SharedFds} {pc : FdPc fd} {o : Option (FdPc fd)} {p q : Pool SharedFds (FdPc fd)}
  {a : Act (FdOp fd) Unit}

theorem mem_answered {d x : Int32} {c : ℕ} {r : Option ℕ} :
    (x, some c) ∈ (s.answered d r).answers ↔ (x, some c) ∈ s.answers ∨ (x = d ∧ some c = r) := by
  show (x, some c) ∈ s.answers ++ [(d, r)] ↔ _
  rw [List.mem_append, List.mem_singleton, Prod.mk.injEq]

/-- The three ways a section can go. -/
theorem move_cases (moved : move s pc () = some (s', o)) :
    (∃ d autoCreate r, pc = .find d autoCreate ∧
        s.mgr.find d autoCreate = some (.answer r) ∧ s' = s.answered d r) ∨
      s' = s ∧ (∃ d autoCreate, pc = .find d autoCreate) ∨
      (∃ d mgr, pc = .create d ∧ s.mgr.create d s.created = some mgr ∧
        s' = answered ⟨mgr, s.created + 1, s.answers⟩ d (some s.created)) ∨
      ∃ d other mgr, pc = .del d other ∧ s.mgr.del d = some mgr ∧ s' = { s with mgr := mgr } := by
  cases pc with
  | find d autoCreate =>
    obtain ⟨decision, found, after⟩ := Option.map_eq_some_iff.mp moved
    cases decision with
    | answer r =>
      cases after
      exact .inl ⟨d, autoCreate, r, rfl, found, rfl⟩
    | create =>
      cases after
      exact .inr (.inl ⟨rfl, d, autoCreate, rfl⟩)
  | create d =>
    obtain ⟨mgr, created, after⟩ := Option.map_eq_some_iff.mp moved
    cases after
    exact .inr (.inr (.inl ⟨d, mgr, rfl, created, rfl⟩))
  | del d other =>
    obtain ⟨mgr, deleted, after⟩ := Option.map_eq_some_iff.mp moved
    cases after
    exact .inr (.inr (.inr ⟨d, other, mgr, rfl, deleted, rfl⟩))

theorem Inv.move (inv : Inv s) (moved : move s pc () = some (s', o)) : Inv s' := by
  rcases move_cases moved with ⟨d, autoCreate, r, -, found, rfl⟩ | ⟨rfl, -⟩ |
    ⟨d, mgr, -, created, rfl⟩ | ⟨d, other, mgr, -, deleted, rfl⟩
  · refine ⟨inv.sized, inv.stored, fun x c member => ?_⟩
    rcases mem_answered.mp member with old | ⟨rfl, rfl⟩
    · exact inv.given x c old
    · exact inv.stored x c ((find_eq_answer inv.sized).mp found).2
  · exact inv
  · refine ⟨FdManager.sized_create inv.sized created, fun x c stored => ?_, fun x c member => ?_⟩
    · have here := FdManager.lookup_create (d := x) created
      rw [show mgr.lookup x = some c from stored] at here
      show c < s.created + 1
      split at here
      · cases here
        exact Nat.lt_succ_self _
      · have grown : (s.mgr.grow d).lookup x = none ∨ (s.mgr.grow d).lookup x = s.mgr.lookup x :=
          FdManager.lookup_grow_or
        rcases grown with gone | same
        · rw [gone] at here
          cases here
        · exact Nat.lt_succ_of_lt (inv.stored x c (same.symm.trans here.symm))
    · rcases mem_answered.mp member with old | ⟨rfl, new⟩
      · exact Nat.lt_succ_of_lt (inv.given x c old)
      · cases new
        exact Nat.lt_succ_self _
  · refine ⟨FdManager.sized_del inv.sized deleted, fun x c stored => ?_, inv.given⟩
    rcases FdManager.lookup_del_or (d := x) deleted with gone | same
    · rw [show mgr.lookup x = some c from stored] at gone
      cases gone
    · exact inv.stored x c (same.symm.trans stored)

theorem Inv.next (inv : Inv p.shared) (edge : step p a = some q) : Inv q.shared := by
  cases a with
  | enter i op =>
    obtain ⟨-, rfl⟩ := step_enter edge
    exact inv
  | run i input =>
    obtain ⟨pc, s, o, -, moved, rfl⟩ := step_run edge
    exact inv.move moved

/-! ## One section -/

/-- The second section of `get(d, true)`. -/
theorem same_create {d : Int32} {mgr : FdManager ℕ} {ops : ℕ → Option (FdPc fd)} (inv : Inv s)
    (before : ∀ c, (fd, some c) ∈ s.answers → s.mgr.mDatas.length < 2 ^ 31 ∧
      s.mgr.lookup fd = some c)
    (created : s.mgr.create d s.created = some mgr) :
    Same fd ⟨answered ⟨mgr, s.created + 1, s.answers⟩ d (some s.created), ops⟩ ↔
      (d = fd → ¬ Known fd s) ∧ (d = fd ∨ Known fd s → (s.mgr.grow d).mDatas.length < 2 ^ 31) := by
  have sized := FdManager.sized_create inv.sized created
  have length := FdManager.length_store created
  have index := (FdManager.store_eq_some created).1
  have stored := FdManager.lookup_create (d := fd) created
  rw [same_iff sized]
  show (∀ c, (fd, some c) ∈ (answered ⟨mgr, s.created + 1, s.answers⟩ d (some s.created)).answers →
    mgr.mDatas.length < 2 ^ 31 ∧ mgr.lookup fd = some c) ↔ _
  rw [length, stored]
  constructor
  · intro after
    constructor
    · rintro rfl ⟨c, old⟩
      obtain ⟨-, same⟩ := after c (mem_answered.mpr (.inl old))
      rw [if_pos rfl] at same
      cases same
      exact absurd (inv.given d _ old) (Nat.lt_irrefl _)
    · rintro (rfl | ⟨c, old⟩)
      · exact (after s.created (mem_answered.mpr (.inr ⟨rfl, rfl⟩))).1
      · exact (after c (mem_answered.mpr (.inl old))).1
  · rintro ⟨first, small⟩ c member
    rcases mem_answered.mp member with old | ⟨rfl, new⟩
    · have other : d ≠ fd := fun same => first same ⟨c, old⟩
      obtain ⟨below, held⟩ := before c old
      refine ⟨small (.inr ⟨c, old⟩), ?_⟩
      rw [if_neg other.symm, FdManager.lookup_grow inv.sized below index, held]
    · rw [if_pos rfl]
      exact ⟨small (.inl rfl), new.symm⟩

theorem same_step_iff (inv : Inv p.shared) (same : Same fd p) (edge : step p a = some q) :
    Same fd q ↔ Alone fd p a := by
  cases a with
  | enter i op =>
    obtain ⟨-, rfl⟩ := step_enter edge
    exact iff_of_true same trivial
  | run i input =>
    obtain ⟨pc, s, o, here, moved, rfl⟩ := step_run edge
    have before := (same_iff inv.sized).mp same
    have alone (other : ∀ d, pc = .create d → False) : Alone fd p (.run i input) := by
      intro d there
      exact (other d (Option.some.inj (here.symm.trans there))).elim
    rcases move_cases moved with ⟨d, autoCreate, r, rfl, found, rfl⟩ |
      ⟨rfl, d, autoCreate, rfl⟩ | ⟨d, mgr, rfl, created, rfl⟩ | ⟨d, other, mgr, rfl, deleted, rfl⟩
    · have elsewhere : Alone fd p (.run i input) := alone fun d there => by cases there
      refine iff_of_true ((same_iff ?_).mpr fun c member => ?_) elsewhere
      · exact inv.sized
      rcases mem_answered.mp member with old | ⟨rfl, rfl⟩
      · exact before c old
      · exact (find_eq_answer inv.sized).mp found
    · exact iff_of_true same (alone fun d there => by cases there)
    · rw [same_create inv before created]
      constructor
      · intro conditions e there
        cases Option.some.inj (here.symm.trans there)
        exact conditions
      · exact fun alone => alone d here
    · have length : mgr.mDatas.length = p.shared.mgr.mDatas.length := by
        rw [FdManager.del] at deleted
        split at deleted
        · cases deleted
          rfl
        · exact FdManager.length_store deleted
      have kept : mgr.lookup fd = p.shared.mgr.lookup fd := by
        rw [FdManager.del] at deleted
        split at deleted
        · cases deleted
          rfl
        · rw [FdManager.lookup_store deleted, if_neg other.symm]
      refine iff_of_true ?_ (alone fun d there => by cases there)
      refine (same_iff (FdManager.sized_del inv.sized deleted)).mpr fun c member => ?_
      rw [length, kept]
      exact before c member

/-! ## Runs -/

/-- The interleavings of `get` on any descriptors and of `del` on others in which all
calls for `fd` answer with one context, the one found later, are those in which no
call creates one for `fd` after another has been answered, and the vector stays
below 2^31 slots from the first on. -/
theorem same_along_iff (start : Start s) (as : List (Act (FdOp fd) Unit)) :
    Always step (Same fd) (Pool.idle s) as ↔ Along step (Alone fd) (Pool.idle s) as := by
  have first : Same fd (Pool.idle s : Pool SharedFds (FdPc fd)) := by
    intro c member
    rw [show (Pool.idle s : Pool SharedFds (FdPc fd)).shared.answers = [] from start.answers]
      at member
    cases member
  exact always_iff_along (I := fun p => Inv p.shared) Inv.next same_step_iff start.inv first

def init : SharedFds := ⟨.init, 0, []⟩

theorem start_init : Start init where
  sized := FdManager.sized_init
  known d c stored := by
    rw [init, FdManager.lookup_init] at stored
    cases stored
  answers := rfl

/-- A second thread looks after the first has created. -/
def oneAfterAnother : List (Act (FdOp 5) Unit) :=
  [.enter 0 (.get 5 true), .run 0 (), .run 0 (), .enter 1 (.get 5 true), .run 1 ()]

theorem same_oneAfterAnother : Always step (Same 5) (Pool.idle init) oneAfterAnother := by
  rw [same_along_iff start_init]
  refine along_cons trivial rfl ?_
  refine along_cons (fun d here => by cases here) rfl ?_
  refine along_cons ?_ rfl ?_
  · intro d here
    cases here
    refine ⟨fun _ known => ?_, fun _ => by decide⟩
    obtain ⟨c, member⟩ := known
    cases member
  refine along_cons trivial rfl ?_
  exact along_cons (fun d here => by cases here) rfl trivial

/-- Both look before either creates. -/
theorem both_create : ¬ Always step (Same 5) (Pool.idle init)
    [.enter 0 (.get 5 true), .enter 1 (.get 5 true), .run 0 (), .run 1 (), .run 0 (),
      .run 1 ()] := by
  intro always
  have first := always.last rfl 0 List.mem_cons_self false
  cases first

end SharedFds

end Sylar
