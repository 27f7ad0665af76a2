import Mathlib.Data.Nat.Notation
import Mathlib.Logic.Function.Basic

/-!
# The interest set of an epoll instance

The kernel keeps one entry for each registered descriptor: a mask and 64 bits
of user data. `epoll_ctl` adds an entry where there is none and modifies or
deletes one where there is one; every other use fails, and a call may also be
refused for a reason of the kernel's own.

* `ctl_eq_ok`: when a call succeeds, and what the set is then.
* `fdOf`, `withFd`: the user data read and written as the union it is, where a
  descriptor takes the low 32 of the 64 bits.
-/

/-- Error numbers of system calls. -/
inductive Errno where
  | EINTR
  | EAGAIN
  | EBADF
  | EEXIST
  | ENOENT
  | ETIMEDOUT
  | other (code : ℕ)
  deriving DecidableEq

namespace Epoll

/-- The operations of `epoll_ctl`. -/
inductive Op where
  | add
  | mod
  | del
  deriving DecidableEq

/-- `struct epoll_event`. -/
structure Entry where
  events : BitVec 32
  data : BitVec 64
  deriving DecidableEq

/-- The registered descriptors with their entries. -/
abbrev InterestSet (F : Type*) := F → Option Entry

def EPOLLIN : BitVec 32 := 0x1#32
def EPOLLOUT : BitVec 32 := 0x4#32
def EPOLLERR : BitVec 32 := 0x8#32
def EPOLLHUP : BitVec 32 := 0x10#32
def EPOLLET : BitVec 32 := 0x80000000#32

variable {F : Type*} {k k' : InterestSet F} {op : Op} {fd : F} {e : Entry}
  {refuse : Option Errno}

/-- The error the kernel reports for a descriptor that is registered already,
or not yet. -/
def misuse (k : InterestSet F) (op : Op) (fd : F) : Option Errno :=
  match op with
  | .add => if (k fd).isSome then some .EEXIST else none
  | .mod | .del => if (k fd).isSome then none else some .ENOENT

/-- The entry of the descriptor after an operation. -/
def result (op : Op) (e : Entry) : Option Entry :=
  match op with
  | .add | .mod => some e
  | .del => none

/-- Whether the kernel accepts a call. -/
def Accepts (k : InterestSet F) (op : Op) (fd : F) (refuse : Option Errno) : Prop :=
  refuse = none ∧ (k fd = none ↔ op = .add)

instance : Decidable (Accepts k op fd refuse) := inferInstanceAs (Decidable (_ ∧ _))

theorem misuse_eq_none : misuse k op fd = none ↔ (k fd = none ↔ op = .add) := by
  cases op <;> cases entry : k fd <;> simp [misuse, entry]

variable [DecidableEq F]

/-- `epoll_ctl`. `refuse` is the error of a call that the kernel refuses for a
reason of its own. -/
def ctl (k : InterestSet F) (op : Op) (fd : F) (e : Entry) (refuse : Option Errno) :
    Except Errno (InterestSet F) :=
  match misuse k op fd, refuse with
  | some err, _ => .error err
  | none, some err => .error err
  | none, none => .ok (Function.update k fd (result op e))

/-- A call succeeds exactly when it is accepted, and sets the one entry. -/
theorem ctl_eq_ok : ctl k op fd e refuse = .ok k' ↔
    Accepts k op fd refuse ∧ k' = Function.update k fd (result op e) := by
  unfold ctl Accepts
  rw [← misuse_eq_none]
  cases misuse k op fd <;> cases refuse <;> simp [eq_comm]

theorem ctl_eq_error (rejected : ¬ Accepts k op fd refuse) :
    ∃ err, ctl k op fd e refuse = .error err := by
  cases outcome : ctl k op fd e refuse with
  | error err => exact ⟨err, rfl⟩
  | ok k' => exact absurd (ctl_eq_ok.mp outcome).1 rejected

theorem ctl_of_accepts (accepted : Accepts k op fd refuse) :
    ctl k op fd e refuse = .ok (Function.update k fd (result op e)) :=
  ctl_eq_ok.mpr ⟨accepted, rfl⟩

/-- The error of a call, when there is one. -/
def refusal (k : InterestSet F) (op : Op) (fd : F) (refuse : Option Errno) : Option Errno :=
  (misuse k op fd).or refuse

theorem ctl_of_refusal {err : Errno} (refused : refusal k op fd refuse = some err) :
    ctl k op fd e refuse = .error err := by
  unfold refusal at refused
  unfold ctl
  rcases Option.or_eq_some_iff.mp refused with own | ⟨own, given⟩
  · rw [own]
  · rw [own, given]

theorem ctl_of_no_refusal (taken : refusal k op fd refuse = none) :
    ctl k op fd e refuse = .ok (Function.update k fd (result op e)) := by
  obtain ⟨own, given⟩ := Option.or_eq_none_iff.mp taken
  unfold ctl
  rw [own, given]

/-! ## The user data -/

/-- `data.fd`: the low 32 bits. -/
def fdOf (data : BitVec 64) : BitVec 32 := data.setWidth 32

/-- The data after an assignment to `data.fd`. -/
def withFd (data : BitVec 64) (fd : BitVec 32) : BitVec 64 := data.extractLsb' 32 32 ++ fd

@[simp] theorem fdOf_withFd (data : BitVec 64) (fd : BitVec 32) : fdOf (withFd data fd) = fd := by
  unfold fdOf withFd
  ext i bound
  rw [BitVec.getElem_setWidth, BitVec.getLsbD_append, if_pos bound,
    BitVec.getLsbD_eq_getElem bound]

@[simp] theorem withFd_fdOf (data : BitVec 64) : withFd data (fdOf data) = data := by
  unfold fdOf withFd
  ext i bound
  rw [BitVec.getElem_append]
  split
  · rw [BitVec.getElem_setWidth, BitVec.getLsbD_eq_getElem bound]
  · have low : i - 32 < 32 := by omega
    have place : 32 + (i - 32) = i := by omega
    rw [BitVec.getElem_extractLsb', place, BitVec.getLsbD_eq_getElem bound]

/-- Writing a descriptor keeps the data only if it stands there already. -/
theorem withFd_eq_self {data : BitVec 64} {fd : BitVec 32} :
    withFd data fd = data ↔ fdOf data = fd := by
  constructor
  · intro same
    rw [← same, fdOf_withFd]
  · intro stands
    rw [← stands, withFd_fdOf]

end Epoll
