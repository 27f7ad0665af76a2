import Mathlib.Algebra.Group.Nat.Defs
import Sylar.Lib.Epoll
import Sylar.Lib.Slots

/-!
# Descriptor contexts

`FdCtx` caches, for a descriptor the hooks have seen, what the kernel was told
about it and what the user believes; `FdManager` keeps the contexts in a vector
indexed by the descriptor. The hooked calls of `hook.cpp` keep the two beside
the kernel's own table of open files.

An index outside the vector is undefined behaviour: the operations answer
`none` there. So they do for a descriptor below -1, which is no index at all.
-/

namespace Sylar

def SO_RCVTIMEO : Int32 := 20
def SO_SNDTIMEO : Int32 := 21
def SOL_SOCKET : Int32 := 1

def O_RDWR : BitVec 32 := 0x2#32
def O_NONBLOCK : BitVec 32 := 0x800#32

/-- The flags that `F_SETFL` changes: `O_APPEND`, `O_NONBLOCK`, `O_ASYNC`,
`O_DIRECT` and `O_NOATIME`. It leaves the others as they are. -/
def SETFL_MASK : BitVec 32 := 0x46c00#32

/-- `flags & O_NONBLOCK`, as a condition. -/
def isNonblock (flags : BitVec 32) : Bool := flags &&& O_NONBLOCK ≠ 0

section Flags

variable (x y : BitVec 32)

theorem isNonblock_eq : isNonblock x = x.getLsbD 11 := by
  have bit : O_NONBLOCK = BitVec.twoPow 32 11 := by decide
  rw [isNonblock, bit, BitVec.and_twoPow]
  cases x.getLsbD 11 <;> decide

@[simp] theorem isNonblock_set : isNonblock (x ||| O_NONBLOCK) = true := by
  rw [isNonblock_eq]
  simp [O_NONBLOCK]

@[simp] theorem isNonblock_clear : isNonblock (x &&& ~~~O_NONBLOCK) = false := by
  rw [isNonblock_eq]
  simp [O_NONBLOCK]

@[simp] theorem isNonblock_masked :
    isNonblock ((x &&& ~~~SETFL_MASK) ||| (y &&& SETFL_MASK)) = isNonblock y := by
  rw [isNonblock_eq, isNonblock_eq]
  simp [SETFL_MASK]

@[simp] theorem isNonblock_type : isNonblock (O_RDWR ||| (x &&& O_NONBLOCK)) = isNonblock x := by
  rw [isNonblock_eq, isNonblock_eq]
  simp [O_NONBLOCK, O_RDWR]

end Flags

/-! ## The kernel's table -/

/-- An open file: whether it is a socket, and its status flags. -/
structure File where
  isSock : Bool
  flags : BitVec 32
  deriving DecidableEq

namespace File

variable (f : File)

/-- The file after `F_SETFL` with `arg`. -/
def setfl (arg : BitVec 32) : File :=
  { f with flags := (f.flags &&& ~~~SETFL_MASK) ||| (arg &&& SETFL_MASK) }

/-- The file after `FIONBIO`. -/
def fionbio (nonblock : Bool) : File :=
  { f with flags := if nonblock then f.flags ||| O_NONBLOCK else f.flags &&& ~~~O_NONBLOCK }

@[simp] theorem isNonblock_setfl (arg : BitVec 32) :
    isNonblock (f.setfl arg).flags = isNonblock arg := isNonblock_masked _ _

@[simp] theorem isNonblock_fionbio (nonblock : Bool) :
    isNonblock (f.fionbio nonblock).flags = nonblock := by
  cases nonblock
  · exact isNonblock_clear _
  · exact isNonblock_set _

end File

/-- The open files of the process, by descriptor. -/
abbrev Kernel := Int32 → Option File

namespace Kernel

variable (k : Kernel)

/-- The kernel hands out the number `fd`. -/
def opened (fd : Int32) (f : File) : Kernel := fun d => if d = fd then some f else k d

/-- `close_f`. -/
def close (fd : Int32) : Kernel := fun d => if d = fd then none else k d

/-- `fcntl_f(fd, F_GETFL)`, -1 when it is refused. -/
def getfl (fd : Int32) (refused : Bool) : BitVec 32 :=
  match k fd, refused with
  | some f, false => f.flags
  | _, _ => -1

/-- `fcntl_f(fd, F_SETFL, arg)` and its result. -/
def setfl (fd : Int32) (arg : BitVec 32) (refused : Bool) : Kernel × BitVec 32 :=
  match k fd, refused with
  | some f, false => (k.opened fd (f.setfl arg), 0)
  | _, _ => (k, -1)

/-- `ioctl_f(fd, FIONBIO, &v)` and its result. -/
def fionbio (fd : Int32) (nonblock : Bool) (refused : Bool) : Kernel × BitVec 32 :=
  match k fd, refused with
  | some f, false => (k.opened fd (f.fionbio nonblock), 0)
  | _, _ => (k, -1)

end Kernel

/-! ## `FdCtx` -/

structure FdCtx where
  mIsInit : Bool
  mIsScoket : Bool
  mIsClose : Bool
  mUserNonblock : Bool
  mSysNonblock : Bool
  mFd : Int32
  mRecvTimeout : UInt64
  mSendTimeout : UInt64
  deriving DecidableEq

namespace FdCtx

variable (c : FdCtx)

/-- `FdCtx::setUserNonblock`. -/
def setUserNonblock (v : Bool) : FdCtx := { c with mUserNonblock := v }

/-- `FdCtx::setTimeout`. -/
def setTimeout (type : Int32) (v : UInt64) : FdCtx :=
  if type = SO_RCVTIMEO then { c with mRecvTimeout := v } else { c with mSendTimeout := v }

/-- `FdCtx::getTimeout`. -/
def getTimeout (type : Int32) : UInt64 :=
  if type = SO_RCVTIMEO then c.mRecvTimeout else c.mSendTimeout

/-- `FdCtx::init`: the context, and the kernel after its `fcntl_f`. -/
def init (k : Kernel) : FdCtx × Kernel :=
  if c.mIsInit then (c, k)
  else
    let c := { c with mRecvTimeout := -1, mSendTimeout := -1 }
    let c := match k c.mFd with
      | none => { c with mIsInit := false, mIsScoket := false }
      | some f => { c with mIsInit := true, mIsScoket := f.isSock }
    let flags := k.getfl c.mFd false
    let k := if c.mIsScoket ∧ isNonblock flags = false then
        (k.setfl c.mFd (flags ||| O_NONBLOCK) false).1
      else k
    ({ c with mSysNonblock := c.mIsScoket, mUserNonblock := false, mIsClose := false }, k)

/-- `FdCtx::FdCtx`. -/
def new (k : Kernel) (fd : Int32) : FdCtx × Kernel :=
  init ⟨false, false, false, false, false, fd, -1, -1⟩ k

/-- The test at the head of `fcntl` and `ioctl`: the descriptor is a socket
whose flags the hooks answer for. -/
def answersFor : Bool := !c.mIsClose && c.mIsScoket

end FdCtx

/-! ## `FdManager` -/

/-- `FdManager`, over what its pointers point to. -/
structure FdManager (P : Type) where
  mDatas : List (Option P)

/-- What the first section of `get` decides. -/
inductive Found (P : Type) where
  | answer (p : Option P)
  | create

namespace FdManager

variable {P : Type}

/-- `FdManager::FdManager`. -/
def init : FdManager P := ⟨List.replicate 64 none⟩

variable (m : FdManager P) (fd : Int32)

/-- What the vector holds for a descriptor. -/
def lookup : Option P := if 0 ≤ fd.toInt then Slots.lookup m.mDatas fd.toInt.toNat else none

/-- `(int)m_datas.size()`. -/
def sizeInt : Int := (m.mDatas.length : Int).bmod (2 ^ 32)

/-- `m_datas[fd]`. -/
def slot : Option (Option P) := if 0 ≤ fd.toInt then m.mDatas[fd.toInt.toNat]? else none

/-- `m_datas[fd] = p`. -/
def store (p : Option P) : Option (FdManager P) :=
  if 0 ≤ fd.toInt ∧ fd.toInt.toNat < m.mDatas.length then some ⟨m.mDatas.set fd.toInt.toNat p⟩
  else none

/-- `FdManager::get` under its shared lock. -/
def find (autoCreate : Bool) : Option (Found P) :=
  if fd = -1 then some (.answer none)
  else if m.sizeInt ≤ fd.toInt then some (if autoCreate then .create else .answer none)
  else (m.slot fd).map fun d => if d.isSome || !autoCreate then .answer d else .create

/-- `m_datas.resize(fd*1.5)`, when `fd` is past the end. -/
def grow : FdManager P :=
  if m.sizeInt ≤ fd.toInt then ⟨Slots.resize m.mDatas (fd.toInt.toNat * 3 / 2)⟩ else m

/-- `FdManager::get` under its unique lock. -/
def create (ctx : P) : Option (FdManager P) := (m.grow fd).store fd (some ctx)

/-- `FdManager::get`, where `ctx` is the context it creates if it creates one. -/
def get (autoCreate : Bool) (ctx : P) : Option (FdManager P × Option P) :=
  match m.find fd autoCreate with
  | some (.answer p) => some (m, p)
  | some .create => (m.create fd ctx).map fun m => (m, some ctx)
  | none => none

/-- `FdManager::del`. -/
def del : Option (FdManager P) := if m.sizeInt < fd.toInt then some m else m.store fd none

/-- The context of `fd` is written through its pointer. -/
def modify (f : P → P) : FdManager P := ⟨m.mDatas.modify fd.toInt.toNat (Option.map f)⟩

end FdManager

/-! ## The hooked calls -/

/-- What the hooked calls work on: `FdMgr`, and the kernel below. -/
structure Process where
  fdMgr : FdManager FdCtx
  kernel : Kernel

namespace Process

/-- A process without managed descriptors. -/
def init (k : Kernel) : Process := ⟨FdManager.init, k⟩

variable (s : Process)

/-- `FdMgr::GetInstance()->get(fd, auto_create)`. -/
def get (fd : Int32) (autoCreate : Bool) : Option (Process × Option FdCtx) :=
  match s.fdMgr.find fd autoCreate with
  | some (.answer p) => some (s, p)
  | some .create =>
    let new := FdCtx.new s.kernel fd
    (s.fdMgr.create fd new.1).map fun m => (⟨m, new.2⟩, some new.1)
  | none => none

/-- `socket`, when the system call answers with `fd`; -1 is passed on. -/
def socket (hook : Bool) (type : BitVec 32) (fd : Int32) : Option Process :=
  let s := { s with kernel := s.kernel.opened fd ⟨true, O_RDWR ||| (type &&& O_NONBLOCK)⟩ }
  if hook then (s.get fd true).map Prod.fst else some s

/-- `accept`, when the system call answers with `fd`. It looks at no hook flag. -/
def accept (fd : Int32) : Option Process :=
  let s := { s with kernel := s.kernel.opened fd ⟨true, O_RDWR⟩ }
  (s.get fd true).map Prod.fst

/-- `close`. -/
def close (hook : Bool) (fd : Int32) : Option Process :=
  if hook then
    (s.get fd false).bind fun (_, ctx) => match ctx with
      | some _ => (s.fdMgr.del fd).map fun m => ⟨m, s.kernel.close fd⟩
      | none => some { s with kernel := s.kernel.close fd }
  else some { s with kernel := s.kernel.close fd }

/-- `fcntl(fd, F_SETFL, arg)`: the result comes from the system call. -/
def setfl (fd : Int32) (arg : BitVec 32) (refused : Bool) : Option (Process × BitVec 32) :=
  (s.get fd false).map fun (_, ctx) => match ctx.filter FdCtx.answersFor with
    | none => ({ s with kernel := (s.kernel.setfl fd arg refused).1 },
        (s.kernel.setfl fd arg refused).2)
    | some ctx =>
      let m := s.fdMgr.modify fd fun c => c.setUserNonblock (isNonblock arg)
      let arg := if ctx.mSysNonblock then arg ||| O_NONBLOCK else arg &&& ~~~O_NONBLOCK
      (⟨m, (s.kernel.setfl fd arg refused).1⟩, (s.kernel.setfl fd arg refused).2)

/-- `fcntl(fd, F_GETFL)`. -/
def getfl (fd : Int32) (refused : Bool) : Option (BitVec 32) :=
  let arg := s.kernel.getfl fd refused
  (s.get fd false).map fun (_, ctx) => match ctx.filter FdCtx.answersFor with
    | none => arg
    | some ctx => if ctx.mUserNonblock then arg ||| O_NONBLOCK else arg &&& ~~~O_NONBLOCK

/-- `ioctl(d, FIONBIO, &v)`. -/
def fionbio (d : Int32) (v : Int32) (refused : Bool) : Option (Process × BitVec 32) :=
  let userNonblock : Bool := v ≠ 0
  (s.get d false).map fun (_, ctx) =>
    let m := match ctx.filter FdCtx.answersFor with
      | none => s.fdMgr
      | some _ => s.fdMgr.modify d fun c => c.setUserNonblock userNonblock
    (⟨m, (s.kernel.fionbio d userNonblock refused).1⟩,
      (s.kernel.fionbio d userNonblock refused).2)

end Process

/-! ## Timeouts -/

/-- `struct timeval`. -/
structure Timeval where
  tvSec : Int
  tvUsec : Int
  deriving DecidableEq

namespace Timeval

/-- `timeval{int(v / 1000), int(v % 1000 * 1000)}`. -/
def ofMs (v : Int) : Timeval :=
  ⟨(v.tdiv 1000).bmod (2 ^ 32), (v.tmod 1000 * 1000).bmod (2 ^ 32)⟩

/-- `v->tv_sec * 1000 + v->tv_usec / 1000`, as a `uint64_t`. -/
def toMs (v : Timeval) : UInt64 := UInt64.ofInt (v.tvSec * 1000 + v.tvUsec.tdiv 1000)

end Timeval

/-- `setsockopt`, as far as the context of the socket goes. -/
def setsockopt (hook : Bool) (level optname : Int32) (optval : Timeval) (ctx : Option FdCtx) :
    Option FdCtx :=
  if hook = true ∧ level = SOL_SOCKET ∧ (optname = SO_RCVTIMEO ∨ optname = SO_SNDTIMEO) then
    ctx.map fun c => c.setTimeout optname optval.toMs
  else ctx

namespace Socket

/-- `Socket::setRecvTimeout`. -/
def setRecvTimeout (hook : Bool) (v : Int) (ctx : Option FdCtx) : Option FdCtx :=
  setsockopt hook SOL_SOCKET SO_RCVTIMEO (Timeval.ofMs v) ctx

/-- `Socket::setSendTimeout`. -/
def setSendTimeout (hook : Bool) (v : Int) (ctx : Option FdCtx) : Option FdCtx :=
  setsockopt hook SOL_SOCKET SO_SNDTIMEO (Timeval.ofMs v) ctx

/-- `Socket::getRecvTimeout`. -/
def getRecvTimeout (ctx : Option FdCtx) : Int :=
  match ctx with
  | some c => (c.getTimeout SO_RCVTIMEO).toInt64.toInt
  | none => -1

/-- `Socket::getSendTimeout`. -/
def getSendTimeout (ctx : Option FdCtx) : Int :=
  match ctx with
  | some c => (c.getTimeout SO_SNDTIMEO).toInt64.toInt
  | none => -1

end Socket

end Sylar
