import Sylar.Fd.Nonblock

/-!
# The user's view of the non-blocking flag

The hooks force `O_NONBLOCK` on a managed socket and remember in the context what
the user asked for; `fcntl(F_GETFL)` shows the remembered flag in place of the
real one. `plain` is a descriptor on which the user's requests alone are carried
out, `hooked` one behind the hooks.

The remembered flag is the one last asked for, and the plain one is the one last
granted: they differ after a request that was refused, and for a socket that was
created with `SOCK_NONBLOCK`, which the context does not know. A refused
`F_GETFL` answers with -1, from which the hook takes the flag away unless it was
asked for.

* `Emulates`: the simulation relation, kept by every request.
* `hooked_eq_plain_iff`: the sequences that are answered alike, exactly.
-/

namespace Sylar

/-- What the user does with the flags of a descriptor; the system refuses a
request or grants it. -/
inductive FlagRequest where
  | setfl (arg : BitVec 32) (refused : Bool)
  | fionbio (v : Int32) (refused : Bool)
  | getfl (refused : Bool)

namespace FlagRequest

/-- What `F_GETFL` answers where the requests go to the system as they are. -/
def plain (f : File) : List FlagRequest → List (BitVec 32)
  | [] => []
  | .setfl arg refused :: rs => plain (if refused then f else f.setfl arg) rs
  | .fionbio v refused :: rs => plain (if refused then f else f.fionbio (v ≠ 0)) rs
  | .getfl refused :: rs => (if refused then -1 else f.flags) :: plain f rs

/-- What `F_GETFL` answers where they go through the hooks. -/
def hooked (fd : Int32) (s : Process) : List FlagRequest → Option (List (BitVec 32))
  | [] => some []
  | .setfl arg refused :: rs => (s.setfl fd arg refused).bind fun r => hooked fd r.1 rs
  | .fionbio v refused :: rs => (s.fionbio fd v refused).bind fun r => hooked fd r.1 rs
  | .getfl refused :: rs =>
    (s.getfl fd refused).bind fun answer => (hooked fd s rs).map (answer :: ·)

/-- The sequences that the hooks can answer: `asked` is the flag that was last
asked for, `granted` the one that was last granted. They agree where `F_GETFL` is
granted, and where it is refused the flag was asked for. -/
def Agrees (asked granted : Bool) : List FlagRequest → Prop
  | [] => True
  | .setfl arg refused :: rs =>
    Agrees (isNonblock arg) (if refused then granted else isNonblock arg) rs
  | .fionbio v refused :: rs => Agrees (v ≠ 0) (if refused then granted else v ≠ 0) rs
  | .getfl refused :: rs =>
    (if refused then asked = true else asked = granted) ∧ Agrees asked granted rs

/-! ## Flags but for `O_NONBLOCK` -/

section Flags

variable {x y : BitVec 32}

/-- Two values differ in `O_NONBLOCK` at most. -/
def SameBut (x y : BitVec 32) : Prop := x &&& ~~~O_NONBLOCK = y &&& ~~~O_NONBLOCK

theorem sameBut_set : SameBut (x ||| O_NONBLOCK) x := by
  unfold SameBut
  ext i bound
  simp
  grind

theorem sameBut_clear : SameBut (x &&& ~~~O_NONBLOCK) x := by
  unfold SameBut
  ext i bound
  simp

theorem SameBut.masked (same : SameBut x y) {arg arg' : BitVec 32} (args : SameBut arg arg') :
    SameBut ((x &&& ~~~SETFL_MASK) ||| (arg &&& SETFL_MASK))
      ((y &&& ~~~SETFL_MASK) ||| (arg' &&& SETFL_MASK)) := by
  unfold SameBut at same args ⊢
  ext i bound
  have bit := congrArg (·.getLsbD i) same
  have bit' := congrArg (·.getLsbD i) args
  simp at bit bit' ⊢
  grind

theorem and_flag : x &&& O_NONBLOCK = if isNonblock x then O_NONBLOCK else 0 := by
  have bit : O_NONBLOCK = BitVec.twoPow 32 11 := by decide
  rw [isNonblock_eq, bit, BitVec.and_twoPow]
  rfl

theorem eq_or_flag : x = (x &&& ~~~O_NONBLOCK) ||| (x &&& O_NONBLOCK) := by
  ext i bound
  simp
  grind

theorem masked_self : (x &&& ~~~SETFL_MASK) ||| (x &&& SETFL_MASK) = x := by
  ext i bound
  simp
  grind

/-- The flag tells apart what is the same but for it. -/
theorem SameBut.eq_iff (same : SameBut x y) : x = y ↔ isNonblock x = isNonblock y := by
  constructor
  · intro eq
    rw [eq]
  · intro flag
    calc
      x = (x &&& ~~~O_NONBLOCK) ||| (x &&& O_NONBLOCK) := eq_or_flag
      _ = (y &&& ~~~O_NONBLOCK) ||| (y &&& O_NONBLOCK) := by
        rw [same, and_flag, and_flag, flag]
      _ = y := eq_or_flag.symm

theorem SameBut.trans {z : BitVec 32} (same : SameBut x y) (same' : SameBut y z) : SameBut x z :=
  Eq.trans same same'

theorem SameBut.symm (same : SameBut x y) : SameBut y x := Eq.symm same

end Flags

/-! ## The simulation -/

variable {s t : Process} {fd : Int32} {f : File} {asked granted refused : Bool}

/-- The process behind the hooks shows the plain file `f`. -/
structure Emulates (fd : Int32) (s : Process) (f : File) (asked granted : Bool) : Prop where
  context : ∃ c, s.fdMgr.found fd = some c ∧ c.answersFor = true ∧ c.mUserNonblock = asked
  file : ∃ g, s.kernel fd = some g ∧ SameBut g.flags f.flags
  granted : isNonblock f.flags = granted

theorem get_of_found {c : FdCtx} (answer : s.fdMgr.found fd = some c) :
    s.get fd false = some (s, some c) := by
  have decided : s.fdMgr.find fd false = some (.answer (some c)) := by
    unfold FdManager.found at answer
    split at answer
    · rename_i p decided
      rw [decided, answer]
    · cases answer
  rw [Process.get, decided]

section Found

variable {c : FdCtx} (found : s.fdMgr.found fd = some c) (answers : c.answersFor = true)

include found answers

theorem setfl_of_found (arg : BitVec 32) (refused : Bool) :
    (s.setfl fd arg refused).map Prod.fst =
      some ⟨s.fdMgr.modify fd fun c => c.setUserNonblock (isNonblock arg),
        (s.kernel.setfl fd (if c.mSysNonblock then arg ||| O_NONBLOCK
          else arg &&& ~~~O_NONBLOCK) refused).1⟩ := by
  simp only [Process.setfl, get_of_found found, Option.map_some, Option.filter_some, answers,
    if_true]

theorem fionbio_of_found (v : Int32) (refused : Bool) :
    (s.fionbio fd v refused).map Prod.fst =
      some ⟨s.fdMgr.modify fd fun c => c.setUserNonblock (v ≠ 0),
        (s.kernel.fionbio fd (v ≠ 0) refused).1⟩ := by
  simp only [Process.fionbio, get_of_found found, Option.map_some, Option.filter_some, answers,
    if_true]

theorem getfl_of_found (refused : Bool) :
    s.getfl fd refused = some (if c.mUserNonblock then s.kernel.getfl fd refused ||| O_NONBLOCK
      else s.kernel.getfl fd refused &&& ~~~O_NONBLOCK) := by
  simp only [Process.getfl, get_of_found found, Option.map_some, Option.filter_some, answers,
    if_true]

end Found

/-- A context through which the user asks for `asked` keeps emulating. -/
theorem context_modify (emulates : Emulates fd s f asked granted) (v : Bool) :
    ∃ c, (s.fdMgr.modify fd fun c => c.setUserNonblock v).found fd = some c ∧
      c.answersFor = true ∧ c.mUserNonblock = v := by
  obtain ⟨c, found, answers, -⟩ := emulates.context
  exact ⟨c.setUserNonblock v, by rw [FdManager.found_modify, found, Option.map_some], answers, rfl⟩

theorem emulates_setfl (emulates : Emulates fd s f asked granted) (arg : BitVec 32)
    (refused : Bool) :
    ∃ r, s.setfl fd arg refused = some r ∧
      Emulates fd r.1 (if refused then f else f.setfl arg) (isNonblock arg)
        (if refused then granted else isNonblock arg) := by
  obtain ⟨c, found, answers, -⟩ := emulates.context
  obtain ⟨g, here, same⟩ := emulates.file
  have forced : SameBut (if c.mSysNonblock then arg ||| O_NONBLOCK else arg &&& ~~~O_NONBLOCK)
      arg := by
    split
    · exact sameBut_set
    · exact sameBut_clear
  obtain ⟨r, answer, after⟩ :=
    Option.map_eq_some_iff.mp (setfl_of_found found answers arg refused)
  refine ⟨r, answer, ?_⟩
  rw [after]
  refine ⟨context_modify emulates _, ?_, ?_⟩
  · dsimp only
    rw [Kernel.setfl_self, here]
    cases refused with
    | true => exact ⟨g, rfl, same⟩
    | false => exact ⟨_, rfl, same.masked forced⟩
  · cases refused with
    | true => exact emulates.granted
    | false => exact f.isNonblock_setfl arg

theorem emulates_fionbio (emulates : Emulates fd s f asked granted) (v : Int32)
    (refused : Bool) :
    ∃ r, s.fionbio fd v refused = some r ∧
      Emulates fd r.1 (if refused then f else f.fionbio (v ≠ 0)) (v ≠ 0)
        (if refused then granted else v ≠ 0) := by
  obtain ⟨c, found, answers, -⟩ := emulates.context
  obtain ⟨g, here, same⟩ := emulates.file
  obtain ⟨r, answer, after⟩ :=
    Option.map_eq_some_iff.mp (fionbio_of_found found answers v refused)
  refine ⟨r, answer, ?_⟩
  rw [after]
  refine ⟨context_modify emulates _, ?_, ?_⟩
  · dsimp only
    rw [Kernel.fionbio_self, here]
    cases refused with
    | true => exact ⟨g, rfl, same⟩
    | false =>
      refine ⟨_, rfl, ?_⟩
      cases decide (v ≠ 0) with
      | true => exact sameBut_set.trans (same.trans sameBut_set.symm)
      | false => exact sameBut_clear.trans (same.trans sameBut_clear.symm)
  · cases refused with
    | true => exact emulates.granted
    | false => exact f.isNonblock_fionbio _

/-- `F_GETFL` through the hooks, and when it is the plain answer. -/
theorem getfl_eq_iff (emulates : Emulates fd s f asked granted) (refused : Bool) :
    ∃ answer, s.getfl fd refused = some answer ∧
      (answer = (if refused then -1 else f.flags) ↔
        if refused then asked = true else asked = granted) := by
  obtain ⟨c, found, answers, rfl⟩ := emulates.context
  obtain ⟨g, here, same⟩ := emulates.file
  refine ⟨_, getfl_of_found found answers refused, ?_⟩
  rw [Kernel.getfl_open here]
  cases refused with
  | true =>
    simp only [if_true]
    cases c.mUserNonblock <;> decide
  | false =>
    simp only [Bool.false_eq_true, if_false]
    rw [← emulates.granted]
    cases c.mUserNonblock with
    | true =>
      exact (sameBut_set.trans same).eq_iff.trans (by rw [isNonblock_set])
    | false =>
      exact (sameBut_clear.trans same).eq_iff.trans (by rw [isNonblock_clear])

/-- What a process that emulates a plain file answers to a sequence. -/
theorem hooked_eq_iff (emulates : Emulates fd s f asked granted) (rs : List FlagRequest) :
    hooked fd s rs = some (plain f rs) ↔ Agrees asked granted rs := by
  induction rs generalizing s f asked granted with
  | nil => exact iff_of_true rfl trivial
  | cons r rs ih =>
    cases r with
    | setfl arg refused =>
      obtain ⟨r, answer, emulates'⟩ := emulates_setfl emulates arg refused
      rw [hooked, answer, Option.bind_some]
      exact ih emulates'
    | fionbio v refused =>
      obtain ⟨r, answer, emulates'⟩ := emulates_fionbio emulates v refused
      rw [hooked, answer, Option.bind_some]
      exact ih emulates'
    | getfl refused =>
      obtain ⟨answer, answered, right⟩ := getfl_eq_iff emulates refused
      rw [hooked, answered, Option.bind_some, plain, Agrees, ← right, ← ih emulates]
      cases hooked fd s rs <;> simp

/-! ## From the creation on -/

theorem get_kernel {p : Option FdCtx} {autoCreate : Bool}
    (answer : s.get fd autoCreate = some (t, p)) :
    t.kernel = s.kernel ∨ t.kernel = (FdCtx.new s.kernel fd).2 := by
  unfold Process.get at answer
  split at answer
  · cases answer
    exact .inl rfl
  · obtain ⟨m, -, same⟩ := Option.map_eq_some_iff.mp answer
    cases same
    exact .inr rfl
  · cases answer

/-- The file of a socket that was created with `type`. -/
def created (type : BitVec 32) : File := ⟨true, O_RDWR ||| (type &&& O_NONBLOCK)⟩

/-- A new socket shows what its creation asked for, but for the flag, which its
context takes from nowhere. -/
theorem emulates_created {type : BitVec 32} {c : FdCtx}
    (new : s.socket true type fd = some t) (found : t.fdMgr.found fd = some c)
    (answers : c.answersFor = true) :
    Emulates fd t (created type) c.mUserNonblock (isNonblock type) := by
  obtain ⟨⟨_, p⟩, answer, rfl⟩ := Option.map_eq_some_iff.mp new
  refine ⟨⟨c, found, answers, rfl⟩, ?_, isNonblock_type type⟩
  have here : (s.kernel.opened fd ⟨true, O_RDWR ||| (type &&& O_NONBLOCK)⟩) fd =
      some (created type) := Kernel.opened_self
  rcases get_kernel answer with same | init
  · exact ⟨created type, same ▸ here, rfl⟩
  · rw [init]
    dsimp only
    rw [FdCtx.new_open here]
    dsimp only
    split
    · rw [Kernel.setfl_self]
      refine ⟨_, by rw [here]; rfl, ?_⟩
      exact (SameBut.masked rfl sameBut_set).trans (by rw [SameBut, masked_self])
    · exact ⟨created type, here, rfl⟩

/-- **Transparency.** A socket that `socket()` has created and that is managed
answers to a sequence of requests as the plain system would, if and only if at
every `F_GETFL` that is granted the flag that was last asked for is the one that
was last granted, and at every one that is refused it was asked for. What was
asked for at first is what the context says, which is nothing if it is new. -/
theorem hooked_eq_plain_iff {type : BitVec 32} {c : FdCtx}
    (new : s.socket true type fd = some t) (found : t.fdMgr.found fd = some c)
    (answers : c.answersFor = true) (rs : List FlagRequest) :
    hooked fd t rs = some (plain (created type) rs) ↔
      Agrees c.mUserNonblock (isNonblock type) rs :=
  hooked_eq_iff (emulates_created new found answers) rs

/-- A new socket that is made non-blocking and asked for its flags. -/
theorem hooked_eq_plain_after_setfl :
    ∃ t, (Process.init fun _ => none).socket true 0 5 = some t ∧
      hooked 5 t [.setfl O_NONBLOCK false, .getfl false] =
        some (plain (created 0) [.setfl O_NONBLOCK false, .getfl false]) :=
  ⟨_, rfl, (hooked_eq_plain_iff (c := ⟨true, true, false, false, true, 5, -1, -1⟩)
    (rfl : (Process.init fun _ => none).socket true 0 5 = _) rfl rfl _).mpr ⟨rfl, trivial⟩⟩

/-- A socket created with `SOCK_NONBLOCK` seems to block. -/
theorem hooked_hides_creation :
    ∃ t, (Process.init fun _ => none).socket true O_NONBLOCK 5 = some t ∧
      hooked 5 t [.getfl false] ≠ some (plain (created O_NONBLOCK) [.getfl false]) := by
  refine ⟨_, rfl, fun same => ?_⟩
  have shown : some [O_RDWR] = some (plain (created O_NONBLOCK) [.getfl false]) := same
  exact absurd shown (by decide)

end FlagRequest

end Sylar
