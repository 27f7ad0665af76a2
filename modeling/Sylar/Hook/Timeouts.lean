import Sylar.Hook.Steps
import Sylar.Lib.Runs

/-!
# The user's timeouts

The timeouts of a socket are kept in its context, in milliseconds, one for each
direction: `setsockopt` stores them, `do_io` arms its timer with them. On the way
there a value becomes a `timeval` and is put together again (`toMs_ofMs`). But
`do_io` begins by storing 1000 for its own direction.

* `timers_armed`: every timer that a call arms gets the timeout that the call
  read at its head.
* `right_iff_fits`: the user's values govern all of a run, exactly when every
  call that waits finds 1000 set for its direction.
-/

namespace Sylar

/-! ## Milliseconds and back -/

namespace Timeval

variable {v : Int}

theorem toMs_ofMs (positive : 0 < v) (bounded : v < 2 ^ 31 * 1000) :
    (ofMs v).toMs = UInt64.ofInt v := by
  have quotient : v.tdiv 1000 = v / 1000 := Int.tdiv_eq_ediv_of_nonneg (by omega)
  have rest : v.tmod 1000 = v % 1000 := Int.tmod_eq_emod_of_nonneg (by omega)
  have sec : (v.tdiv 1000).bmod (2 ^ 32) = v / 1000 := by
    rw [quotient]
    apply Int.bmod_eq_of_le
    · omega
    · omega
  have usec : (v.tmod 1000 * 1000).bmod (2 ^ 32) = v % 1000 * 1000 := by
    rw [rest]
    apply Int.bmod_eq_of_le
    · omega
    · omega
  unfold toMs ofMs
  rw [sec, usec, Int.tdiv_eq_ediv_of_nonneg (by dsimp only; omega)]
  congr 1
  dsimp only
  omega

theorem toInt_ofInt (nonneg : 0 ≤ v) (bounded : v < 2 ^ 63) :
    (UInt64.ofInt v).toInt64.toInt = v := by
  have same : UInt64.ofInt v = UInt64.ofNat v.toNat := by
    unfold UInt64.ofInt
    congr 1
    omega
  rw [same, UInt64.toInt64_ofNat', Int64.toInt_ofNat_of_lt (by omega)]
  omega

end Timeval

/-- The timeout of a direction, as an option of the socket. -/
def Direction.timeo : Direction → Int32
  | .read => SO_RCVTIMEO
  | .write => SO_SNDTIMEO

/-! ## The timers that a call arms -/

namespace World

variable {call : IoCall} {w w' : World} {a : IoAct} {as : List IoAct} {ms : UInt64}

/-- The timeouts with which a run of a call arms its timer. -/
def timersArmed (call : IoCall) : World → List IoAct → List UInt64
  | _, [] => []
  | w, a :: as => match w.step call a with
    | some w' =>
      match a with
      | .arm _ => w.toMs :: timersArmed call w' as
      | _ => timersArmed call w' as
    | none => []

theorem enter_not_mem_next (pc : IoPc) : IoPc.enter ∉ pc.next := by
  cases pc <;> decide

/-- Past its head, a call keeps the timeout it has read. -/
theorem toMs_ioStep (inside : w.pc ≠ .enter) (edge : w.ioStep call a = some w') :
    w'.toMs = w.toMs ∧ w'.pc ≠ .enter := by
  refine ⟨?_, fun back => enter_not_mem_next w.pc (back ▸ pc_ioStep edge)⟩
  cases a with
  | enter => exact absurd (Option.ite_none_right_eq_some.mp edge).1 inside
  | syscall r =>
    have edge : w.syscall r = some w' := edge
    unfold syscall at edge
    cases pc : w.pc <;> rw [pc] at edge <;> dsimp only at edge
    case direct =>
      cases edge
      rfl
    case firstCall =>
      split at edge
      · cases edge
        rfl
      · split at edge
        · cases edge
          rfl
        · cases edge
          rfl
    case retry =>
      cases edge
      rfl
    all_goals cases edge
  | loopHead =>
    obtain ⟨-, edge⟩ := Option.ite_none_right_eq_some.mp edge
    cases edge
    unfold loopHead
    split
    · rfl
    · rfl
  | arm now | register alloc refuse | wake | cleanup refuse | cancelTimer =>
    obtain ⟨-, edge⟩ := Option.ite_none_right_eq_some.mp edge
    cases edge
    rfl
  | _ => cases edge

/-- The call is one that goes to the system as it is, or it is over. -/
def Passed (w : World) : Prop := w.pc = .direct ∨ w.pc = .returned

theorem passed_ioStep (passed : Passed w) (edge : w.ioStep call a = some w') :
    Passed w' ∧ ∀ now, a ≠ .arm now := by
  have at_pc : ∀ pc, pc ≠ .direct → pc ≠ .returned → w.pc ≠ pc := by
    intro pc apart apart' here
    rcases passed with direct | returned
    · exact apart (here.symm.trans direct)
    · exact apart' (here.symm.trans returned)
  cases a with
  | syscall r =>
    refine ⟨?_, nofun⟩
    have edge : w.syscall r = some w' := edge
    unfold syscall at edge
    rcases passed with pc | pc <;> rw [pc] at edge <;> cases edge
    exact .inr rfl
  | enter | arm now | loopHead | cleanup refuse | cancelTimer =>
    exact absurd (Option.ite_none_right_eq_some.mp edge).1 (at_pc _ nofun nofun)
  | register alloc refuse | wake =>
    exact absurd (Option.ite_none_right_eq_some.mp edge).1.1 (at_pc _ nofun nofun)
  | _ => cases edge

theorem inside_step (inside : w.pc ≠ .enter) (edge : w.step call a = some w') :
    w'.toMs = w.toMs ∧ w'.pc ≠ .enter := by
  rcases step_cases edge with own | around
  · exact toMs_ioStep inside own
  · have locals := (around_envStep around).locals
    have pc : w'.pc = w.pc := congrArg Locals.pc locals
    exact ⟨congrArg Locals.toMs locals, pc ▸ inside⟩

theorem passed_step (passed : Passed w) (edge : w.step call a = some w') :
    Passed w' ∧ ∀ now, a ≠ .arm now := by
  rcases step_cases edge with own | around
  · exact passed_ioStep passed own
  · have pc : w'.pc = w.pc := (around_envStep around).pc
    refine ⟨?_, ?_⟩
    · unfold Passed
      rwa [pc]
    · rintro now rfl
      cases around

/-- Every timer that a call arms gets the timeout that the call has read. -/
theorem timers_armed (inside : w.pc ≠ .enter) : ∀ ms ∈ timersArmed call w as, ms = w.toMs := by
  induction as generalizing w with
  | nil =>
    intro ms member
    cases member
  | cons a as ih =>
    intro ms member
    unfold timersArmed at member
    cases edge : w.step call a with
    | none =>
      rw [edge] at member
      cases member
    | some w' =>
      obtain ⟨same, inside'⟩ := inside_step inside edge
      rw [edge] at member
      dsimp only at member
      split at member
      · rcases List.mem_cons.mp member with here | later
        · exact here
        · exact (ih inside' ms later).trans same
      · exact (ih inside' ms member).trans same

theorem no_timers_armed (passed : Passed w) : timersArmed call w as = [] := by
  induction as generalizing w with
  | nil => rfl
  | cons a as ih =>
    unfold timersArmed
    cases edge : w.step call a with
    | none => rfl
    | some w' =>
      obtain ⟨passed', other⟩ := passed_step passed edge
      dsimp only
      split
      · rename_i now
        exact absurd rfl (other now)
      · exact ih passed'

end World

/-! ## The head of a call -/

namespace FdCtx

variable {c : FdCtx}

/-- With the hook on, `do_io` waits itself where the call would block. -/
def waits (c : FdCtx) : Bool := !c.mIsClose && c.mIsScoket && !c.mUserNonblock

theorem getTimeout_setTimeout (c : FdCtx) (d d' : Direction) (v : UInt64) :
    (c.setTimeout d.timeo v).getTimeout d'.timeo =
      if d' = d then v else c.getTimeout d'.timeo := by
  cases d <;> cases d' <;> rfl

end FdCtx

namespace World

variable {call : IoCall} {w : World} {c : FdCtx}

theorem enter_waits (call : IoCall) (hook : w.hookEnable = true) (managed : w.ctx = some c)
    (waits : c.waits = true) : w.enter call = { w with
      ctx := some (c.setTimeout call.timeoutSo 1000)
      toMs := (c.setTimeout call.timeoutSo 1000).getTimeout call.timeoutSo
      pc := .firstCall } := by
  unfold FdCtx.waits at waits
  simp only [Bool.and_eq_true, Bool.not_eq_true'] at waits
  obtain ⟨⟨opened, socket⟩, blocking⟩ := waits
  unfold enter
  rw [hook, managed]
  simp only [opened, socket, blocking, Bool.false_eq_true, Bool.not_true, Bool.or_self, if_false]

theorem enter_passes (call : IoCall) (managed : w.ctx = some c) (passes : c.waits = false) :
    Passed (w.enter call) ∧ (w.enter call).ctx = w.ctx := by
  unfold enter
  split
  · exact ⟨.inl rfl, rfl⟩
  · exact ⟨.inl rfl, rfl⟩
  · rename_i ctx _ here
    obtain rfl := Option.some.inj (here.symm.trans managed)
    split
    · exact ⟨.inr rfl, rfl⟩
    · rename_i opened
      have direct : (!ctx.mIsScoket || ctx.mUserNonblock) = true := by
        unfold FdCtx.waits at passes
        revert passes opened
        cases ctx.mIsClose <;> cases ctx.mIsScoket <;> cases ctx.mUserNonblock <;> decide
      rw [if_pos direct]
      exact ⟨.inl rfl, rfl⟩

end World

/-! ## A socket in use -/

/-- A managed socket: its context, and beside it what the user has set for each
direction, and for every timer that was armed what was set then and with which
timeout it was armed. -/
structure SocketUse where
  ctx : Option FdCtx
  last : Direction → Option Int
  armed : List (Option Int × UInt64)

/-- What the user does with the socket: `Socket::setRecvTimeout`,
`Socket::setSendTimeout`, a `setsockopt` with a timeout, and a hooked read or
write, on a descriptor `fd` in a runtime `w`, of which `as` is a run. -/
inductive SocketCall where
  | setRecvTimeout (v : Int)
  | setSendTimeout (v : Int)
  | setsockopt (d : Direction) (tv : Timeval)
  | io (d : Direction) (fd : Int32) (w : World) (as : List IoAct)

namespace SocketCall

variable {s t : SocketUse} {a : SocketCall} {as : List SocketCall} {d : Direction} {v : Int}

/-- The values in question, in milliseconds. -/
def InRange (v : Int) : Prop := 0 < v ∧ v < 2 ^ 31 * 1000

instance (v : Int) : Decidable (InRange v) := inferInstanceAs (Decidable (_ ∧ _))

/-- The value of a `timeval` as `setsockopt` takes it, to the millisecond. -/
def milliseconds (tv : Timeval) : Int := tv.tvSec * 1000 + tv.tvUsec / 1000

/-- The user has set `v`, and the context is `ctx`. -/
def set (s : SocketUse) (d : Direction) (v : Int) (ctx : Option FdCtx) : SocketUse :=
  { s with ctx := ctx, last := fun d' => if d' = d then some v else s.last d' }

/-- One call, with the hook on. -/
def step (s : SocketUse) : SocketCall → Option SocketUse
  | .setRecvTimeout v =>
    if InRange v then some (set s .read v (Socket.setRecvTimeout true v s.ctx)) else none
  | .setSendTimeout v =>
    if InRange v then some (set s .write v (Socket.setSendTimeout true v s.ctx)) else none
  | .setsockopt d tv =>
    if InRange (milliseconds tv) ∧ 0 ≤ tv.tvSec ∧ 0 ≤ tv.tvUsec ∧ tv.tvUsec < 1000000 then
      some (set s d (milliseconds tv) (Sylar.setsockopt true SOL_SOCKET d.timeo tv s.ctx))
    else none
  | .io d fd w as =>
    if w.hookEnable = true ∧ w.pc = .enter then
      let call : IoCall := ⟨fd, d, d.timeo⟩
      let w := { w with ctx := s.ctx }.enter call
      some { s with
        ctx := w.ctx
        armed := s.armed ++ (w.timersArmed call as).map fun ms => (s.last d, ms) }
    else none

/-- What `getRecvTimeout` and `getSendTimeout` answer. -/
def answer (s : SocketUse) : Direction → Int
  | .read => Socket.getRecvTimeout s.ctx
  | .write => Socket.getSendTimeout s.ctx

/-- The user's values govern: the socket answers with the last one that was set
for a direction, and -1 before there is one, and a timer was armed with the last
one, and none was before there was one. -/
structure Right (s : SocketUse) : Prop where
  answers : ∀ d, answer s d = (s.last d).getD (-1)
  armed : ∀ p ∈ s.armed, ∃ v, p.1 = some v ∧ p.2.toInt64.toInt = v

/-- A call that waits finds 1000 set for its direction. -/
def Fits (s : SocketUse) : SocketCall → Prop
  | .io d _ _ _ => ∀ c, s.ctx = some c → c.waits = true → s.last d = some 1000
  | _ => True

/-! ## The calls -/

variable {c : FdCtx}

theorem answer_eq (managed : s.ctx = some c) (d : Direction) :
    answer s d = (c.getTimeout d.timeo).toInt64.toInt := by
  cases d with
  | read =>
    show Socket.getRecvTimeout s.ctx = _
    rw [managed]
    rfl
  | write =>
    show Socket.getSendTimeout s.ctx = _
    rw [managed]
    rfl

/-- `setsockopt` with a timeout, on a managed socket. -/
theorem setsockopt_timeo (tv : Timeval) (ctx : Option FdCtx) :
    Sylar.setsockopt true SOL_SOCKET d.timeo tv ctx =
      ctx.map fun c => c.setTimeout d.timeo tv.toMs := by
  unfold Sylar.setsockopt
  rw [if_pos]
  cases d with
  | read => exact ⟨rfl, rfl, .inl rfl⟩
  | write => exact ⟨rfl, rfl, .inr rfl⟩

/-- A timeout that is set is the one answered with, and no other is touched. -/
theorem right_set (managed : s.ctx = some c) (right : Right s) (inRange : InRange v) :
    Right (set s d v (some (c.setTimeout d.timeo (UInt64.ofInt v)))) where
  answers d' := by
    obtain ⟨positive, bounded⟩ := inRange
    rw [answer_eq rfl, FdCtx.getTimeout_setTimeout]
    unfold set
    dsimp only
    by_cases same : d' = d
    · rw [if_pos same, if_pos same, Timeval.toInt_ofInt (by omega) (by omega), Option.getD_some]
    · rw [if_neg same, if_neg same, ← answer_eq managed, right.answers]
  armed := right.armed

theorem toMs_milliseconds {tv : Timeval} (usec : 0 ≤ tv.tvUsec) :
    tv.toMs = UInt64.ofInt (milliseconds tv) := by
  unfold Timeval.toMs milliseconds
  rw [Int.tdiv_eq_ediv_of_nonneg usec]

/-- A call that waits: 1000 is what its direction has from then on, and what its
timers are armed with. -/
theorem io_waits (managed : s.ctx = some c) (waits : c.waits = true) {fd : Int32} {w : World}
    {acts : List IoAct} (edge : step s (.io d fd w acts) = some t) :
    t.ctx = some (c.setTimeout d.timeo 1000) ∧ t.last = s.last ∧
      ∀ p ∈ t.armed, p ∈ s.armed ∨ p = (s.last d, 1000) := by
  obtain ⟨⟨hook, -⟩, after⟩ := Option.ite_none_right_eq_some.mp edge
  have entered := World.enter_waits ⟨fd, d, d.timeo⟩ (w := { w with ctx := s.ctx })
    hook managed waits
  obtain rfl := Option.some.inj after
  rw [entered]
  refine ⟨rfl, rfl, fun p member => ?_⟩
  rcases List.mem_append.mp member with old | new
  · exact .inl old
  · obtain ⟨ms, armed, rfl⟩ := List.mem_map.mp new
    have read := World.timers_armed (fun pc => IoPc.noConfusion pc) ms armed
    rw [read]
    dsimp only
    rw [FdCtx.getTimeout_setTimeout, if_pos rfl]
    exact .inr rfl

theorem right_io_iff (managed : s.ctx = some c) (waits : c.waits = true) (right : Right s)
    {fd : Int32} {w : World} {acts : List IoAct}
    (edge : step s (.io d fd w acts) = some t) : Right t ↔ s.last d = some 1000 := by
  obtain ⟨ctx, last, armed⟩ := io_waits managed waits edge
  have thousand : (1000 : UInt64).toInt64.toInt = 1000 := by decide
  constructor
  · intro right'
    have shown := right'.answers d
    rw [answer_eq ctx, FdCtx.getTimeout_setTimeout, if_pos rfl, thousand, last] at shown
    cases before : s.last d with
    | none =>
      rw [before] at shown
      cases shown
    | some v =>
      rw [before, Option.getD_some] at shown
      rw [shown]
  · intro set
    refine ⟨fun d' => ?_, fun p member => ?_⟩
    · rw [answer_eq ctx, FdCtx.getTimeout_setTimeout, last]
      by_cases same : d' = d
      · rw [if_pos same, same, set, thousand, Option.getD_some]
      · rw [if_neg same, ← answer_eq managed, right.answers]
    · rcases armed p member with old | rfl
      · exact right.armed p old
      · exact ⟨1000, set, thousand⟩

/-- A call that goes to the system as it is changes nothing. -/
theorem io_passes (managed : s.ctx = some c) (passes : c.waits = false) {fd : Int32} {w : World}
    {acts : List IoAct} (edge : step s (.io d fd w acts) = some t) : t = s := by
  obtain ⟨-, after⟩ := Option.ite_none_right_eq_some.mp edge
  obtain ⟨passed, ctx⟩ := World.enter_passes ⟨fd, d, d.timeo⟩
    (w := { w with ctx := s.ctx }) managed passes
  obtain rfl := Option.some.inj after
  rw [World.no_timers_armed passed, ctx, List.map_nil, List.append_nil]

/-- One call: the context stays there, and the user's values still govern if and
only if the call fits. -/
theorem step_spec (managed : ∃ c, s.ctx = some c) (edge : step s a = some t) :
    (∃ c, t.ctx = some c) ∧ (Right s → (Right t ↔ Fits s a)) := by
  obtain ⟨c, managed⟩ := managed
  have sets : ∀ d {v}, InRange v →
      t = set s d v (some (c.setTimeout d.timeo (UInt64.ofInt v))) →
      (∃ c, t.ctx = some c) ∧ (Right s → (Right t ↔ True)) := by
    intro d v inRange after
    rw [after]
    exact ⟨⟨_, rfl⟩, fun right => iff_true_intro (right_set managed right inRange)⟩
  cases a with
  | setRecvTimeout v =>
    obtain ⟨inRange, after⟩ := Option.ite_none_right_eq_some.mp edge
    refine sets .read inRange ?_
    rw [← Option.some.inj after, ← Timeval.toMs_ofMs inRange.1 inRange.2, managed]
    exact congrArg (set s .read v) (setsockopt_timeo (d := .read) (Timeval.ofMs v) (some c))
  | setSendTimeout v =>
    obtain ⟨inRange, after⟩ := Option.ite_none_right_eq_some.mp edge
    refine sets .write inRange ?_
    rw [← Option.some.inj after, ← Timeval.toMs_ofMs inRange.1 inRange.2, managed]
    exact congrArg (set s .write v) (setsockopt_timeo (d := .write) (Timeval.ofMs v) (some c))
  | setsockopt d tv =>
    obtain ⟨⟨inRange, -, usec, -⟩, after⟩ := Option.ite_none_right_eq_some.mp edge
    refine sets d inRange ?_
    rw [← Option.some.inj after, ← toMs_milliseconds usec, managed]
    exact congrArg (set s d (milliseconds tv)) (setsockopt_timeo tv (some c))
  | io d fd w acts =>
    cases waits : c.waits with
    | true =>
      obtain ⟨ctx, -, -⟩ := io_waits managed waits edge
      refine ⟨⟨_, ctx⟩, fun right => (right_io_iff managed waits right edge).trans ?_⟩
      constructor
      · intro set c' _ _
        exact set
      · intro fits
        exact fits c managed waits
    | false =>
      obtain rfl := io_passes managed waits edge
      refine ⟨⟨c, managed⟩, fun right => iff_of_true right fun c' here waits' => ?_⟩
      obtain rfl := Option.some.inj (managed.symm.trans here)
      rw [waits] at waits'
      cases waits'

/-- A managed socket for which the user has set no timeout. -/
def start (c : FdCtx) : SocketUse where
  ctx := some { c with mRecvTimeout := -1, mSendTimeout := -1 }
  last _ := none
  armed := []

theorem right_start (c : FdCtx) : Right (start c) where
  answers d := by
    have unset : (-1 : UInt64).toInt64.toInt = -1 := by decide
    cases d with
    | read => exact unset
    | write => exact unset
  armed p member := by cases member

/-- **The user's timeouts.** From a managed socket without timeouts, they govern
in every state of a run if and only if every read or write that waits itself
finds 1000 milliseconds set for its direction. -/
theorem right_iff_fits (c : FdCtx) :
    Runs.Always step Right (start c) as ↔ Runs.Along step Fits (start c) as :=
  Runs.always_iff_along (I := fun s => ∃ c, s.ctx = some c)
    (fun managed edge => (step_spec managed edge).1)
    (fun managed right edge => (step_spec managed edge).2 right) ⟨_, rfl⟩ (right_start c)

/-- A timeout of three seconds that the next read replaces by one. -/
theorem timeout_replaced : ¬ Runs.Always step Right (start World.socketCtx)
    [.setRecvTimeout 3000,
      .io .read 5 (World.init World.socketCtx (3, 4) 0) [.syscall (.fail .EAGAIN), .arm 100]] := by
  intro right
  have last := right.last rfl
  have shown : (1000 : Int) = 3000 := last.answers .read
  cases shown

end SocketCall

end Sylar
