import Sylar.Hook.Steps

/-!
# What a call answers

A call that has to wait is to answer with the first result that settles it, or
with `ETIMEDOUT` when its timeout has run before there is one. `do_io` stores
`ETIMEDOUT` in `tinfo` and never looks at it again: it repeats the system call
and takes that result, and waits again when it is `EAGAIN`. `EINTR` is repeated
after the first call only.

* `stage_step`: what is known at each point of the call, kept by every prompt
  step.
* `answers_of_prompt`: in a run of prompt steps the call answers as it should.
* `answers_fails`: a call that waits forever after its timeout, and one that
  answers with `EINTR`.
-/

namespace Sylar

open Epoll

namespace World

variable {call : IoCall} {w w' : World} {a : IoAct}

/-- After the return the answer is the first result that settles the call, or the
timeout when that was before it, and in no case one to be repeated. After its
timeout the call does not wait for `flag`. -/
structure Answers (w : World) : Prop where
  answer : w.pc = .returned →
    if w.timedOut = true then w.result = .fail .ETIMEDOUT else w.first = some w.result
  settles : w.pc = .returned → w.result.settles = true
  waits : w.pc = .waiting → w.flag = true → w.cancelled = false

/-- A call on a managed socket in user-blocking mode, with the hook enabled,
before it begins. -/
structure Blocking (w : World) : Prop where
  pc : w.pc = .enter
  hookEnable : w.hookEnable = true
  ctx : ∃ ctx, w.ctx = some ctx ∧
    ctx.mIsScoket = true ∧ ctx.mIsClose = false ∧ ctx.mUserNonblock = false
  first : w.first = none
  cancelled : w.cancelled = false
  timedOut : w.timedOut = false

/-! ## The condition -/

/-- The callback that a job runs. -/
def task (w : World) : Job → Option Task
  | .fn task => some task
  | .onTimer weakCond cb => onTimer w.alive weakCond cb

/-- The job is the timeout of the call, and finds `tinfo` alive and not cancelled. -/
def TimesOut (w : World) (job : Job) : Prop :=
  w.task job = some .timeout ∧ w.alive .tinfo = true ∧ w.cancelled = false

/-- The steps after which the call answers as it should. The registration is not
refused, or with the error that the test of the loop looks for: any other would be
taken for the error of the system call. The timeout, unless the call has its answer,
runs when the call is about to repeat the system call, or waits with a registration
that can be deleted. The repeated call is not interrupted, and after the timeout it
fails with `ETIMEDOUT` by itself. A refused deletion does not replace the error to be
reported. -/
def Prompt (call : IoCall) (w : World) : IoAct → Prop
  | .register _ refuse =>
    ∀ err, refusal w.io.epoll (w.io.addedOp call.fd) call.fd refuse = some err → err = .EAGAIN
  | .syscall r => w.pc = .retry →
    r ≠ .fail .EINTR ∧ (w.timedOut = true → r = .fail .ETIMEDOUT)
  | .execute i refuse => ∀ job, w.running[i]? = some (job, false) → TimesOut w job →
    w.first = none →
      w.pc = .retry ∨ (w.pc = .waiting ∧ (w.flag = true → Accepts w.io.epoll .del call.fd refuse))
  | .cleanup refuse => w.n = -1 → w.io.mEvents.lookup call.fd ≠ none →
    ∀ err, refusal w.io.epoll .del call.fd refuse = some err → err = w.errno
  | _ => True

theorem execute_eq (call : IoCall) (w : World) (refuse : Option Errno) (job : Job) :
    w.execute call refuse job = (w.task job).elim w (w.effect call refuse) := by
  cases job with
  | fn task => rfl
  | onTimer weakCond cb =>
    unfold execute task
    dsimp only
    cases onTimer w.alive weakCond cb <;> rfl

theorem execute_cases (call : IoCall) (w : World) (refuse : Option Errno) (job : Job) :
    (TimesOut w job ∧ w.execute call refuse job = w.timeout call refuse) ∨
      w.execute call refuse job = w ∨ w.execute call refuse job = { w with flag := false } := by
  rw [execute_eq]
  cases runs : w.task job with
  | none => exact .inr (.inl rfl)
  | some task =>
    cases task with
    | ready => exact .inr (.inr rfl)
    | timeout =>
      by_cases effective : w.alive .tinfo = true ∧ w.cancelled = false
      · exact .inl ⟨⟨runs, effective⟩, if_pos effective⟩
      · exact .inr (.inl (if_neg effective))
    | other k => exact .inr (.inl rfl)

/-- A step of the runtime is calm or runs the timeout. -/
theorem calm_or_timeout (edge : w.envStep call a = some w') :
    Calm call w w' ∨ ∃ i refuse job running, a = .execute i refuse ∧
      w.running[i]? = some (job, false) ∧ TimesOut w job ∧
      w' = { (w.timeout call refuse) with running := running } := by
  rcases (around_envStep edge).calm with ⟨i, refuse, rfl⟩ | calm
  · unfold envStep at edge
    dsimp only at edge
    split at edge
    · next job found =>
      obtain rfl := Option.some.inj edge
      rcases execute_cases call w refuse job with ⟨timesOut, after⟩ | after | after
      · exact .inr ⟨i, refuse, job, _, rfl, found, timesOut, by rw [after]⟩
      · rw [after]
        exact .inl (Calm.same rfl rfl rfl rfl)
      · rw [after]
        exact .inl ⟨(fun set => nomatch set), rfl, rfl, rfl⟩
    · cases edge
  · exact .inl calm

/-! ## The stages of the call -/

/-- No result settles the call yet, and the timeout has not run. -/
structure Untimed (w : World) : Prop where
  first : w.first = none
  cancelled : w.cancelled = false
  timedOut : w.timedOut = false

/-- The last result is `EAGAIN`. -/
def Again (w : World) : Prop := w.n = -1 ∧ w.errno = .EAGAIN

/-- No result settles the call yet. While the timeout has not run, the callback
waits in the context of the descriptor. -/
structure Awaiting (call : IoCall) (w : World) : Prop where
  first : w.first = none
  timedOut : w.timedOut = w.cancelled
  present : w.cancelled = false → ∃ ctx, w.io.mEvents.lookup call.fd = some ctx ∧
    (ctx.waiter call.event).mCb = some .ready

/-- The call has its answer. -/
structure Settled (w : World) : Prop where
  first : w.first = some w.result
  settles : w.result.settles = true
  timedOut : w.timedOut = true → w.result = .fail .ETIMEDOUT

/-- What holds at each point of the call. -/
def Stage (call : IoCall) (w : World) : IoPc → Prop
  | .enter => Blocking w
  | .direct => False
  | .firstCall => Untimed w ∧ w.toMs = 1000
  | .arm | .register => Untimed w ∧ Again w
  | .loopHead => Settled w ∨ (Awaiting call w ∧ Again w ∧ w.cancelled = false)
  | .waiting => Awaiting call w ∧ (w.flag = true → w.cancelled = false)
  | .retry => Awaiting call w
  | .cleanup | .cancelTimer | .returned => Settled w

theorem Stage.answers (stage : Stage call w w.pc) : Answers w := by
  constructor
  · intro returned
    rw [returned] at stage
    have settled : Settled w := stage
    split
    · next timedOut => exact settled.timedOut timedOut
    · exact settled.first
  · intro returned
    rw [returned] at stage
    have settled : Settled w := stage
    exact settled.settles
  · intro waiting
    rw [waiting] at stage
    exact stage.2

/-- An answer stays while the result and the history do. -/
theorem Settled.keep (settled : Settled w) (result : w'.result = w.result)
    (first : w'.first = w.first) (timedOut : w'.timedOut = w.timedOut) : Settled w' := by
  constructor
  · rw [first, result]
    exact settled.first
  · rw [result]
    exact settled.settles
  · rw [timedOut, result]
    exact settled.timedOut

/-- An answer is none of the errors that the call goes on after. -/
theorem Settled.not_fail (settled : Settled w) {e : Errno}
    (unsettled : (IoResult.fail e).settles = false) : ¬ (w.n = -1 ∧ w.errno = e) := by
  intro ⟨n, errno⟩
  have settles := settled.settles
  unfold result at settles
  rw [if_pos n, errno, unsettled] at settles
  cases settles

theorem Settled.not_again (settled : Settled w) : ¬ (w.n = -1 ∧ w.errno = .EAGAIN) :=
  settled.not_fail rfl

theorem Settled.not_interrupted (settled : Settled w) : ¬ (w.n = -1 ∧ w.errno = .EINTR) :=
  settled.not_fail rfl

theorem result_record (r : IoResult) : (w.record r).result = r := by
  unfold record result
  cases r with
  | done n =>
    have other : (n : Int) ≠ -1 := by omega
    simp only [other, if_false, Int.toNat_natCast]
  | fail e => rfl

/-- A result that settles a call without an answer is its answer. -/
theorem settled_record {r : IoResult} (first : w.first = none) (settles : r.settles = true)
    (timedOut : w.timedOut = true → r = .fail .ETIMEDOUT) : Settled (w.record r) := by
  constructor
  · rw [result_record]
    unfold record
    dsimp only
    rw [if_pos settles, first, Option.none_or]
  · rw [result_record]
    exact settles
  · rw [result_record]
    exact timedOut

/-! ## The steps of the call -/

theorem first_record {r : IoResult} (first : w.first = none) (repeats : r.settles = false) :
    (w.record r).first = none := by
  unfold record
  dsimp only
  rw [if_neg (by rw [repeats]; exact Bool.false_ne_true), first]

theorem stage_enter (start : Blocking w) : Stage call (w.enter call) (w.enter call).pc := by
  obtain ⟨ctx, managed, socket, opened, blocking⟩ := start.ctx
  have after : w.enter call = { w with
      ctx := some (ctx.setTimeout call.timeoutSo 1000)
      toMs := (ctx.setTimeout call.timeoutSo 1000).getTimeout call.timeoutSo
      pc := .firstCall } := by
    unfold enter
    rw [start.hookEnable, managed]
    simp only [opened, socket, blocking, Bool.false_eq_true, Bool.not_true, Bool.or_self, if_false]
  rw [after]
  refine ⟨⟨start.first, start.cancelled, start.timedOut⟩, ?_⟩
  show (ctx.setTimeout call.timeoutSo 1000).getTimeout call.timeoutSo = 1000
  unfold FdCtx.setTimeout FdCtx.getTimeout
  split <;> rfl

theorem stage_firstCall {r : IoResult} (pc : w.pc = .firstCall) (stage : Stage call w w.pc)
    (edge : w.syscall r = some w') : Stage call w' w'.pc := by
  rw [pc] at stage
  obtain ⟨untimed, toMs⟩ : Untimed w ∧ w.toMs = 1000 := stage
  have armed : w.toMs ≠ -1 := by
    rw [toMs]
    decide
  have never : w.timedOut = true → r = .fail .ETIMEDOUT := by
    rw [untimed.timedOut]
    exact fun timedOut => nomatch timedOut
  unfold syscall at edge
  rw [pc] at edge
  dsimp only at edge
  by_cases interrupted : r = .fail .EINTR
  · subst interrupted
    rw [if_pos ⟨rfl, rfl⟩] at edge
    obtain rfl := Option.some.inj edge
    have here : (w.record (.fail .EINTR)).pc = .firstCall := pc
    rw [here]
    exact ⟨⟨first_record untimed.first rfl, untimed.cancelled, untimed.timedOut⟩, toMs⟩
  by_cases again : r = .fail .EAGAIN
  · subst again
    rw [if_neg (fun both => nomatch both.2), if_pos ⟨rfl, rfl⟩, if_pos armed] at edge
    obtain rfl := Option.some.inj edge
    have first : (w.record (.fail .EAGAIN)).first = none := first_record untimed.first rfl
    exact ⟨⟨first, untimed.cancelled, untimed.timedOut⟩, rfl, rfl⟩
  have settles : r.settles = true := by
    unfold IoResult.settles
    split
    · exact absurd rfl again
    · exact absurd rfl interrupted
    · rfl
  have settled := settled_record untimed.first settles never
  rw [if_neg settled.not_interrupted, if_neg settled.not_again] at edge
  obtain rfl := Option.some.inj edge
  exact settled.keep rfl rfl rfl

theorem stage_retry {r : IoResult} (pc : w.pc = .retry) (stage : Stage call w w.pc)
    (prompt : Prompt call w (.syscall r)) (edge : w.syscall r = some w') :
    Stage call w' w'.pc := by
  rw [pc] at stage
  have awaiting : Awaiting call w := stage
  obtain ⟨uninterrupted, timely⟩ := prompt pc
  unfold syscall at edge
  rw [pc] at edge
  obtain rfl := Option.some.inj edge
  by_cases again : r = .fail .EAGAIN
  · subst again
    have untimed : w.timedOut = false := by
      cases timedOut : w.timedOut with
      | false => rfl
      | true => exact nomatch timely timedOut
    have running : w.cancelled = false := awaiting.timedOut ▸ untimed
    have first : (w.record (.fail .EAGAIN)).first = none := first_record awaiting.first rfl
    exact .inr ⟨⟨first, awaiting.timedOut, awaiting.present⟩, ⟨rfl, rfl⟩, running⟩
  · have settles : r.settles = true := by
      unfold IoResult.settles
      split
      · exact absurd rfl again
      · exact absurd rfl uninterrupted
      · rfl
    exact .inl ((settled_record awaiting.first settles timely).keep rfl rfl rfl)

theorem stage_register {alloc : BitVec 64} {refuse : Option Errno} (untimed : Untimed w)
    (again : Again w) (prompt : Prompt call w (.register alloc refuse)) :
    Stage call (w.register call alloc refuse) (w.register call alloc refuse).pc := by
  have errno : (w.register call alloc refuse).errno = .EAGAIN := by
    have left := w.io.errno_addEvent call.fd (some .ready) call.event.event_ne_none false alloc
      refuse
    show (w.io.addEvent call.fd (some .ready) call.event.event false alloc
      refuse).2.errno.getD w.errno = _
    rw [left, again.2]
    cases refused : refusal w.io.epoll (w.io.addedOp call.fd) call.fd refuse with
    | none => rfl
    | some err => exact prompt err refused
  have same : (w.register call alloc refuse).timedOut = (w.register call alloc refuse).cancelled :=
    untimed.timedOut.trans untimed.cancelled.symm
  exact .inr ⟨⟨untimed.first, same, fun _ => lookup_register call w alloc refuse⟩, ⟨again.1, errno⟩,
    untimed.cancelled⟩

theorem stage_loopHead (stage : Stage call w .loopHead) :
    Stage call w.loopHead w.loopHead.pc := by
  unfold loopHead
  rcases stage with settled | ⟨awaiting, again, running⟩
  · rw [if_neg settled.not_again]
    exact settled.keep rfl rfl rfl
  · have again : w.n = -1 ∧ w.errno = .EAGAIN := again
    rw [if_pos again]
    exact ⟨⟨awaiting.first, awaiting.timedOut, awaiting.present⟩, fun _ => running⟩

/-- The deletion does not replace the error that the call reports. -/
theorem settled_cleanup {refuse : Option Errno} (settled : Settled w)
    (prompt : Prompt call w (.cleanup refuse)) : Settled (w.cleanup call refuse) := by
  refine settled.keep ?_ rfl rfl
  have value : (w.cleanup call refuse).n = w.n := rfl
  have left : (w.cleanup call refuse).errno =
      (w.io.delEvent call.fd call.event.event false refuse).2.errno.getD w.errno := rfl
  unfold result
  rw [value, left]
  split
  · next failed =>
    cases found : w.io.mEvents.lookup call.fd with
    | none => rw [w.io.delEvent_absent found, Option.getD_none]
    | some ctx =>
      rw [w.io.errno_delEvent found]
      cases refused : refusal w.io.epoll .del call.fd refuse with
      | none => rw [Option.getD_none]
      | some err =>
        have present : w.io.mEvents.lookup call.fd ≠ none := by
          rw [found]
          exact Option.some_ne_none ctx
        rw [Option.getD_some, prompt failed present err refused]
  · rfl

/-! ## The steps of the runtime -/

theorem Settled.calm (settled : Settled w) (locals : w'.locals = w.locals)
    (calm : Calm call w w') : Settled w' := by
  have n : w'.n = w.n := congrArg Locals.n locals
  have errno : w'.errno = w.errno := congrArg Locals.errno locals
  have result : w'.result = w.result := by
    unfold result
    rw [n, errno]
  exact settled.keep result (congrArg Locals.first locals) calm.timedOut

theorem Awaiting.calm (awaiting : Awaiting call w) (locals : w'.locals = w.locals)
    (calm : Calm call w w') : Awaiting call w' := by
  have first : w'.first = w.first := congrArg Locals.first locals
  constructor
  · rw [first]
    exact awaiting.first
  · rw [calm.timedOut, calm.cancelled]
    exact awaiting.timedOut
  · rw [calm.cancelled, calm.own]
    exact awaiting.present

theorem Untimed.calm (untimed : Untimed w) (locals : w'.locals = w.locals)
    (calm : Calm call w w') : Untimed w' where
  first := (congrArg Locals.first locals).trans untimed.first
  cancelled := calm.cancelled.trans untimed.cancelled
  timedOut := calm.timedOut.trans untimed.timedOut

theorem Again.calm (again : Again w) (locals : w'.locals = w.locals) : Again w' :=
  ⟨(congrArg Locals.n locals).trans again.1, (congrArg Locals.errno locals).trans again.2⟩

/-- A calm step keeps the stage. -/
theorem stage_calm (stage : Stage call w w.pc) (locals : w'.locals = w.locals)
    (calm : Calm call w w') : Stage call w' w'.pc := by
  have same : w'.pc = w.pc := congrArg Locals.pc locals
  rw [same]
  cases pc : w.pc <;> rw [pc] at stage same
  case enter =>
    have start : Blocking w := stage
    have untimed : Untimed w := ⟨start.first, start.cancelled, start.timedOut⟩
    have later := untimed.calm locals calm
    have ctx : w'.ctx = w.ctx := congrArg Locals.ctx locals
    exact ⟨same, (congrArg Locals.hookEnable locals).trans start.hookEnable, ctx ▸ start.ctx,
      later.first, later.cancelled, later.timedOut⟩
  case direct => exact stage
  case firstCall =>
    exact ⟨stage.1.calm locals calm, (congrArg Locals.toMs locals).trans stage.2⟩
  case arm => exact ⟨stage.1.calm locals calm, stage.2.calm locals⟩
  case register => exact ⟨stage.1.calm locals calm, stage.2.calm locals⟩
  case loopHead =>
    rcases stage with settled | ⟨awaiting, again, running⟩
    · exact .inl (settled.calm locals calm)
    · exact .inr ⟨awaiting.calm locals calm, again.calm locals, calm.cancelled.trans running⟩
  case waiting =>
    refine ⟨stage.1.calm locals calm, fun set => ?_⟩
    rw [calm.cancelled]
    exact stage.2 (calm.flag set)
  case retry => exact Awaiting.calm stage locals calm
  case cleanup => exact Settled.calm stage locals calm
  case cancelTimer => exact Settled.calm stage locals calm
  case returned => exact Settled.calm stage locals calm

/-- The timeout changes nothing for a call that has its answer. -/
theorem Settled.timeout {refuse : Option Errno} (settled : Settled w) :
    Settled (w.timeout call refuse) := by
  refine settled.keep rfl rfl ?_
  show (w.timedOut || w.first.isNone) = w.timedOut
  rw [settled.first, Option.isNone_some, Bool.or_false]

theorem Awaiting.timeout {refuse : Option Errno} (awaiting : Awaiting call w) :
    Awaiting call (w.timeout call refuse) := by
  refine ⟨awaiting.first, ?_, fun running => nomatch running⟩
  show (w.timedOut || w.first.isNone) = true
  rw [awaiting.first, Option.isNone_none, Bool.or_true]

/-- While the registration can be deleted, the timeout clears `flag`. -/
theorem flag_timeout {refuse : Option Errno} (awaiting : Awaiting call w)
    (running : w.cancelled = false) (accepted : Accepts w.io.epoll .del call.fd refuse) :
    (w.timeout call refuse).flag = false := by
  obtain ⟨ctx, found, stored⟩ := awaiting.present running
  unfold World.timeout
  rw [w.io.delEvent_activated found accepted stored]
  dsimp only
  rw [if_pos rfl]

theorem stage_timeout {refuse : Option Errno} {job : Job} (stage : Stage call w w.pc)
    (timesOut : TimesOut w job)
    (timely : w.first = none → w.pc = .retry ∨
      (w.pc = .waiting ∧ (w.flag = true → Accepts w.io.epoll .del call.fd refuse))) :
    Stage call (w.timeout call refuse) (w.timeout call refuse).pc := by
  have same : (w.timeout call refuse).pc = w.pc := rfl
  have early : w.pc ≠ .retry → w.pc ≠ .waiting → w.first ≠ none := by
    intro retry waiting first
    rcases timely first with here | ⟨here, -⟩
    · exact retry here
    · exact waiting here
  rw [same]
  cases pc : w.pc <;> rw [pc] at stage timely early
  case enter =>
    have dead := timesOut.2.1
    unfold alive at dead
    rw [pc] at dead
    cases dead
  case direct => exact stage
  case firstCall => exact absurd stage.1.first (early (fun h => nomatch h) (fun h => nomatch h))
  case arm => exact absurd stage.1.first (early (fun h => nomatch h) (fun h => nomatch h))
  case register => exact absurd stage.1.first (early (fun h => nomatch h) (fun h => nomatch h))
  case loopHead =>
    rcases stage with settled | ⟨awaiting, -, -⟩
    · exact .inl settled.timeout
    · exact absurd awaiting.first (early (fun h => nomatch h) (fun h => nomatch h))
  case waiting =>
    obtain ⟨awaiting, -⟩ := stage
    refine ⟨awaiting.timeout, fun set => ?_⟩
    rcases timely awaiting.first with here | ⟨-, deletable⟩
    · cases here
    · cases flag : w.flag with
      | true =>
        rw [flag_timeout awaiting timesOut.2.2 (deletable flag)] at set
        cases set
      | false =>
        have kept : (w.timeout call refuse).flag = false := by
          show (if _ then false else w.flag) = false
          rw [flag, ite_self]
        rw [kept] at set
        cases set
  case retry => exact Awaiting.timeout stage
  case cleanup => exact Settled.timeout stage
  case cancelTimer => exact Settled.timeout stage
  case returned => exact Settled.timeout stage

/-! ## Runs -/

/-- Every prompt step keeps the stage. -/
theorem stage_step (stage : Stage call w w.pc) (prompt : Prompt call w a)
    (edge : w.step call a = some w') : Stage call w' w'.pc := by
  rcases step_cases edge with own | around
  · cases a with
    | syscall r =>
      cases pc : w.pc with
      | firstCall => exact stage_firstCall pc stage own
      | retry => exact stage_retry pc stage prompt own
      | direct =>
        rw [pc] at stage
        exact stage.elim
      | _ => simp only [ioStep, syscall, pc, reduceCtorEq] at own
    | enter =>
      obtain ⟨pc, after⟩ := Option.ite_none_right_eq_some.mp own
      obtain rfl := Option.some.inj after
      rw [pc] at stage
      exact stage_enter stage
    | arm now =>
      obtain ⟨pc, after⟩ := Option.ite_none_right_eq_some.mp own
      obtain rfl := Option.some.inj after
      rw [pc] at stage
      obtain ⟨untimed, again⟩ := stage
      exact ⟨⟨untimed.first, untimed.cancelled, untimed.timedOut⟩, again⟩
    | register alloc refuse =>
      obtain ⟨⟨pc, -⟩, after⟩ := Option.ite_none_right_eq_some.mp own
      obtain rfl := Option.some.inj after
      rw [pc] at stage
      exact stage_register stage.1 stage.2 prompt
    | loopHead =>
      obtain ⟨pc, after⟩ := Option.ite_none_right_eq_some.mp own
      obtain rfl := Option.some.inj after
      rw [pc] at stage
      exact stage_loopHead stage
    | wake =>
      obtain ⟨⟨pc, -⟩, after⟩ := Option.ite_none_right_eq_some.mp own
      obtain rfl := Option.some.inj after
      rw [pc] at stage
      obtain ⟨awaiting, -⟩ := stage
      exact ⟨awaiting.first, awaiting.timedOut, awaiting.present⟩
    | cleanup refuse =>
      obtain ⟨pc, after⟩ := Option.ite_none_right_eq_some.mp own
      obtain rfl := Option.some.inj after
      rw [pc] at stage
      have settled := settled_cleanup stage prompt
      rcases pc_cleanup call w refuse with pc | pc
      · rw [pc]
        exact settled
      · rw [pc]
        exact settled
    | cancelTimer =>
      obtain ⟨pc, after⟩ := Option.ite_none_right_eq_some.mp own
      obtain rfl := Option.some.inj after
      rw [pc] at stage
      exact Settled.keep stage rfl rfl rfl
    | _ => cases own
  · have locals := (around_envStep around).locals
    rcases calm_or_timeout around with calm | ⟨i, refuse, job, running, rfl, found, timesOut, rfl⟩
    · exact stage_calm stage locals calm
    · have timeout := stage_timeout stage timesOut (prompt job found timesOut)
      exact stage_calm timeout rfl (Calm.same rfl rfl rfl rfl)

/-- In a run of prompt steps, whatever the system calls return and in whatever
order the callbacks run, the call answers as it should in every state. -/
theorem answers_of_prompt (call : IoCall) (start : Blocking w) (acts : List IoAct)
    (prompt : Runs.Along (step call) (Prompt call) w acts) :
    Runs.Always (step call) Answers w acts := by
  have stage : Stage call w w.pc := by
    rw [start.pc]
    exact start
  have stages : Runs.Always (step call) (fun w => Stage call w w.pc) w acts :=
    Runs.always_of_along stage_step stage prompt
  exact stages.mono fun _ => Stage.answers

theorem blocking_init (tickleFds : Int32 × Int32) (stack : BitVec 64) :
    Blocking (init socketCtx tickleFds stack) :=
  ⟨rfl, rfl, ⟨socketCtx, rfl, rfl, rfl, rfl⟩, rfl, rfl, rfl⟩

theorem answers_of_prompt_once :
    (∃ w, Runs.exec (step readCall) (init socketCtx (3, 4) 0)
        (waitOnce (.done 1) ++ [.cleanup none]) = some w ∧
        w.pc = .returned ∧ w.result = .done 1) ∧
      Runs.Always (step readCall) Answers (init socketCtx (3, 4) 0)
        (waitOnce (.done 1) ++ [.cleanup none]) := by
  refine ⟨⟨_, rfl, rfl, rfl⟩, ?_⟩
  apply answers_of_prompt readCall (blocking_init _ _)
  -- conditions stand on the system calls, the registration, the job run and the deletion
  apply Runs.along_cons trivial rfl
  apply Runs.along_cons (fun pc => nomatch pc) rfl
  apply Runs.along_cons trivial rfl
  apply Runs.along_cons (fun err refused => nomatch refused) rfl
  iterate 5 apply Runs.along_cons trivial rfl
  refine Runs.along_cons ?_ rfl ?_
  · intro job found timesOut
    have runs : some (TimerFn.fn Task.ready, false) = some (job, false) := found
    cases runs
    have other : some Task.ready = some Task.timeout := timesOut.1
    cases other
  iterate 2 apply Runs.along_cons trivial rfl
  refine Runs.along_cons ?_ rfl ?_
  · exact fun _ => ⟨(fun same => nomatch same), (fun timedOut => nomatch timedOut)⟩
  apply Runs.along_cons trivial rfl
  exact Runs.along_cons (fun failed => nomatch failed) rfl trivial

/-- After the timeout the system call is repeated, and the call waits again or
answers with what it finds; and a repeated call that is interrupted ends it. -/
theorem answers_fails :
    (∃ w, Runs.exec (step readCall) (init socketCtx (3, 4) 0)
        (waitTimeout (.fail .EAGAIN)) = some w ∧ w.timedOut = true ∧ ¬ Answers w) ∧
      ∃ w, Runs.exec (step readCall) (init socketCtx (3, 4) 0)
        (waitOnce (.fail .EINTR) ++ [.cleanup none, .cancelTimer]) = some w ∧
        w.result = .fail .EINTR ∧ ¬ Answers w := by
  refine ⟨⟨_, rfl, rfl, fun answers => ?_⟩, ⟨_, rfl, rfl, fun answers => ?_⟩⟩
  · cases answers.waits rfl rfl
  · cases answers.settles rfl

end World

end Sylar
