import Sylar.Hook.Answers
import Sylar.Hook.Residue

/-!
# A readiness that is lost

The readiness callback clears `flag`, and `do_io` sets it at the head of its loop,
after the registration has opened the way to the callback. The descriptor is
edge-triggered: a callback that has run before `flag = true` is not repeated, and
the call waits for one that does not come.

* `heard_step_iff`: which steps lead to a call that waits, or is about to, although
  the callback has run.
* `heard_along_iff`: the interleavings without one are those in which no worker runs
  the callback while the call is at the head of its loop with `EAGAIN`.
-/

namespace Sylar

open Runs Epoll

namespace World

variable {call : IoCall} {w w' : World} {refuse : Option Errno} {job : Job}

/-- A job runs the readiness callback: it is the callback, or the timeout, whose
`delEvent` calls it. -/
def Readies (call : IoCall) (w : World) (refuse : Option Errno) (job : Job) : Prop :=
  w.task job = some .ready ∨ (TimesOut w job ∧
    (w.io.delEvent call.fd call.event.event true refuse).2.called = some .ready)

instance : Decidable (TimesOut w job) := inferInstanceAs (Decidable (_ ∧ _ ∧ _))

instance : Decidable (Readies call w refuse job) := inferInstanceAs (Decidable (_ ∨ _))

end World

/-- A call in its runtime, with whether its readiness callback has run after the last
`EAGAIN`. -/
structure Watched where
  world : World
  ran : Bool

namespace Watched

open World

variable {call : IoCall} {s t : Watched} {a : IoAct}

/-- A step runs the readiness callback. -/
def hears (call : IoCall) (w : World) : IoAct → Bool
  | .execute i refuse => match w.running[i]? with
    | some (job, false) => decide (Readies call w refuse job)
    | _ => false
  | _ => false

/-- Whether the callback has run after the last `EAGAIN`, after a step. -/
def ranAfter (call : IoCall) (s : Watched) : IoAct → Bool
  | .syscall r => s.ran && r ≠ .fail .EAGAIN
  | a => s.ran || hears call s.world a

/-- One step, watched. -/
def step (call : IoCall) (s : Watched) (a : IoAct) : Option Watched :=
  (s.world.step call a).map fun w => ⟨w, s.ranAfter call a⟩

/-- The call waits with `flag` set although its callback has run. -/
def Lost (s : Watched) : Prop :=
  s.world.pc = .waiting ∧ s.world.flag = true ∧ s.ran = true

/-- No readiness is lost, neither here nor by the next step of the call. -/
def Heard (call : IoCall) (s : Watched) : Prop :=
  ¬ Lost s ∧ ∀ t, step call s .loopHead = some t → ¬ Lost t

/-- The call is at the head of its loop, and about to set `flag` and to wait. -/
def AtHead (w : World) : Prop := w.pc = .loopHead ∧ w.n = -1 ∧ w.errno = .EAGAIN

/-- No worker runs the callback while the call is about to set `flag`. -/
def Aside (call : IoCall) (s : Watched) (a : IoAct) : Prop :=
  AtHead s.world → hears call s.world a = false

/-! ## What a step does -/

theorem step_eq_some : step call s a = some t ↔
    s.world.step call a = some t.world ∧ t.ran = s.ranAfter call a := by
  unfold step
  rw [Option.map_eq_some_iff]
  constructor
  · rintro ⟨w, edge, rfl⟩
    exact ⟨edge, rfl⟩
  · rintro ⟨edge, ran⟩
    refine ⟨t.world, edge, ?_⟩
    rw [← ran]

theorem ranAfter_of_quiet (before : s.ran = false) (quiet : hears call s.world a = false) :
    s.ranAfter call a = false := by
  cases a with
  | syscall r =>
    show (s.ran && _) = false
    rw [before, Bool.false_and]
  | _ =>
    show (s.ran || hears call s.world _) = false
    rw [before, quiet, Bool.or_false]

theorem quiet_of_ioStep {w w' : World} (own : w.ioStep call a = some w') :
    hears call w a = false := by
  cases a with
  | execute i refuse => cases own
  | _ => rfl

theorem step_loopHead : World.step call s.world .loopHead =
    if s.world.pc = .loopHead then some s.world.loopHead else none :=
  Option.or_none

theorem heard_iff : Heard call s ↔ ¬ Lost s ∧ ¬ (AtHead s.world ∧ s.ran = true) := by
  refine and_congr_right fun _ => ?_
  constructor
  · rintro later ⟨⟨pc, failed⟩, ran⟩
    have edge : step call s .loopHead = some ⟨s.world.loopHead, s.ran⟩ := by
      rw [step_eq_some, step_loopHead, if_pos pc]
      exact ⟨rfl, (Bool.or_false _).symm⟩
    refine later _ edge ?_
    have waits : s.world.loopHead = { s.world with flag := true, pc := .waiting } := if_pos failed
    exact ⟨congrArg World.pc waits, congrArg World.flag waits, ran⟩
  · intro unheard t edge lost
    obtain ⟨moved, ran⟩ := step_eq_some.mp edge
    rw [step_loopHead] at moved
    obtain ⟨pc, after⟩ := Option.ite_none_right_eq_some.mp moved
    obtain ⟨waiting, -, heard⟩ := lost
    rw [ran, show s.ranAfter call .loopHead = s.ran from Bool.or_false _] at heard
    by_cases failed : s.world.n = -1 ∧ s.world.errno = .EAGAIN
    · exact unheard ⟨⟨pc, failed⟩, heard⟩
    · rw [← Option.some.inj after, loopHead, if_neg failed] at waiting
      cases waiting

/-- At any other point of the call nothing can be lost. -/
theorem heard_of_pc (waiting : s.world.pc ≠ .waiting) (head : s.world.pc ≠ .loopHead) :
    Heard call s :=
  heard_iff.mpr ⟨fun lost => waiting lost.1, fun both => head both.1.1⟩

/-- No job runs the callback while the call has not registered it. -/
theorem not_readies_of_early {w : World} {refuse : Option Errno} {job : Job}
    (inv : World.Inv call w) (early : w.pc.early = true) (held : Held w job) :
    ¬ Readies call w refuse job := by
  have harmless : writesFlag job = false := (inv.early early).1 job held
  rintro (direct | ⟨-, called⟩)
  · cases job with
    | fn task =>
      cases Option.some.inj direct
      cases harmless
    | onTimer weakCond cb =>
      have given : cb = some .ready := by
        unfold World.task onTimer at direct
        dsimp only at direct
        split at direct
        · exact direct
        · cases direct
      rw [given] at harmless
      cases harmless
  · rcases (inv.waits _ _ (IOmanager.waits_of_called called)).2 with registered | returned
    · cases pc : w.pc <;> rw [pc] at early registered <;> cases early <;> cases registered
    · rw [returned] at early
      cases early

theorem not_hears_of_early (inv : World.Inv call s.world) (early : s.world.pc.early = true) :
    hears call s.world a = false := by
  cases a with
  | execute i refuse =>
    unfold hears
    dsimp only
    split
    · next job found =>
      have held : Held s.world job := .inr ⟨false, List.mem_of_getElem? found⟩
      exact decide_eq_false (not_readies_of_early inv early held)
    · rfl
  | _ => rfl

/-! ## The steps of the call -/

/-- What holds in every state: before the registration the callback has not run. -/
structure Inv (call : IoCall) (s : Watched) : Prop where
  world : World.Inv call s.world
  early : s.world.pc.early = true → s.ran = false

theorem ran_record {w : World} {r : IoResult} {ran : Bool} (n : (w.record r).n = -1)
    (errno : (w.record r).errno = .EAGAIN) : (ran && r ≠ .fail .EAGAIN) = false := by
  cases r with
  | done n' =>
    have positive : (n' : Int) = -1 := n
    omega
  | fail e =>
    have again : e = .EAGAIN := errno
    rw [again]
    exact Bool.and_false ran

/-- A step of the call loses no readiness. -/
theorem heard_ioStep (inv : Inv call s) (heard : Heard call s)
    (own : s.world.ioStep call a = some t.world) (ran : t.ran = s.ranAfter call a) :
    Heard call t := by
  have away {pc : IoPc} (here : s.world.pc = pc) (waiting : IoPc.waiting ∉ pc.next)
      (head : IoPc.loopHead ∉ pc.next) : Heard call t := by
    have next : t.world.pc ∈ pc.next := here ▸ pc_ioStep own
    exact heard_of_pc (fun there => waiting (there ▸ next)) (fun there => head (there ▸ next))
  cases a with
  | syscall r =>
    have own : s.world.syscall r = some t.world := own
    unfold syscall at own
    cases here : s.world.pc <;> rw [here] at own <;> dsimp only at own
    case direct => exact away here (by decide) (by decide)
    case firstCall => exact away here (by decide) (by decide)
    case retry =>
      have after : t.world = { s.world.record r with pc := .loopHead } :=
        (Option.some.inj own).symm
      refine heard_iff.mpr ⟨fun lost => ?_, fun both => ?_⟩
      · have waiting := lost.1
        rw [after] at waiting
        cases waiting
      · obtain ⟨⟨-, failed⟩, heard⟩ := both
        rw [after] at failed
        have quiet : (s.ran && r ≠ .fail .EAGAIN) = false :=
          ran_record (w := s.world) failed.1 failed.2
        rw [ran, ranAfter, quiet] at heard
        cases heard
    all_goals cases own
  | register alloc refuse =>
    obtain ⟨⟨here, -⟩, after⟩ := Option.ite_none_right_eq_some.mp own
    have pc : t.world.pc = .loopHead := congrArg World.pc (Option.some.inj after).symm
    refine heard_iff.mpr ⟨fun lost => ?_, fun both => ?_⟩
    · have waiting := lost.1
      rw [pc] at waiting
      cases waiting
    · have before : s.ran = false := inv.early (by rw [here]; rfl)
      have heard := both.2
      rw [ran, ranAfter_of_quiet before rfl] at heard
      cases heard
  | loopHead =>
    have edge : step call s .loopHead = some t := by
      refine step_eq_some.mpr ⟨?_, ran⟩
      rw [step_loopHead]
      exact own
    obtain ⟨-, after⟩ := Option.ite_none_right_eq_some.mp own
    refine heard_iff.mpr ⟨heard.2 t edge, fun both => ?_⟩
    have head := both.1.1
    rw [← Option.some.inj after] at head
    unfold loopHead at head
    split at head
    · cases head
    · cases head
  | enter | arm now | cleanup refuse | cancelTimer =>
    exact away (Option.ite_none_right_eq_some.mp own).1 (by decide) (by decide)
  | wake =>
    exact away (Option.ite_none_right_eq_some.mp own).1.1 (by decide) (by decide)
  | _ => cases own

/-! ## The steps of the runtime -/

theorem flag_execute (call : IoCall) (w : World) (refuse : Option Errno) (job : Job) :
    (w.execute call refuse job).flag = if Readies call w refuse job then false else w.flag := by
  have silent (quiet : ¬ Readies call w refuse job) :
      w.flag = if Readies call w refuse job then false else w.flag := (if_neg quiet).symm
  rw [execute_eq]
  cases runs : w.task job with
  | none =>
    exact silent fun readies => by
      rcases readies with direct | ⟨⟨timeout, -⟩, -⟩
      · cases runs.symm.trans direct
      · cases runs.symm.trans timeout
  | some task =>
    cases task with
    | ready => exact (if_pos (.inl runs)).symm
    | timeout =>
      have rule : Readies call w refuse job ↔ (w.alive .tinfo = true ∧ w.cancelled = false) ∧
          (w.io.delEvent call.fd call.event.event true refuse).2.called = some .ready := by
        constructor
        · rintro (direct | ⟨⟨-, effective⟩, called⟩)
          · cases runs.symm.trans direct
          · exact ⟨effective, called⟩
        · rintro ⟨effective, called⟩
          exact .inr ⟨⟨runs, effective⟩, called⟩
      show (if w.alive .tinfo ∧ w.cancelled = false then w.timeout call refuse else w).flag = _
      by_cases effective : w.alive .tinfo = true ∧ w.cancelled = false
      · rw [if_pos effective, if_congr (rule.trans (and_iff_right effective)) rfl rfl]
        rfl
      · rw [if_neg effective]
        exact silent fun readies => effective (rule.mp readies).1
    | other k =>
      exact silent fun readies => by
        rcases readies with direct | ⟨⟨timeout, -⟩, -⟩
        · cases runs.symm.trans direct
        · cases runs.symm.trans timeout

/-- A job that leaves `flag` set is not the callback. -/
theorem flag_execute_step {w w' : World} {i : ℕ} {refuse : Option Errno}
    (edge : w.envStep call (.execute i refuse) = some w') (set : w'.flag = true) :
    w.flag = true ∧ hears call w (.execute i refuse) = false := by
  unfold envStep at edge
  dsimp only at edge
  split at edge
  · next job found =>
    rw [← Option.some.inj edge] at set
    have set : (w.execute call refuse job).flag = true := set
    rw [flag_execute] at set
    split at set
    · cases set
    · next quiet =>
      refine ⟨set, ?_⟩
      unfold hears
      dsimp only
      rw [found]
      exact decide_eq_false quiet
  · cases edge

/-- A step of the runtime sets `flag` in no case, and clears it when it runs the
callback. -/
theorem flag_envStep {w w' : World} (edge : w.envStep call a = some w') (set : w'.flag = true) :
    w.flag = true ∧ hears call w a = false := by
  rcases (around_envStep edge).calm with ⟨i, refuse, rfl⟩ | calm
  · exact flag_execute_step edge set
  · refine ⟨calm.flag set, ?_⟩
    cases a with
    | execute i refuse => exact (flag_execute_step edge set).2
    | _ => rfl

theorem ranAfter_around (edge : s.world.envStep call a = some t.world) :
    s.ranAfter call a = (s.ran || hears call s.world a) := by
  cases a with
  | syscall r => cases edge
  | _ => rfl

/-- A step of the runtime loses a readiness exactly when it runs the callback while the
call is about to set `flag`. -/
theorem heard_around (heard : Heard call s) (edge : s.world.envStep call a = some t.world)
    (ran : t.ran = s.ranAfter call a) : Heard call t ↔ Aside call s a := by
  have env := around_envStep edge
  have head : AtHead t.world ↔ AtHead s.world := by
    unfold AtHead
    rw [env.pc, show t.world.n = s.world.n from congrArg Locals.n env.locals,
      show t.world.errno = s.world.errno from congrArg Locals.errno env.locals]
  obtain ⟨kept, unheard⟩ := heard_iff.mp heard
  have waits : ¬ Lost t := by
    rintro ⟨waiting, set, heard⟩
    obtain ⟨before, quiet⟩ := flag_envStep edge set
    rw [ran, ranAfter_around edge, quiet, Bool.or_false] at heard
    exact kept ⟨env.pc.symm.trans waiting, before, heard⟩
  rw [heard_iff, and_iff_right waits, head, ran, ranAfter_around edge, Aside, not_and]
  refine forall_congr' fun here => ?_
  have before : s.ran = false := Bool.eq_false_of_not_eq_true fun ran => unheard ⟨here, ran⟩
  rw [before, Bool.false_or, Bool.not_eq_true]

/-! ## Runs -/

theorem Inv.next (inv : Inv call s) (edge : step call s a = some t) : Inv call t := by
  obtain ⟨moved, ran⟩ := step_eq_some.mp edge
  refine ⟨(step_left inv.world moved).1, fun early => ?_⟩
  rcases step_cases moved with own | around
  · rw [ran, ranAfter_of_quiet (inv.early (early_ioStep own early)) (quiet_of_ioStep own)]
  · have early : s.world.pc.early = true := (around_envStep around).pc ▸ early
    rw [ran, ranAfter_of_quiet (inv.early early) (not_hears_of_early inv.world early)]

theorem heard_step_iff (inv : Inv call s) (heard : Heard call s) (edge : step call s a = some t) :
    Heard call t ↔ Aside call s a := by
  obtain ⟨moved, ran⟩ := step_eq_some.mp edge
  rcases step_cases moved with own | around
  · exact iff_of_true (heard_ioStep inv heard own ran) fun _ => quiet_of_ioStep own
  · exact heard_around heard around ran

/-- Over every interleaving of a call with the workers: no readiness is lost in any
state, nor by the next step of the call there, if and only if no worker runs the
callback while the call is about to set `flag`. -/
theorem heard_along_iff (call : IoCall) {w : World} (fresh : Fresh w) (as : List IoAct) :
    Always (step call) (Heard call) ⟨w, false⟩ as ↔
      Along (step call) (Aside call) ⟨w, false⟩ as := by
  have inv : Inv call ⟨w, false⟩ := ⟨fresh.inv, fun _ => rfl⟩
  have first : Heard call ⟨w, false⟩ := by
    apply heard_of_pc
    · rw [fresh.pc]
      nofun
    · rw [fresh.pc]
      nofun
  exact always_iff_along Inv.next heard_step_iff inv first

/-- A call whose callback runs while it waits. -/
theorem heard_waitOnce : Always (step readCall) (Heard readCall)
    ⟨World.init socketCtx (3, 4) 0, false⟩ (waitOnce (.done 1)) := by
  apply (heard_along_iff readCall (fresh_init _ _ _) _).mpr
  -- the callback runs in the tenth step, and the call is waiting there
  iterate 9 refine along_cons (fun _ => rfl) rfl ?_
  refine along_cons (fun head => ?_) rfl ?_
  · have waiting : IoPc.waiting = .loopHead := head.1
    cases waiting
  iterate 4 refine along_cons (fun _ => rfl) rfl ?_
  trivial

/-- A worker runs the callback between the registration and `flag = true`: the call
waits with `flag` set. -/
theorem lost_at_head : ∃ s, exec (step readCall) ⟨World.init socketCtx (3, 4) 0, false⟩
    [.enter, .syscall (.fail .EAGAIN), .arm 100, .register 0x7f5500001000#64 none,
      .report 5 EPOLLIN, .test 0, .deliver 0, .dequeue 7, .execute 0 none, .loopHead] = some s ∧
    Lost s := by
  refine ⟨_, rfl, ?_⟩
  refine ⟨?_, ?_, ?_⟩
  · rfl
  · rfl
  · rfl

end Watched

end Sylar
