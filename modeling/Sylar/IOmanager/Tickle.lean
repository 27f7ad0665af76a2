import Sylar.Lib.EdgePipe
import Sylar.Schedule.Model

/-!
# The pipe of `tickle`

`IOmanager::tickle` writes one byte into a pipe whose read end the constructor has
registered with `EPOLLET`, and `idle` reads one byte of it for each report, though a
report stands for all bytes written since the last. The others stay.

* `drained_step_iff`: which steps leave bytes behind.
* `drained_along_iff`: nothing is ever left exactly when at most one `tickle` comes
  between two reports that are handled.
* `bytes_left`: what stays of reports of two tickles each.
-/

namespace Sylar

open Runs EdgePipe

variable {α : Type}

/-- The scheduler with its pipe, which holds `capacity` bytes. -/
structure Notified (α : Type) where
  sched : Schedule α
  pipe : Pipe

/-- The steps: the two overloads of `schedule`, `stop()`, a section of a worker, and
of a pass of `idle` the `epoll_wait` and the handling of a report of the pipe. -/
inductive TickleStep (α : Type) where
  | schedule (cb : Option α) (threadId : Int)
  | range (cbs : List (Option α))
  | stop
  | dequeue (tid : Int)
  | complete
  | epollWait
  | read

namespace Notified

/-- `buff` has ten bytes, and `idle` asks for one. -/
def readSize : ℕ := 1

/-- `IOmanager::tickle`, `none` where the write blocks. -/
def tickle (capacity : ℕ) (p : Pipe) : Option Pipe := EdgePipe.step capacity readSize p .write

/-- The scheduler after a step, with a `tickle` where it has made one. -/
def notify (capacity : ℕ) (s : Notified α) (sched : Schedule α) : Option (Notified α) :=
  if sched.tickles = s.sched.tickles then some ⟨sched, s.pipe⟩
  else (tickle capacity s.pipe).map fun pipe => ⟨sched, pipe⟩

/-- One step. -/
def step (capacity : ℕ) (s : Notified α) : TickleStep α → Option (Notified α)
  | .schedule cb threadId =>
    if s.sched.mStopping then some s else s.notify capacity (s.sched.schedule cb threadId)
  | .range cbs => s.notify capacity (s.sched.scheduleRange cbs)
  | .stop => (tickle capacity s.pipe).map fun pipe =>
    ⟨{ s.sched with mStopping := true }, pipe⟩
  | .dequeue tid => some { s with sched := (s.sched.dequeue tid).1 }
  | .complete => some { s with sched := s.sched.complete }
  | .epollWait => (EdgePipe.step capacity readSize s.pipe .poll).map fun pipe =>
    { s with pipe := pipe }
  | .read => (EdgePipe.step capacity readSize s.pipe .handle).map fun pipe =>
    { s with pipe := pipe }

def init : Notified α := ⟨Schedule.init, EdgePipe.empty⟩

/-- A report is handled when at most one `tickle` has come since the last that was. -/
def Timely (s : Notified α) : TickleStep α → Prop
  | .read => s.pipe.since ≤ 1
  | _ => True

variable {capacity : ℕ} {s t : Notified α} {a : TickleStep α}

/-- A step leaves the pipe as it is, or does to it what its name says. -/
theorem pipe_step (edge : step capacity s a = some t) :
    (t.pipe = s.pipe ∧ Timely s a) ∨ ∃ act, EdgePipe.step capacity readSize s.pipe act =
      some t.pipe ∧ ((act = .handle → s.pipe.since ≤ readSize) ↔ Timely s a) := by
  have tickled {sched : Schedule α} (timely : Timely s a)
      (edge : (tickle capacity s.pipe).map (fun pipe => (⟨sched, pipe⟩ : Notified α)) = some t) :
      ∃ act, EdgePipe.step capacity readSize s.pipe act = some t.pipe ∧
        ((act = .handle → s.pipe.since ≤ readSize) ↔ Timely s a) := by
    obtain ⟨pipe, written, rfl⟩ := Option.map_eq_some_iff.mp edge
    exact ⟨.write, written, iff_of_true nofun timely⟩
  have notified {sched : Schedule α} (timely : Timely s a)
      (edge : s.notify capacity sched = some t) :
      (t.pipe = s.pipe ∧ Timely s a) ∨ ∃ act, EdgePipe.step capacity readSize s.pipe act =
        some t.pipe ∧ ((act = .handle → s.pipe.since ≤ readSize) ↔ Timely s a) := by
    unfold notify at edge
    split at edge
    · rw [← Option.some.inj edge]
      exact .inl ⟨rfl, timely⟩
    · exact .inr (tickled timely edge)
  cases a with
  | schedule cb threadId =>
    unfold step at edge
    dsimp only at edge
    split at edge
    · rw [← Option.some.inj edge]
      exact .inl ⟨rfl, trivial⟩
    · exact notified trivial edge
  | range cbs => exact notified trivial edge
  | stop => exact .inr (tickled trivial edge)
  | dequeue tid =>
    rw [← Option.some.inj edge]
    exact .inl ⟨rfl, trivial⟩
  | complete =>
    rw [← Option.some.inj edge]
    exact .inl ⟨rfl, trivial⟩
  | epollWait =>
    have edge : (EdgePipe.step capacity readSize s.pipe .poll).map
        (fun pipe => { s with pipe := pipe }) = some t := edge
    obtain ⟨pipe, polled, rfl⟩ := Option.map_eq_some_iff.mp edge
    exact .inr ⟨.poll, polled, iff_of_true nofun trivial⟩
  | read =>
    obtain ⟨pipe, handled, rfl⟩ := Option.map_eq_some_iff.mp edge
    exact .inr ⟨.handle, handled, forall_prop_of_true rfl⟩

theorem fresh_step (fresh : Fresh s.pipe) (edge : step capacity s a = some t) :
    Fresh t.pipe := by
  rcases pipe_step edge with ⟨same, -⟩ | ⟨act, moved, -⟩
  · rwa [same]
  · exact fresh.next moved

/-- A step leaves nothing behind exactly when it is timely. -/
theorem drained_step_iff (fresh : Fresh s.pipe) (drained : Drained capacity s.pipe)
    (edge : step capacity s a = some t) : Drained capacity t.pipe ↔ Timely s a := by
  rcases pipe_step edge with ⟨same, timely⟩ | ⟨act, moved, rule⟩
  · rw [same]
    exact iff_of_true drained timely
  · rw [← rule]
    exact EdgePipe.drained_step_iff fresh drained moved

/-- Over every run of tickles and passes of `idle`: the bytes in the pipe never exceed
the tickles since a report was handled, and a `tickle` blocks only when as many have
come as the pipe holds, if and only if every report is handled after at most one
`tickle`. -/
theorem drained_along_iff (capacity : ℕ) (as : List (TickleStep α)) :
    Always (step capacity) (fun s => Drained capacity s.pipe) init as ↔
      Along (step capacity) Timely init as := by
  have fresh : Fresh (init : Notified α).pipe := Nat.le_refl 0
  have first : Drained capacity (init : Notified α).pipe :=
    drained_iff_unread_le.mpr (Nat.le_refl 0)
  exact always_iff_along fresh_step drained_step_iff fresh first

/-! ## A run that leaves bytes -/

/-- Two tickles, and the report of both. -/
def round : List (TickleStep ℕ) :=
  [.schedule (some 0) (-1), .schedule (some 0) (-1), .epollWait, .read]

/-- A call of `schedule` with room in the pipe. -/
theorem schedule_eq {sched : Schedule α} {k since : ℕ} {edge : Bool} (cb : Option α)
    (threadId : Int) (running : sched.mStopping = false) (room : k < capacity) :
    step capacity ⟨sched, k, edge, 0, since⟩ (.schedule cb threadId) =
      some ⟨sched.schedule cb threadId, k + 1, true, 0, since + 1⟩ := by
  have more : (sched.schedule cb threadId).tickles ≠ sched.tickles := Nat.succ_ne_self _
  have written : tickle capacity ⟨k, edge, 0, since⟩ = some ⟨k + 1, true, 0, since + 1⟩ :=
    if_pos room
  unfold step notify
  dsimp only
  rw [running, if_neg Bool.false_ne_true, if_neg more, written]
  rfl

/-- A round leaves one byte more. -/
theorem exec_round {sched : Schedule ℕ} {k : ℕ} (running : sched.mStopping = false)
    (room : k + 2 ≤ capacity) :
    ∃ sched', exec (step capacity) ⟨sched, k, false, 0, 0⟩ round =
      some ⟨sched', k + 1, false, 0, 0⟩ ∧ sched'.mStopping = false := by
  let once := sched.schedule (some 0) (-1)
  let twice := once.schedule (some 0) (-1)
  have first : step capacity ⟨sched, k, false, 0, 0⟩ (.schedule (some 0) (-1)) =
      some ⟨once, k + 1, true, 0, 1⟩ := schedule_eq _ _ running (by omega)
  have second : step capacity ⟨once, k + 1, true, 0, 1⟩ (.schedule (some 0) (-1)) =
      some ⟨twice, k + 2, true, 0, 2⟩ := schedule_eq _ _ running (by omega)
  have reported : step capacity ⟨twice, k + 2, true, 0, 2⟩ .epollWait =
      some ⟨twice, k + 2, false, 1, 2⟩ := rfl
  have handled : step capacity ⟨twice, k + 2, false, 1, 2⟩ .read =
      some ⟨twice, k + 1, false, 0, 0⟩ := rfl
  refine ⟨twice, ?_, running⟩
  simp only [round, exec, first, second, reported, handled, Option.bind_some]

/-- `n` rounds leave `n` bytes. -/
theorem exec_rounds (n : ℕ) {sched : Schedule ℕ} {k : ℕ} (running : sched.mStopping = false)
    (room : k + n + 1 ≤ capacity) :
    ∃ sched', exec (step capacity) ⟨sched, k, false, 0, 0⟩ (List.replicate n round).flatten =
      some ⟨sched', k + n, false, 0, 0⟩ ∧ sched'.mStopping = false := by
  induction n generalizing sched k with
  | zero => exact ⟨sched, rfl, running⟩
  | succ n ih =>
    obtain ⟨once, reached, running⟩ := exec_round running (by omega : k + 2 ≤ capacity)
    obtain ⟨last, later, running⟩ := ih running (by omega : k + 1 + n + 1 ≤ capacity)
    refine ⟨last, ?_, running⟩
    rw [List.replicate_succ, List.flatten_cons, exec_append, reached, Option.bind_some, later,
      Nat.add_right_comm, Nat.add_assoc]

/-- After one round a byte is left, and after a thousand of them a thousand. -/
theorem bytes_left :
    (∃ s, exec (step 65536) init round = some s ∧ ¬ Drained 65536 s.pipe) ∧
      ∃ s, exec (step 65536) init (List.replicate 1000 round).flatten = some s ∧
        s.pipe.unread = 1000 ∧ s.pipe.since = 0 := by
  have running : (Schedule.init : Schedule ℕ).mStopping = false := rfl
  constructor
  · obtain ⟨sched, reached, -⟩ := exec_round running (by omega : 0 + 2 ≤ 65536)
    refine ⟨_, reached, fun drained => ?_⟩
    exact Nat.not_succ_le_zero 0 drained.unread
  · obtain ⟨sched, reached, -⟩ := exec_rounds 1000 running (by omega : 0 + 1000 + 1 ≤ 65536)
    exact ⟨_, reached, rfl, rfl⟩

end Notified

end Sylar
