import Sylar.Lib.Places
import Sylar.Schedule.Labels

/-!
# A running server

`TcpServer::start` schedules one `startAccept` for each listening socket on the accept
scheduler, and each accepted client is scheduled on the io scheduler as a
`handleClient`. The loop of `startAccept` ends only when it reads `m_isStop`; `stop` sets
it and schedules a task that closes the sockets.

`Serving` is the server over the two schedulers, which may be one object. Each worker
of the accept scheduler is somewhere in the body of the task it runs. A closed
listening socket yields no client.

* `served_once`: over every interleaving, each accepted client is in one place and
  handled at most once.
* `starved`: while every worker of the accept scheduler is in the loop of a socket,
  nothing else is begun there.
* `clients_of_closed`: a server whose sockets were closed accepts no client again,
  however often it is started.
-/

namespace Sylar

/-- What the server schedules, or somebody else: `startAccept` on a listening socket, the
task of `stop()`, `handleClient` on a client. -/
inductive ServerTask where
  | accepts (sock : ℕ)
  | closes
  | handles (client : ℕ)
  | other (k : ℕ)

namespace ServerTask

/-- The client a task is for. -/
def client : ServerTask → Option ℕ
  | .handles c => some c
  | _ => none

/-- The socket whose loop a task is. -/
def sock : ServerTask → Option ℕ
  | .accepts k => some k
  | _ => none

/-- The tasks that the server does not schedule. -/
def foreign : ServerTask → Bool
  | .other _ => true
  | _ => false

/-- The tasks with a body of the server's own that runs on the accept scheduler. -/
def hasBody : ServerTask → Bool
  | .accepts _ | .closes => true
  | _ => false

end ServerTask

/-- The two schedulers of a server, `m_acceptWorker` and `m_ioWorker`. -/
inductive Side where
  | accept
  | io
  deriving DecidableEq

/-- Where a worker is in the body of its task: before the test of `m_isStop`, in
`accept()`, about to schedule a client, or behind it. -/
inductive BodyPc where
  | test
  | accept
  | hands (client : ℕ)
  | done

/-- The client that a worker holds. -/
def BodyPc.client : BodyPc → Option ℕ
  | .hands c => some c
  | _ => none

def BodyPc.isDone : BodyPc → Bool
  | .done => true
  | _ => false

/-- The server and its schedulers. `pending` are the calls of `schedule` that `start()` and
`stop()` have yet to make, `bodies` the places of the workers of the accept scheduler,
`closed` the listening sockets closed, `clients` how many were accepted and `dropped` those
that the io scheduler refused. -/
structure Serving where
  mIsStop : Bool
  mSocks : List ℕ
  pending : List ServerTask
  closed : List ℕ
  scheds : Side → Workers ServerTask
  bodies : List BodyPc
  clients : ℕ
  dropped : List ℕ

/-- The steps: a section of a scheduler, `start()` and `stop()` up to their calls of
`schedule`, the `j`-th of these, and the sections of the `i`-th worker of the accept
scheduler in the body of its task. -/
inductive ServingStep where
  | sched (side : Side) (a : SchedStep ServerTask)
  | start
  | stop
  | schedule (j : ℕ)
  | closes (i : ℕ)
  | test (i : ℕ)
  | accept (i : ℕ) (client : Bool)
  | hands (i : ℕ)

namespace Serving

open Workers (taskOf taskOf_step active_of_taskOf onWay onWay_step onWay_enter Without)

/-- A server that was bound to some sockets. -/
def bound (socks : List ℕ) : Serving :=
  ⟨true, socks, [], [], fun _ => Workers.init, [], 0, []⟩

/-- Whether worker `i` of the accept scheduler is at the end of its task. -/
def bodyDone (s : Serving) (i : ℕ) : Bool :=
  match taskOf (s.scheds .accept) i, s.bodies[i]? with
  | some task, some pc => !task.hasBody || pc.isDone
  | _, _ => true

/-- What other threads and the workers do by themselves: they schedule nothing of the
server's, and a body is run to its end. -/
def free (s : Serving) (side : Side) : SchedStep ServerTask → Bool
  | .enter cb _ => cb.foreign
  | .range cbs => cbs.all ServerTask.foreign
  | .complete i => decide (side = .io) || s.bodyDone i
  | _ => true

/-- The bodies after a section of the accept scheduler: a new worker is in none, and a worker
that has looked for a task is before the body of it. -/
def bodiesAfter (bodies : List BodyPc) : SchedStep ServerTask → List BodyPc
  | .stop _ | .spawn _ => bodies ++ [.done]
  | .dequeue i => bodies.set i .test
  | _ => bodies

def setSched (s : Serving) (side : Side) (w : Workers ServerTask) : Serving :=
  { s with scheds := Function.update s.scheds side w }

/-- The head of `schedule(cb)` on a scheduler. -/
def entered (s : Serving) (side : Side) (task : ServerTask) : Serving :=
  ((s.scheds side).step (.enter task (-1))).elim s (s.setSched side)

variable (ioWorker : Side)

def step (s : Serving) : ServingStep → Option Serving
  | .sched side a =>
    if s.free side a then
      ((s.scheds side).step a).map fun w =>
        { (s.setSched side w) with
          bodies := if side = .accept then bodiesAfter s.bodies a else s.bodies }
    else none
  | .start =>
    some (if s.mIsStop then
      { s with mIsStop := false, pending := s.pending ++ s.mSocks.map .accepts }
    else s)
  | .stop => some { s with mIsStop := true, pending := s.pending ++ [.closes] }
  | .schedule j => match s.pending[j]? with
    | some task => some { (s.entered .accept task) with pending := s.pending.eraseIdx j }
    | none => none
  | .closes i => match taskOf (s.scheds .accept) i, s.bodies[i]? with
    | some .closes, some .test =>
      some { s with
        closed := s.mSocks ++ s.closed
        mSocks := []
        bodies := s.bodies.set i .done }
    | _, _ => none
  | .test i => match taskOf (s.scheds .accept) i, s.bodies[i]? with
    | some (.accepts _), some .test =>
      some { s with bodies := s.bodies.set i (if s.mIsStop then .done else .accept) }
    | _, _ => none
  | .accept i client => match taskOf (s.scheds .accept) i, s.bodies[i]? with
    | some (.accepts sock), some .accept =>
      if client then
        if sock ∈ s.closed then none
        else
          some { s with
            bodies := s.bodies.set i (.hands s.clients)
            clients := s.clients + 1 }
      else some { s with bodies := s.bodies.set i .test }
    | _, _ => none
  | .hands i => match taskOf (s.scheds .accept) i, s.bodies[i]? with
    | some (.accepts _), some (.hands c) =>
      some { (s.entered ioWorker (.handles c)) with
        bodies := s.bodies.set i .test
        dropped := if (s.scheds ioWorker).sched.mStopping then c :: s.dropped else s.dropped }
    | _, _ => none

/-! ## Where an accepted client is -/

/-- The clients that the loops have accepted and not scheduled. -/
def inHand (s : Serving) : List ℕ := s.bodies.filterMap BodyPc.client

/-- How often a handler of the client `c` stands in a list. -/
def handlers (c : ℕ) (tasks : List (Ticket ServerTask)) : ℕ :=
  (labels ServerTask.client tasks).count c

variable {ioWorker side : Side} {s s' : Serving} {a : ServingStep} {w' : Workers ServerTask}
  {i c : ℕ}

section Schedulers

variable {γ : Type} {label : ServerTask → Option γ}

theorem scheds_setSched_self : (s.setSched side w').scheds side = w' := Function.update_self ..

theorem scheds_setSched_ne {q : Side} (other : q ≠ side) :
    (s.setSched side w').scheds q = s.scheds q := Function.update_of_ne other ..

/-- What is on its way to either scheduler, after one has done a step. -/
theorem onWay_setSched {new : List γ}
    (grown : (onWay label w').Perm (new ++ onWay label (s.scheds side))) (q : Side) :
    (onWay label ((s.setSched side w').scheds q)).Perm
      ((if q = side then new else []) ++ onWay label (s.scheds q)) := by
  by_cases same : q = side
  · rw [if_pos same, same, scheds_setSched_self]
    exact grown
  · rw [if_neg same, scheds_setSched_ne same]
    exact List.Perm.refl _

theorem onWay_free {b : SchedStep ServerTask} (own : s.free side b = true)
    (foreign : ∀ task : ServerTask, task.foreign = true → label task = none)
    (edge : (s.scheds side).step b = some w') (q : Side) :
    (onWay label ((s.setSched side w').scheds q)).Perm (onWay label (s.scheds q)) := by
  have none : Without (fun task => (label task).isSome) b := by
    cases b with
    | enter cb threadId => exact Option.isSome_eq_false_iff.mpr (by rw [foreign cb own]; rfl)
    | range cbs =>
      intro cb member
      have outside := List.all_eq_true.mp own cb member
      exact Option.isSome_eq_false_iff.mpr (by rw [foreign cb outside]; rfl)
    | _ => trivial
  have grown : (onWay label w').Perm ([] ++ onWay label (s.scheds side)) := onWay_step none edge
  have moved := onWay_setSched grown q
  rwa [ite_self] at moved

variable (s side) in
/-- A call of `schedule` past its test. -/
theorem onWay_entered (label : ServerTask → Option γ) (task : ServerTask) (q : Side) :
    (onWay label ((s.entered side task).scheds q)).Perm
      ((if q = side ∧ (s.scheds side).sched.mStopping = false then (label task).toList else []) ++
        onWay label (s.scheds q)) := by
  have edge : (s.scheds side).step (.enter task (-1)) = some _ := rfl
  have moved := onWay_setSched (onWay_enter label edge) q
  refine moved.trans (List.Perm.append_right _ (List.Perm.of_eq ?_))
  cases (s.scheds side).sched.mStopping <;> simp

theorem taskOf_entered (task : ServerTask) (q : Side) (i : ℕ) :
    taskOf ((s.entered side task).scheds q) i = taskOf (s.scheds q) i := by
  show taskOf ((s.setSched side _).scheds q) i = _
  by_cases same : q = side
  · rw [same, scheds_setSched_self]
    rcases taskOf_step (w := s.scheds side) (a := .enter task (-1)) rfl i with
      unchanged | ⟨label, -⟩ | ⟨label, -⟩
    · exact unchanged
    · cases label
    · cases label
  · rw [scheds_setSched_ne same]

end Schedulers

theorem foreign_client (task : ServerTask) (foreign : task.foreign = true) :
    task.client = none := by
  cases task <;> cases foreign
  rfl

theorem foreign_sock (task : ServerTask) (foreign : task.foreign = true) : task.sock = none := by
  cases task <;> cases foreign
  rfl

/-- A worker that holds a client runs the loop that accepted it. -/
def Tied (s : Serving) : Prop :=
  ∀ i c, s.bodies[i]? = some (.hands c) → ∃ k, taskOf (s.scheds .accept) i = some (.accepts k)

/-- Each accepted client is in one place. -/
structure Placed (ioWorker : Side) (s : Serving) : Prop where
  tied : Tied s
  pending : ∀ task ∈ s.pending, task.client = none
  places : (s.inHand ++ s.dropped ++ onWay ServerTask.client (s.scheds ioWorker)).Perm
    (List.range s.clients)
  conserved : ∀ side, Workers.Conserved (s.scheds side)

theorem placed_bound (socks : List ℕ) : Placed ioWorker (bound socks) where
  tied := fun i c here => by cases here
  pending := List.forall_mem_nil _
  places := List.Perm.refl _
  conserved := fun _ => Workers.conserved_init

/-- The worker of a body that is set keeps its task. -/
theorem Tied.set (tied : Tied s) (pc : BodyPc)
    (own : ∀ c, pc = .hands c → ∃ k, taskOf (s.scheds .accept) i = some (.accepts k)) :
    Tied { s with bodies := s.bodies.set i pc } := by
  intro j c here
  dsimp only at here
  rw [List.getElem?_set] at here
  split at here
  · next same =>
    split at here
    · exact same ▸ own c (Option.some.inj here)
    · cases here
  · exact tied j c here

theorem tied_sched (tied : Tied s) {b : SchedStep ServerTask} (own : s.free side b = true)
    (edge : (s.scheds side).step b = some w') :
    Tied { (s.setSched side w') with
      bodies := if side = .accept then bodiesAfter s.bodies b else s.bodies } := by
  by_cases here : side = .accept
  · subst here
    intro j c holds
    dsimp only at holds ⊢
    rw [if_pos rfl] at holds
    have before : s.bodies[j]? = some (.hands c) ∧ ∀ i, b = .dequeue i → i ≠ j := by
      cases b with
      | stop tid | spawn tid =>
        refine ⟨?_, fun i label => by cases label⟩
        have inside : j < s.bodies.length := by
          by_contra past
          have at_end : (s.bodies ++ [BodyPc.done])[j]? = some (.hands c) := holds
          rw [List.getElem?_append_right (Nat.le_of_not_lt past)] at at_end
          cases distance : j - s.bodies.length with
          | zero => rw [distance] at at_end; cases at_end
          | succ n => rw [distance] at at_end; cases at_end
        exact (List.getElem?_append_left inside).symm.trans holds
      | dequeue i =>
        have set : (s.bodies.set i .test)[j]? = some (.hands c) := holds
        rw [List.getElem?_set] at set
        split at set
        · split at set <;> cases set
        · next apart => exact ⟨set, fun i' label => by cases label; exact apart⟩
      | _ => exact ⟨holds, fun i label => by cases label⟩
    obtain ⟨k, task⟩ := tied j c before.1
    refine ⟨k, ?_⟩
    rw [scheds_setSched_self]
    rcases taskOf_step edge j with same | ⟨label, -⟩ | ⟨label, -⟩
    · exact same.trans task
    · exact absurd rfl (before.2 j label)
    · subst label
      have done : s.bodyDone j = true := own
      rw [bodyDone, task, before.1] at done
      cases done
  · intro j c holds
    dsimp only at holds ⊢
    rw [if_neg here] at holds
    rw [scheds_setSched_ne (Ne.symm here)]
    exact tied j c holds

theorem conserved_setSched (inv : ∀ side, Workers.Conserved (s.scheds side))
    {b : SchedStep ServerTask} (edge : (s.scheds side).step b = some w') (q : Side) :
    Workers.Conserved ((s.setSched side w').scheds q) := by
  by_cases same : q = side
  · rw [same, scheds_setSched_self]
    exact (inv side).next edge
  · rw [scheds_setSched_ne same]
    exact inv q

/-- The clients in the hands of the loops, when one goes on. -/
theorem inHand_set {pc : BodyPc} (here : s.bodies[i]? = some pc) (next : BodyPc) :
    ∃ rest, s.inHand.Perm (pc.client.toList ++ rest) ∧
      ((s.bodies.set i next).filterMap BodyPc.client).Perm (next.client.toList ++ rest) := by
  obtain ⟨rest, before, after, -⟩ := Places.filterMap_set here BodyPc.client
  exact ⟨rest, before, after next⟩

/-- A body goes on without a client before or after it. -/
theorem inHand_same {pc : BodyPc} (here : s.bodies[i]? = some pc) (empty : pc.client = none)
    (next : BodyPc) (empty' : next.client = none) :
    ((s.bodies.set i next).filterMap BodyPc.client).Perm s.inHand := by
  obtain ⟨rest, before, after⟩ := inHand_set here next
  rw [empty] at before
  rw [empty'] at after
  exact after.trans before.symm

theorem taskOf_dequeue {w : Workers ServerTask} (edge : w.step (.dequeue i) = some w') :
    taskOf w i = none := by
  cases Workers.step_cases edge with
  | scans there pc =>
    unfold taskOf
    rw [there, Option.bind_some, pc]
    rfl

/-- A section of the accept scheduler takes no client out of the hands of a loop. -/
theorem inHand_sched (tied : Tied s) {b : SchedStep ServerTask}
    (edge : (s.scheds .accept).step b = some w') :
    ((bodiesAfter s.bodies b).filterMap BodyPc.client).Perm s.inHand := by
  cases b with
  | stop tid | spawn tid =>
    show ((s.bodies ++ [BodyPc.done]).filterMap BodyPc.client).Perm s.inHand
    rw [List.filterMap_append]
    exact List.Perm.of_eq (List.append_nil _)
  | dequeue i =>
    show ((s.bodies.set i .test).filterMap _).Perm _
    cases here : s.bodies[i]? with
    | none => rw [List.set_eq_of_length_le (List.getElem?_eq_none_iff.mp here)]; rfl
    | some pc =>
      refine inHand_same here ?_ .test rfl
      cases pc with
      | hands c =>
        obtain ⟨k, task⟩ := tied i c here
        rw [taskOf_dequeue edge] at task
        cases task
      | test | accept | done => rfl
  | _ => exact List.Perm.refl _

/-- What is scheduled that is no handler changes nothing. -/
theorem Placed.entered (inv : Placed ioWorker s) {task : ServerTask} (none : task.client = none)
    (side : Side) : Placed ioWorker (s.entered side task) where
  tied := fun i c here => by
    rw [taskOf_entered]
    exact inv.tied i c here
  pending := inv.pending
  places := by
    have moved := onWay_entered side s ServerTask.client task ioWorker
    rw [none, Option.toList_none, ite_self] at moved
    exact (moved.append_left _).trans inv.places
  conserved := conserved_setSched inv.conserved (b := .enter task (-1)) rfl

theorem Placed.next (inv : Placed ioWorker s) (edge : s.step ioWorker a = some s') :
    Placed ioWorker s' := by
  cases a with
  | sched side b =>
    obtain ⟨own, edge⟩ := Option.ite_none_right_eq_some.mp edge
    obtain ⟨w', inner, rfl⟩ := Option.map_eq_some_iff.mp edge
    refine ⟨tied_sched inv.tied own inner, inv.pending, ?_,
      conserved_setSched inv.conserved inner⟩
    have moved := onWay_free own foreign_client inner ioWorker
    refine List.Perm.trans ?_ ((moved.append_left _).trans inv.places)
    refine List.Perm.append_right _ (List.Perm.append_right _ ?_)
    by_cases here : side = .accept
    · subst here
      exact inHand_sched inv.tied inner
    · exact List.Perm.of_eq (congrArg (List.filterMap BodyPc.client) (if_neg here))
  | start =>
    cases edge
    split
    · refine ⟨inv.tied, fun task member => ?_, inv.places, inv.conserved⟩
      rcases List.mem_append.mp member with old | new
      · exact inv.pending task old
      · obtain ⟨k, -, rfl⟩ := List.mem_map.mp new
        rfl
    · exact inv
  | stop =>
    cases edge
    refine ⟨inv.tied, fun task member => ?_, inv.places, inv.conserved⟩
    rcases List.mem_append.mp member with old | new
    · exact inv.pending task old
    · cases List.mem_singleton.mp new
      rfl
  | schedule j =>
    simp only [step] at edge
    split at edge
    · next task there =>
      cases edge
      have entered := inv.entered (inv.pending task (List.mem_of_getElem? there)) .accept
      refine ⟨entered.tied, fun task member => ?_, entered.places, entered.conserved⟩
      exact inv.pending task (List.mem_of_mem_eraseIdx member)
    · cases edge
  | closes i =>
    simp only [step] at edge
    split at edge
    · next task here =>
      cases edge
      refine ⟨inv.tied.set _ fun c same => (by cases same), inv.pending, ?_, inv.conserved⟩
      have same := inHand_same here rfl .done rfl
      exact ((same.append_right _).append_right _).trans inv.places
    · cases edge
  | test i =>
    simp only [step] at edge
    split at edge
    · next k task here =>
      cases edge
      have none : (if s.mIsStop then BodyPc.done else .accept).client = none := by
        split <;> rfl
      refine ⟨inv.tied.set _ fun c same => ?_, inv.pending, ?_, inv.conserved⟩
      · rw [same] at none
        cases none
      · have same := inHand_same here rfl _ none
        exact ((same.append_right _).append_right _).trans inv.places
    · cases edge
  | accept i client =>
    simp only [step] at edge
    split at edge
    · next k task here =>
      split at edge
      · obtain ⟨-, edge⟩ := Option.ite_none_left_eq_some.mp edge
        cases edge
        refine ⟨inv.tied.set _ fun c _ => ⟨k, task⟩, inv.pending, ?_, inv.conserved⟩
        obtain ⟨rest, before, after⟩ := inHand_set here (.hands s.clients)
        show ((s.bodies.set i (.hands s.clients)).filterMap BodyPc.client ++ s.dropped ++ _).Perm
          (List.range (s.clients + 1))
        rw [List.range_succ]
        have grown : ((s.bodies.set i (.hands s.clients)).filterMap BodyPc.client).Perm
            (s.clients :: s.inHand) := after.trans (before.symm.cons s.clients)
        refine ((grown.append_right _).append_right _).trans ?_
        exact (inv.places.cons s.clients).trans (List.perm_append_singleton _ _).symm
      · cases edge
        refine ⟨inv.tied.set _ fun c same => (by cases same), inv.pending, ?_, inv.conserved⟩
        have same := inHand_same here rfl .test rfl
        exact ((same.append_right _).append_right _).trans inv.places
    · cases edge
  | hands i =>
    simp only [step] at edge
    split at edge
    · next k c task here =>
      cases edge
      refine ⟨fun j c' holds => ?_, inv.pending, ?_,
        conserved_setSched inv.conserved (b := .enter (.handles c) (-1)) rfl⟩
      · obtain ⟨k', task'⟩ := inv.tied.set .test (fun c same => by cases same) j c' holds
        exact ⟨k', (taskOf_entered ..).trans task'⟩
      · obtain ⟨rest, before, after⟩ := inHand_set here .test
        have moved := onWay_entered ioWorker s ServerTask.client (.handles c) ioWorker
        have places := inv.places
        rw [List.perm_iff_count] at places before after moved ⊢
        intro d
        have placed := places d
        have held := before d
        have left := after d
        have sent := moved d
        simp only [List.count_append, BodyPc.client, ServerTask.client, Option.toList_some,
          Option.toList_none, List.count_nil] at placed held left sent
        show ((s.bodies.set i .test).filterMap BodyPc.client ++
          (if (s.scheds ioWorker).sched.mStopping then c :: s.dropped else s.dropped) ++
            onWay ServerTask.client ((s.entered ioWorker (.handles c)).scheds ioWorker)).count d =
          (List.range s.clients).count d
        rw [List.count_append, List.count_append]
        cases stopping : (s.scheds ioWorker).sched.mStopping with
        | true =>
          rw [stopping] at sent
          simp only [Bool.true_eq_false, and_false, if_false, List.count_nil] at sent
          rw [if_pos rfl, List.count_cons]
          rw [List.count_singleton] at held
          omega
        | false =>
          rw [stopping] at sent
          simp only [and_self, if_true, Bool.false_eq_true, if_false] at sent ⊢
          omega
    · cases edge

theorem placed_of_exec {socks : List ℕ} {as : List ServingStep}
    (run : Runs.exec (step ioWorker) (bound socks) as = some s) : Placed ioWorker s :=
  Runs.exec_inv (fun inv edge => Placed.next inv edge) (placed_bound socks) run

/-- Over every interleaving: a client that was accepted is in the hands of one loop, was
refused by a stopping scheduler, is in a call of `schedule`, or has one handler, which
waits, runs or has finished; nothing else has a handler, and none is begun twice. -/
theorem served_once {socks : List ℕ} {as : List ServingStep}
    (run : Runs.exec (step ioWorker) (bound socks) as = some s) (c : ℕ) :
    s.inHand.count c + s.dropped.count c +
        ((s.scheds ioWorker).calls.filterMap fun p => p.1.client).count c +
        handlers c (s.scheds ioWorker).waiting + handlers c (s.scheds ioWorker).running +
        handlers c (s.scheds ioWorker).finished = (if c < s.clients then 1 else 0) ∧
      handlers c ((s.scheds ioWorker).begun.map Prod.fst) ≤ 1 := by
  have inv := placed_of_exec run
  obtain ⟨places, begun⟩ := (inv.conserved ioWorker).labels ServerTask.client
  have all := inv.places.count_eq c
  have one : (List.range s.clients).count c = if c < s.clients then 1 else 0 := by
    by_cases accepted : c < s.clients
    · rw [if_pos accepted]
      exact List.count_eq_one_of_mem List.nodup_range (List.mem_range.mpr accepted)
    · rw [if_neg accepted]
      exact List.count_eq_zero.mpr fun member => accepted (List.mem_range.mp member)
  have kept := places.count_eq c
  have started := begun.count_eq c
  unfold onWay at all
  unfold handlers
  simp only [List.count_append] at all kept started
  have few : (if c < s.clients then 1 else 0) ≤ 1 := by
    split <;> decide
  omega

/-- A client is accepted and handed over; one worker of the io scheduler handles it. -/
theorem served_once_client :
    ∃ s, Runs.exec (step .io) (bound [4]) [.start, .schedule 0, .sched .accept (.store 0),
        .sched .accept (.spawn 5), .sched .accept (.dequeue 0), .test 0, .accept 0 true, .hands 0,
        .sched .io (.store 0), .sched .io (.spawn 6), .sched .io (.dequeue 0)] = some s ∧
      handlers 0 (s.scheds .io).running = 1 ∧
      handlers 0 ((s.scheds .io).begun.map Prod.fst) ≤ 1 := by
  have run : Runs.exec (step .io) (bound [4]) [.start, .schedule 0, .sched .accept (.store 0),
      .sched .accept (.spawn 5), .sched .accept (.dequeue 0), .test 0, .accept 0 true, .hands 0,
      .sched .io (.store 0), .sched .io (.spawn 6), .sched .io (.dequeue 0)] = some _ := rfl
  exact ⟨_, run, rfl, (served_once run 0).2⟩

/-! ## Nothing is begun beside the loops -/

/-- Every worker inside `run()` of the accept scheduler is in the loop of a socket, and the
server is not stopped. -/
structure Held (s : Serving) : Prop where
  started : s.mIsStop = false
  loops : ∀ i x, (s.scheds .accept).workers[i]? = some x → x.pc.active = true →
    ∃ k pc, taskOf (s.scheds .accept) i = some (.accepts k) ∧ s.bodies[i]? = some pc ∧
      pc.isDone = false

/-- The steps that neither stop the server nor bring the accept scheduler a worker. -/
def Quiet (_ : Serving) : ServingStep → Prop
  | .stop | .sched .accept (.stop _) | .sched .accept (.spawn _) => False
  | _ => True

theorem Held.scheds (held : Held s) (w : Workers ServerTask)
    (workers : w.workers = (s.scheds .accept).workers) : Held (s.setSched .accept w) where
  started := held.started
  loops := by
    unfold taskOf
    rw [scheds_setSched_self, workers]
    exact held.loops

theorem Held.set (held : Held s) (pc : BodyPc) (inside : pc.isDone = false) :
    Held { s with bodies := s.bodies.set i pc } where
  started := held.started
  loops := by
    intro j x there active
    obtain ⟨k, old, task, here, going⟩ := held.loops j x there active
    dsimp only
    rw [List.getElem?_set]
    by_cases same : i = j
    · subst same
      rw [if_pos rfl, if_pos (List.getElem?_eq_some_iff.mp here).1]
      exact ⟨k, pc, task, rfl, inside⟩
    · rw [if_neg same]
      exact ⟨k, old, task, here, going⟩

/-- A section of the accept scheduler in such a state is that of another thread. -/
theorem Held.outside (held : Held s) {b : SchedStep ServerTask} (own : s.free .accept b = true)
    (quiet : Quiet s (.sched .accept b)) (edge : (s.scheds .accept).step b = some w') :
    w'.workers = (s.scheds .accept).workers ∧ w'.begun = (s.scheds .accept).begun ∧
      bodiesAfter s.bodies b = s.bodies := by
  have busy : Workers.Busy (s.scheds .accept) := fun i x there active => by
    obtain ⟨k, pc, task, -⟩ := held.loops i x there active
    rw [task]
    rfl
  rcases busy.outside edge with ⟨workers, begun, other⟩ | ⟨tid, rfl | rfl⟩ |
    ⟨i, x, rfl, there, inside⟩
  · refine ⟨workers, begun, ?_⟩
    cases b with
    | dequeue i => exact absurd rfl (other i)
    | stop tid | spawn tid => exact quiet.elim
    | _ => rfl
  · exact quiet.elim
  · exact quiet.elim
  · obtain ⟨k, body, task, here, going⟩ := held.loops i x there inside
    have done : s.bodyDone i = true := own
    rw [bodyDone, task, here] at done
    have ended : body.isDone = true := done
    rw [going] at ended
    cases ended

theorem held_entered (held : Held s) (side : Side) (task : ServerTask) :
    Held (s.entered side task) ∧
      ((s.entered side task).scheds .accept).begun = (s.scheds .accept).begun := by
  have workers (w : Workers ServerTask) :
      (if w.sched.mStopping then w else { w with calls := w.calls ++ [(task, -1)] }).workers =
        w.workers ∧
      (if w.sched.mStopping then w else { w with calls := w.calls ++ [(task, -1)] }).begun =
        w.begun := by
    split <;> exact ⟨rfl, rfl⟩
  cases side with
  | accept =>
    have same := workers (s.scheds .accept)
    refine ⟨held.scheds _ same.1, ?_⟩
    show ((s.setSched .accept _).scheds .accept).begun = _
    rw [scheds_setSched_self]
    exact same.2
  | io =>
    have other : (s.setSched .io (if (s.scheds .io).sched.mStopping then s.scheds .io
        else { s.scheds .io with calls := (s.scheds .io).calls ++ [(task, -1)] })).scheds .accept =
        s.scheds .accept := scheds_setSched_ne (by decide)
    refine ⟨⟨held.started, ?_⟩, congrArg Workers.begun other⟩
    show ∀ i x, ((s.setSched .io _).scheds .accept).workers[i]? = some x → _ →
      ∃ k pc, taskOf ((s.setSched .io _).scheds .accept) i = _ ∧ _
    rw [other]
    exact held.loops

theorem Held.next (held : Held s) (quiet : Quiet s a) (edge : s.step ioWorker a = some s') :
    Held s' ∧ (s'.scheds .accept).begun = (s.scheds .accept).begun := by
  cases a with
  | sched side b =>
    obtain ⟨own, edge⟩ := Option.ite_none_right_eq_some.mp edge
    obtain ⟨w', inner, rfl⟩ := Option.map_eq_some_iff.mp edge
    cases side with
    | accept =>
      obtain ⟨workers, begun, bodies⟩ := held.outside own quiet inner
      rw [if_pos rfl, bodies]
      refine ⟨held.scheds w' workers, ?_⟩
      show ((s.setSched .accept w').scheds .accept).begun = _
      rw [scheds_setSched_self]
      exact begun
    | io =>
      have other : (s.setSched .io w').scheds .accept = s.scheds .accept :=
        scheds_setSched_ne (by decide)
      refine ⟨⟨held.started, ?_⟩, congrArg Workers.begun other⟩
      show ∀ i x, ((s.setSched .io w').scheds .accept).workers[i]? = some x → _ →
        ∃ k pc, taskOf ((s.setSched .io w').scheds .accept) i = _ ∧ _
      rw [other]
      exact held.loops
  | start =>
    cases edge
    rw [held.started, if_neg Bool.false_ne_true]
    exact ⟨held, rfl⟩
  | stop => exact quiet.elim
  | schedule j =>
    simp only [step] at edge
    split at edge
    · next task there =>
      cases edge
      obtain ⟨entered, begun⟩ := held_entered held .accept task
      exact ⟨⟨entered.started, entered.loops⟩, begun⟩
    · cases edge
  | closes i =>
    simp only [step] at edge
    split at edge
    · next task here =>
      obtain ⟨x, there, active⟩ := active_of_taskOf task
      obtain ⟨k, pc, loop, -⟩ := held.loops i x there active
      rw [task] at loop
      cases loop
    · cases edge
  | test i =>
    simp only [step] at edge
    split at edge
    · cases edge
      have body : (if s.mIsStop then BodyPc.done else .accept) = .accept := by
        rw [held.started, if_neg Bool.false_ne_true]
      rw [body]
      exact ⟨held.set _ rfl, rfl⟩
    · cases edge
  | accept i client =>
    simp only [step] at edge
    split at edge
    · split at edge
      · obtain ⟨-, edge⟩ := Option.ite_none_left_eq_some.mp edge
        cases edge
        have set := held.set (i := i) (.hands s.clients) rfl
        exact ⟨⟨set.started, set.loops⟩, rfl⟩
      · cases edge
        exact ⟨held.set _ rfl, rfl⟩
    · cases edge
  | hands i =>
    simp only [step] at edge
    split at edge
    · next k c task here =>
      cases edge
      obtain ⟨entered, begun⟩ := held_entered held ioWorker (.handles c)
      have set := entered.set (i := i) .test rfl
      exact ⟨⟨set.started, set.loops⟩, begun⟩
    · cases edge

/-- From a state in which every worker of the accept scheduler is in the loop of a socket,
over every interleaving without `stop()` and new workers: nothing is begun there any
more, no handler of a client if the io scheduler is the same, and not the task of a
`stop()` either. -/
theorem starved {bs : List ServingStep} (held : Held s)
    (run : Runs.exec (step ioWorker) s bs = some s')
    (quiet : Runs.Along (step ioWorker) Quiet s bs) :
    Held s' ∧ (s'.scheds .accept).begun = (s.scheds .accept).begun := by
  have keep {u u' : Serving} {a : ServingStep}
      (inv : Held u ∧ (u.scheds .accept).begun = (s.scheds .accept).begun) (quiet : Quiet u a)
      (edge : u.step ioWorker a = some u') :
      Held u' ∧ (u'.scheds .accept).begun = (s.scheds .accept).begun := by
    obtain ⟨held', begun⟩ := inv.1.next quiet edge
    exact ⟨held', begun.trans inv.2⟩
  exact (Runs.always_of_along keep ⟨held, rfl⟩ quiet).last run

/-- A server on one scheduler, whose only worker is in the loop of the socket. -/
def listening : Serving :=
  (Runs.exec (step .accept) (bound [4]) [.start, .schedule 0, .sched .accept (.store 0),
    .sched .accept (.spawn 5), .sched .accept (.dequeue 0)]).getD (bound [4])

/-- The handler of its client is stored, and the worker goes on to the next `accept()`. -/
theorem starved_listening :
    ∃ t, Runs.exec (step .accept) listening [.test 0, .accept 0 true, .hands 0,
        .sched .accept (.store 0), .test 0, .accept 0 false] = some t ∧
      handlers 0 (t.scheds .accept).waiting = 1 ∧
      (t.scheds .accept).begun = (listening.scheds .accept).begun := by
  have held : Held listening := ⟨rfl, fun i x there _ => by
    cases i with
    | zero => exact ⟨4, .test, rfl, rfl, rfl⟩
    | succ i => cases there⟩
  have run : Runs.exec (step .accept) listening [.test 0, .accept 0 true, .hands 0,
      .sched .accept (.store 0), .test 0, .accept 0 false] = some _ := rfl
  exact ⟨_, run, rfl, (starved held run
    fun _ _ => ⟨trivial, fun _ _ => ⟨trivial, fun _ _ => ⟨trivial, fun _ _ => ⟨trivial,
      fun _ _ => ⟨trivial, fun _ _ => ⟨trivial, trivial⟩⟩⟩⟩⟩⟩).2⟩

/-! ## After the sockets were closed -/

/-- Every loop there is or will be is that of a socket that is listed or closed. -/
structure Known (s : Serving) : Prop where
  pending : ∀ task ∈ s.pending, ∀ k, task.sock = some k → k ∈ s.mSocks ∨ k ∈ s.closed
  onWay : ∀ k ∈ onWay ServerTask.sock (s.scheds .accept), k ∈ s.mSocks ∨ k ∈ s.closed
  conserved : ∀ side, Workers.Conserved (s.scheds side)

theorem known_bound (socks : List ℕ) : Known (bound socks) where
  pending := List.forall_mem_nil _
  onWay := List.forall_mem_nil _
  conserved := fun _ => Workers.conserved_init

theorem Known.entered (known : Known s) {task : ServerTask}
    (own : ∀ k, task.sock = some k → k ∈ s.mSocks ∨ k ∈ s.closed) (side : Side) :
    Known (s.entered side task) where
  pending := known.pending
  onWay := by
    intro k member
    have moved := onWay_entered side s ServerTask.sock task .accept
    rcases List.mem_append.mp (moved.mem_iff.mp member) with new | old
    · split at new
      · exact own k (Option.mem_toList.mp new)
      · cases new
    · exact known.onWay k old
  conserved := conserved_setSched known.conserved (b := .enter task (-1)) rfl

/-- The socket of a loop that a worker runs is listed or closed. -/
theorem Known.running (known : Known s) {k : ℕ}
    (task : taskOf (s.scheds .accept) i = some (.accepts k)) : k ∈ s.mSocks ∨ k ∈ s.closed := by
  obtain ⟨ticket, runs, cb⟩ := Option.map_eq_some_iff.mp task
  obtain ⟨x, there, pc⟩ := Option.bind_eq_some_iff.mp runs
  have among : ticket ∈ (s.scheds .accept).running :=
    List.mem_filterMap.mpr ⟨x, List.mem_of_getElem? there, pc⟩
  obtain ⟨threadId, accepted⟩ := (known.conserved .accept).accepted_of_mem
    (List.mem_append_left _ (List.mem_append_right _ among))
  refine known.onWay k (List.mem_append_right _ ?_)
  refine List.mem_filterMap.mpr ⟨_, List.mem_of_getElem? accepted, ?_⟩
  show ticket.cb.sock = some k
  rw [cb]
  rfl

/-- A body that goes on changes none of it. -/
theorem Known.congr (known : Known s) (pending : s'.pending = s.pending)
    (scheds : s'.scheds = s.scheds) (mSocks : s'.mSocks = s.mSocks)
    (closed : s'.closed = s.closed) : Known s' where
  pending := by
    rw [pending, mSocks, closed]
    exact known.pending
  onWay := by
    rw [scheds, mSocks, closed]
    exact known.onWay
  conserved := scheds ▸ known.conserved

theorem Known.next (known : Known s) (edge : s.step ioWorker a = some s') : Known s' := by
  cases a with
  | sched side b =>
    obtain ⟨own, edge⟩ := Option.ite_none_right_eq_some.mp edge
    obtain ⟨w', inner, rfl⟩ := Option.map_eq_some_iff.mp edge
    refine ⟨known.pending, fun k member => known.onWay k ?_,
      conserved_setSched known.conserved inner⟩
    exact (onWay_free own foreign_sock inner .accept).mem_iff.mp member
  | start =>
    cases edge
    split
    · refine ⟨fun task member k same => ?_, known.onWay, known.conserved⟩
      rcases List.mem_append.mp member with old | new
      · exact known.pending task old k same
      · obtain ⟨k', listed, rfl⟩ := List.mem_map.mp new
        cases same
        exact .inl listed
    · exact known
  | stop =>
    cases edge
    refine ⟨fun task member k same => ?_, known.onWay, known.conserved⟩
    rcases List.mem_append.mp member with old | new
    · exact known.pending task old k same
    · cases List.mem_singleton.mp new
      cases same
  | schedule j =>
    simp only [step] at edge
    split at edge
    · next task there =>
      cases edge
      have entered := known.entered (known.pending task (List.mem_of_getElem? there)) .accept
      refine ⟨fun task member => ?_, entered.onWay, entered.conserved⟩
      exact known.pending task (List.mem_of_mem_eraseIdx member)
    · cases edge
  | closes i =>
    simp only [step] at edge
    split at edge
    · cases edge
      have moves {k : ℕ} (before : k ∈ s.mSocks ∨ k ∈ s.closed) :
          k ∈ ([] : List ℕ) ∨ k ∈ s.mSocks ++ s.closed := .inr (List.mem_append.mpr before)
      exact ⟨fun task member k same => moves (known.pending task member k same),
        fun k member => moves (known.onWay k member), known.conserved⟩
    · cases edge
  | test i =>
    simp only [step] at edge
    split at edge
    · cases edge
      exact known.congr rfl rfl rfl rfl
    · cases edge
  | accept i client =>
    simp only [step] at edge
    split at edge
    · split at edge
      · obtain ⟨-, edge⟩ := Option.ite_none_left_eq_some.mp edge
        cases edge
        exact known.congr rfl rfl rfl rfl
      · cases edge
        exact known.congr rfl rfl rfl rfl
    · cases edge
  | hands i =>
    simp only [step] at edge
    split at edge
    · next k c task here =>
      cases edge
      have entered : Known (s.entered ioWorker (.handles c)) :=
        known.entered (fun k same => by cases same) ioWorker
      exact ⟨entered.pending, entered.onWay, entered.conserved⟩
    · cases edge

/-- Where no socket is listed, a step lists none and accepts no client. -/
theorem step_closed (known : Known s) (none : s.mSocks = [])
    (edge : s.step ioWorker a = some s') : s'.mSocks = [] ∧ s'.clients = s.clients := by
  cases a with
  | sched side b =>
    obtain ⟨own, edge⟩ := Option.ite_none_right_eq_some.mp edge
    obtain ⟨w', inner, rfl⟩ := Option.map_eq_some_iff.mp edge
    exact ⟨none, rfl⟩
  | start =>
    cases edge
    split <;> exact ⟨none, rfl⟩
  | stop =>
    cases edge
    exact ⟨none, rfl⟩
  | schedule j | test i | hands i =>
    simp only [step] at edge
    split at edge
    · cases edge
      exact ⟨none, rfl⟩
    · cases edge
  | closes i =>
    simp only [step] at edge
    split at edge
    · cases edge
      exact ⟨rfl, rfl⟩
    · cases edge
  | accept i client =>
    simp only [step] at edge
    split at edge
    · next k task here =>
      split at edge
      · obtain ⟨still, -⟩ := Option.ite_none_left_eq_some.mp edge
        have socket := known.running task
        rw [none] at socket
        exact absurd (socket.resolve_left List.not_mem_nil) still
      · cases edge
        exact ⟨none, rfl⟩
    · cases edge

/-- Once the task of a `stop()` has run, the server lists no socket and accepts no client
in any run that follows, whatever calls of `start()` are in it. -/
theorem clients_of_closed {socks : List ℕ} {as bs : List ServingStep}
    (run : Runs.exec (step ioWorker) (bound socks) as = some s) (none : s.mSocks = [])
    (more : Runs.exec (step ioWorker) s bs = some s') :
    s'.mSocks = [] ∧ s'.clients = s.clients := by
  have known : Known s := Runs.exec_inv (fun known edge => Known.next known edge)
    (known_bound socks) run
  have keep {u u' : Serving} {a : ServingStep}
      (inv : Known u ∧ u.mSocks = [] ∧ u.clients = s.clients) (edge : u.step ioWorker a = some u') :
      Known u' ∧ u'.mSocks = [] ∧ u'.clients = s.clients := by
    obtain ⟨empty, same⟩ := step_closed inv.1 inv.2.1 edge
    exact ⟨inv.1.next edge, empty, same.trans inv.2.2⟩
  exact (Runs.exec_inv keep ⟨known, none, rfl⟩ more).2

/-- A server that was stopped before it was started, and closed its socket. -/
def stopped : Serving :=
  (Runs.exec (step .io) (bound [4]) [.stop, .schedule 0, .sched .accept (.store 0),
    .sched .accept (.spawn 5), .sched .accept (.dequeue 0), .closes 0]).getD (bound [4])

/-- It is started again and lists no socket. -/
theorem clients_of_closed_again :
    ∃ t, Runs.exec (step .io) stopped [.start, .sched .accept (.complete 0)] = some t ∧
      t.mIsStop = false ∧ t.mSocks = [] ∧ t.clients = stopped.clients := by
  have run : Runs.exec (step .io) (bound [4]) [.stop, .schedule 0, .sched .accept (.store 0),
      .sched .accept (.spawn 5), .sched .accept (.dequeue 0), .closes 0] = some stopped := rfl
  have more : Runs.exec (step .io) stopped [.start, .sched .accept (.complete 0)] = some _ := rfl
  exact ⟨_, more, rfl, clients_of_closed run rfl more⟩

end Serving

end Sylar
