import Sylar.Net.Socket

/-!
# Binding a server

`TcpServer::bind` of `server.cpp`, and the loop of `test_server.cpp` that repeats it. The
vector of failures belongs to the caller, and a call that finds it filled fails.

* `bind_iff`: a call binds all addresses or none, and says so, exactly when it is handed no
  earlier failure or fails itself. The loop ends only at its first call.
-/

namespace Sylar

open Socket Creation

/-- `TcpServer`, as far as `bind` goes. -/
structure TcpServer where
  mSocks : List Socket
  mSsl : Bool

namespace TcpServer

/-- What is there after a `bind`: the server, the vector of failures, and the answer. -/
structure Bound where
  server : TcpServer
  fails : List Address
  answer : Bool

/-- An address of one call, and what its `bind` and `listen` meet. -/
abbrev Attempt := Address × Results

/-- One round of the loop: the socket that listens, if it does. -/
def listenOn (ssl : Bool) (addr : Address) (r : Results) : Option (Option Socket) := do
  let sock := (if ssl = true then SSLCreateTCP addr else CreateTCP addr).create r
  let (sock, bound) ← sock.bind addr r
  if bound = false then some none
  else if sock.listen r = false then some none
  else some (some sock)

/-- The loop over the addresses. -/
def listenAll (ssl : Bool) : List Attempt → List Socket → List Address →
    Option (List Socket × List Address)
  | [], socks, fails => some (socks, fails)
  | (addr, r) :: addrs, socks, fails => do
    match ← listenOn ssl addr r with
    | none => listenAll ssl addrs socks (fails ++ [addr])
    | some sock => listenAll ssl addrs (socks ++ [sock]) fails

/-- `bind`, of several addresses. -/
def bind (server : TcpServer) (addrs : List Attempt) (fails : List Address) (ssl : Bool) :
    Option Bound := do
  let (socks, fails) ← listenAll ssl addrs server.mSocks fails
  if fails.isEmpty = false then some ⟨⟨[], ssl⟩, fails, false⟩
  else some ⟨⟨socks, ssl⟩, fails, true⟩

/-- The loop of the test, for the calls that are given: what is there after the last one that
it makes. -/
def retry (ssl : Bool) (server : TcpServer) (fails : List Address) :
    List (List Attempt) → Option Bound
  | [] => some ⟨server, fails, false⟩
  | addrs :: later => do
    let b ← server.bind addrs fails ssl
    if b.answer = false then retry ssl b.server b.fails later else some b

/-! ## What a call is to do -/

/-- The address can be bound and listened on. -/
def Attempt.succeeds (a : Attempt) : Bool := a.2.fd != -1 && a.2.bound && a.2.listens

/-- The addresses that fail in a call. -/
def failed (addrs : List Attempt) : List Address :=
  (addrs.filter fun a => !Attempt.succeeds a).map Prod.fst

/-- A socket that listens on an address. -/
structure ListensAt (ssl : Bool) (a : Attempt) (sock : Socket) : Prop where
  opened : sock.mSock = a.2.fd
  valid : sock.isValid = true
  family : sock.mFamily = familyOf a.1
  ssl : sock.ssl = ssl
  bound : a.2.bound = true
  listens : a.2.listens = true

/-- All or nothing. -/
structure AllOrNone (server : TcpServer) (addrs : List Attempt) (fails : List Address)
    (ssl : Bool) (b : Bound) : Prop where
  fails_eq : b.fails = fails ++ failed addrs
  answer_iff : b.answer = true ↔ failed addrs = []
  gained : b.answer = true → ∃ socks, b.server.mSocks = server.mSocks ++ socks ∧
    List.Forall₂ (ListensAt ssl) addrs socks
  cleared : b.answer = false → b.server.mSocks = []

/-- The getters of addresses know the family. -/
def KnownFamily (addr : Address) : Prop := addr.getFamily = afInet ∨ addr.getFamily = afInet6

variable {server : TcpServer} {ssl : Bool} {addr : Address} {r : Results} {a : Attempt}
  {addrs : List Attempt} {socks : List Socket} {fails : List Address}

/-! ## One address -/

theorem create_eq : (if ssl = true then SSLCreateTCP addr else CreateTCP addr).create r =
    make ssl (familyOf addr) .TCP 0 := by
  cases ssl with
  | true => rfl
  | false => rfl

/-- `bind` of a new socket for the family of the address. -/
theorem bind_make {u : Socket} {v : Bool}
    (ran : (make ssl (familyOf addr) .TCP 0).bind addr r = some (u, v)) :
    v = (r.fd != -1 && r.bound) ∧ u.mSock = r.fd ∧ u.mFamily = familyOf addr ∧ u.ssl = ssl := by
  have closed : (make ssl (familyOf addr) .TCP 0).isValid = false := rfl
  simp only [Socket.bind, opened, closed, if_true] at ran
  split_ifs at ran with invalid other unbound
  · cases ran
    exact ⟨by rw [show (r.fd != -1) = false from invalid]; rfl, rfl, rfl, rfl⟩
  · exact absurd rfl other
  · cases ran
    exact ⟨by rw [unbound, Bool.and_false], rfl, rfl, rfl⟩
  · obtain ⟨t, got, same⟩ := Option.map_eq_some_iff.mp ran
    cases same
    rw [Bool.not_eq_false] at invalid unbound
    have both : true = (r.fd != -1 && r.bound) := by
      rw [show (r.fd != -1) = true from invalid, unbound]
      rfl
    rcases Sockets.getAddress_cases got with rfl | ⟨address, rfl⟩
    · exact ⟨both, rfl, rfl, rfl⟩
    · exact ⟨both, rfl, rfl, rfl⟩

/-- A round of the loop yields a socket that listens exactly when the address succeeds. -/
theorem listenOn_cases {made : Option Socket} (ran : listenOn ssl addr r = some made) :
    (made = none ∧ Attempt.succeeds (addr, r) = false) ∨
      ∃ sock, made = some sock ∧ Attempt.succeeds (addr, r) = true ∧
        ListensAt ssl (addr, r) sock := by
  simp only [listenOn, create_eq] at ran
  obtain ⟨⟨sock, bound⟩, run, later⟩ := Option.bind_eq_some_iff.mp ran
  obtain ⟨answer, opened, family, same⟩ := bind_make run
  have heard : sock.listen r = (r.fd != -1 && r.listens) := by
    rw [listen_eq, isValid, opened]
  simp only [answer, heard] at later
  split_ifs at later with unbound deaf
  · cases later
    exact .inl ⟨rfl, by rw [Attempt.succeeds, unbound, Bool.false_and]⟩
  · cases later
    rw [Attempt.succeeds, Bool.and_right_comm, deaf]
    exact .inl ⟨rfl, Bool.false_and _⟩
  · cases later
    rw [Bool.not_eq_false, Bool.and_eq_true] at unbound deaf
    refine .inr ⟨sock, rfl, ?_, ?_⟩
    · rw [Attempt.succeeds, unbound.1, unbound.2, deaf.2]
      rfl
    · exact ⟨opened, by rw [isValid, opened, unbound.1], family, same, unbound.2, deaf.2⟩

/-- An address of a known family does not crash the round. -/
theorem listenOn_known (known : KnownFamily addr) : ∃ made, listenOn ssl addr r = some made := by
  have bound : ∃ t, (make ssl (familyOf addr) .TCP 0).bind addr r = some t := by
    have has : hasAddress ((make ssl (familyOf addr) .TCP 0).opened r) = true := by
      show ((familyOf addr == (afInet.toNat : ℤ)) || (familyOf addr == (afInet6.toNat : ℤ))) = true
      unfold familyOf
      rcases known with inet | inet6
      · rw [inet]
        rfl
      · rw [inet6]
        rfl
    obtain ⟨t, got⟩ := Sockets.getAddress_known has
    simp only [Socket.bind]
    split_ifs with invalid other unbound
    · exact ⟨_, rfl⟩
    · exact ⟨_, rfl⟩
    · exact ⟨_, rfl⟩
    · rw [getLocalAddress, got]
      exact ⟨_, rfl⟩
  obtain ⟨⟨sock, answer⟩, ran⟩ := bound
  simp only [listenOn, create_eq, ran, Option.bind_eq_bind, Option.bind_some]
  split_ifs with unbound deaf
  · exact ⟨none, rfl⟩
  · exact ⟨none, rfl⟩
  · exact ⟨some sock, rfl⟩

/-! ## The loop -/

theorem failed_cons : failed (a :: addrs) =
    if a.succeeds = true then failed addrs else a.1 :: failed addrs := by
  unfold failed
  rw [List.filter_cons]
  cases a.succeeds with
  | true => rfl
  | false => rfl

/-- The loop adds what fails to the failures, and a socket for each address when none does. -/
theorem listenAll_adds {socks' : List Socket} {fails' : List Address}
    (ran : listenAll ssl addrs socks fails = some (socks', fails')) :
    fails' = fails ++ failed addrs ∧ (failed addrs = [] → ∃ more, socks' = socks ++ more ∧
      List.Forall₂ (ListensAt ssl) addrs more) := by
  induction addrs generalizing socks fails with
  | nil =>
    cases ran
    exact ⟨(List.append_nil _).symm, fun _ => ⟨[], (List.append_nil _).symm, .nil⟩⟩
  | cons a addrs ih =>
    obtain ⟨addr, r⟩ := a
    obtain ⟨made, round, later⟩ := Option.bind_eq_some_iff.mp ran
    rw [failed_cons]
    rcases listenOn_cases round with ⟨rfl, fell⟩ | ⟨sock, rfl, succeeded, listening⟩
    · obtain ⟨added, -⟩ := ih later
      rw [if_neg (by rw [fell]; decide), added, List.append_assoc]
      exact ⟨rfl, fun none => by cases none⟩
    · obtain ⟨added, gained⟩ := ih later
      rw [if_pos succeeded]
      refine ⟨added, fun none => ?_⟩
      obtain ⟨more, all, listen⟩ := gained none
      exact ⟨sock :: more, by rw [all, List.append_assoc, List.singleton_append],
        .cons listening listen⟩

theorem listenAll_known (known : ∀ a ∈ addrs, KnownFamily a.1) :
    ∃ t, listenAll ssl addrs socks fails = some t := by
  induction addrs generalizing socks fails with
  | nil => exact ⟨(socks, fails), rfl⟩
  | cons a addrs ih =>
    have later := fun b inAddrs => known b (List.mem_cons_of_mem a inAddrs)
    obtain ⟨made, round⟩ : ∃ made, listenOn ssl a.1 a.2 = some made :=
      listenOn_known (known a List.mem_cons_self)
    rw [listenAll, round]
    cases made with
    | none => exact ih later
    | some sock => exact ih later

/-! ## A call -/

/-- A call on addresses of known families returns. -/
theorem bind_known (known : ∀ a ∈ addrs, KnownFamily a.1) :
    ∃ b, server.bind addrs fails ssl = some b := by
  obtain ⟨⟨socks, fails'⟩, loop⟩ : ∃ t, listenAll ssl addrs server.mSocks fails = some t :=
    listenAll_known known
  simp only [bind, loop, Option.bind_eq_bind, Option.bind_some]
  split_ifs with filled
  · exact ⟨_, rfl⟩
  · exact ⟨_, rfl⟩

/-- A call adds what fails to the failures, and succeeds when they are then empty. -/
theorem bind_cases {b : Bound} (ran : server.bind addrs fails ssl = some b) :
    b.fails = fails ++ failed addrs ∧
      ((b.fails ≠ [] ∧ b.answer = false ∧ b.server.mSocks = []) ∨
        b.fails = [] ∧ b.answer = true ∧ ∃ socks, b.server.mSocks = server.mSocks ++ socks ∧
          List.Forall₂ (ListensAt ssl) addrs socks) := by
  obtain ⟨⟨socks, fails'⟩, loop, later⟩ := Option.bind_eq_some_iff.mp ran
  obtain ⟨added, gained⟩ := listenAll_adds loop
  simp only at later
  split_ifs at later with filled
  · cases later
    exact ⟨added, .inl ⟨by rw [← List.isEmpty_eq_false_iff]; exact filled, rfl, rfl⟩⟩
  · cases later
    rw [Bool.not_eq_false, List.isEmpty_iff] at filled
    have none := (List.append_eq_nil_iff.mp (added.symm.trans filled)).2
    exact ⟨added, .inr ⟨filled, rfl, gained none⟩⟩

/-- A call answers whether there is no failure, old or new. -/
theorem bind_answer {b : Bound} (ran : server.bind addrs fails ssl = some b) :
    b.answer = true ↔ fails = [] ∧ failed addrs = [] := by
  obtain ⟨added, cases⟩ := bind_cases ran
  rw [← List.append_eq_nil_iff, ← added]
  rcases cases with ⟨filled, no, -⟩ | ⟨empty, yes, -⟩
  · exact iff_of_false (by rw [no]; decide) filled
  · exact iff_of_true yes empty

/-- A call is all or nothing exactly when it finds no failure, or adds one. -/
theorem allOrNone_iff {b : Bound} (ran : server.bind addrs fails ssl = some b) :
    AllOrNone server addrs fails ssl b ↔ (fails = [] ∨ failed addrs ≠ []) := by
  obtain ⟨added, cases⟩ := bind_cases ran
  have answer := bind_answer ran
  constructor
  · intro all
    by_contra neither
    obtain ⟨found, none⟩ := not_or.mp neither
    exact found (answer.mp (all.answer_iff.mpr (not_not.mp none))).1
  · intro exact
    have answer_iff : b.answer = true ↔ failed addrs = [] := by
      rw [answer]
      refine ⟨And.right, fun none => ⟨?_, none⟩⟩
      exact exact.resolve_right (not_not.mpr none)
    refine ⟨added, answer_iff, fun yes => ?_, fun no => ?_⟩
    · rcases cases with ⟨-, no, -⟩ | ⟨-, -, gained⟩
      · exact absurd (yes.symm.trans no) (by decide)
      · exact gained
    · rcases cases with ⟨-, -, cleared⟩ | ⟨-, yes, -⟩
      · exact cleared
      · exact absurd (yes.symm.trans no) (by decide)

/-! ## The calls of the loop -/

/-- A loop that finds a failure never ends. -/
theorem retry_failed {calls : List (List Attempt)} {b : Bound} (found : fails ≠ [])
    (ran : retry ssl server fails calls = some b) : b.answer = false := by
  induction calls generalizing server fails with
  | nil =>
    cases ran
    rfl
  | cons addrs later ih =>
    obtain ⟨c, call, rest⟩ := Option.bind_eq_some_iff.mp ran
    have no : c.answer = false := by
      rw [← Bool.not_eq_true, bind_answer call]
      exact fun both => found both.1
    rw [if_pos no] at rest
    refine ih ?_ rest
    rw [(bind_cases call).1]
    exact fun none => found (List.append_eq_nil_iff.mp none).1

/-- A loop whose last call finds every address free ends there only if it is the first. -/
theorem retry_answer {bad : List (List Attempt)} {good : List Attempt} {b : Bound}
    (failing : ∀ addrs ∈ bad, failed addrs ≠ []) (free : failed good = [])
    (ran : retry ssl server fails (bad ++ [good]) = some b) :
    b.answer = true ↔ fails = [] ∧ bad = [] := by
  cases bad with
  | nil =>
    obtain ⟨c, call, rest⟩ := Option.bind_eq_some_iff.mp ran
    have answered := bind_answer call
    rw [and_iff_left free] at answered
    rw [and_iff_left rfl, ← answered]
    split_ifs at rest with no
    · cases rest
      exact iff_of_false Bool.false_ne_true (by rw [no]; decide)
    · cases rest
      exact Iff.rfl
  | cons addrs later =>
    obtain ⟨c, call, rest⟩ := Option.bind_eq_some_iff.mp ran
    have fell := failing addrs List.mem_cons_self
    have no : c.answer = false := by
      rw [← Bool.not_eq_true, bind_answer call]
      exact fun both => fell both.2
    rw [if_pos no] at rest
    have found : c.fails ≠ [] := by
      rw [(bind_cases call).1]
      exact fun none => fell (List.append_eq_nil_iff.mp none).2
    rw [retry_failed found rest]
    exact iff_of_false (by decide) fun both => by cases both.2

/-- A call is all or nothing exactly when the caller's vector of failures is empty or the call
adds to it, and the loop ends with the first call that could succeed exactly when none was made
before. -/
theorem bind_iff (server : TcpServer) (fails : List Address) (ssl : Bool) :
    (∀ addrs, ((∀ a ∈ addrs, KnownFamily a.1) → ∃ b, server.bind addrs fails ssl = some b) ∧
      ∀ b, server.bind addrs fails ssl = some b →
        (AllOrNone server addrs fails ssl b ↔ (fails = [] ∨ failed addrs ≠ []))) ∧
    ∀ bad good, (∀ addrs ∈ bad, failed addrs ≠ []) → failed good = [] →
      ∀ b, retry ssl server fails (bad ++ [good]) = some b →
        (b.answer = true ↔ fails = [] ∧ bad = []) := by
  refine ⟨fun addrs => ⟨bind_known, fun b ran => allOrNone_iff ran⟩, ?_⟩
  intro bad good failing free b ran
  exact retry_answer failing free ran

/-- Every call succeeds. -/
def listening : Results :=
  { Sockets.failing with fd := 3, bound := true, listens := true }

/-- The first call of the loop, with one address that is free. -/
theorem bind_first : ∃ b, bind ⟨[], false⟩ [(Sockets.loopback, listening)] [] false = some b ∧
    AllOrNone ⟨[], false⟩ [(Sockets.loopback, listening)] [] false b := by
  obtain ⟨made, exact⟩ := (bind_iff ⟨[], false⟩ [] false).1 [(Sockets.loopback, listening)]
  obtain ⟨b, ran⟩ := made fun a inAddrs => by
    rw [List.mem_singleton.mp inAddrs]
    exact .inl rfl
  exact ⟨b, ran, (exact b ran).mpr (.inl rfl)⟩

/-- With a failure from before a call fails although every address is free, and the loop goes
on behind a failure. -/
theorem bind_again :
    ¬ (∀ server addrs fails ssl b, bind server addrs fails ssl = some b →
      AllOrNone server addrs fails ssl b) ∧
    ∃ b, retry false ⟨[], false⟩ [] ([[(Sockets.loopback, Sockets.failing)]] ++
      [[(Sockets.loopback, listening)]]) = some b ∧ b.answer = false := by
  constructor
  · intro all
    have law := all ⟨[], false⟩ [(Sockets.loopback, listening)] [Sockets.loopback] false _ rfl
    exact absurd (law.answer_iff.mpr rfl) (by decide)
  · exact ⟨_, rfl, rfl⟩

end TcpServer

end Sylar
