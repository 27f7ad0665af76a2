import Mathlib.Tactic.SplitIfs
import Sylar.Lib.Runs
import Sylar.Net.Address

/-!
# Sockets

`Socket` and `SSLSocket` of `socket.cpp`: making, binding, connecting and closing them. What
the system and the TLS library answer is a record of results, one for each operation.

* `connected_iff`: the runs in which a socket that says it is connected has a descriptor, and
  a `connect` that fails leaves it unconnected.
-/

namespace Sylar

/-- `Socket::Type`. -/
inductive SocketType where
  | TCP
  | UDP

/-- `Socket::UNIX`. -/
def afUnix : ℤ := 1

/-- `Socket`; `ssl` says whether it is an `SSLSocket`. -/
structure Socket where
  mSock : ℤ
  mFamily : ℤ
  mType : SocketType
  mProtocol : ℤ
  mIsConnected : Bool
  mLocalAddress : Option Address
  mRemoteAddress : Option Address
  ssl : Bool

/-- What the calls of one operation return. -/
structure Results where
  /-- `socket(..)`. -/
  fd : ℤ
  /-- `::bind(..)` is 0. -/
  bound : Bool
  /-- `::listen(..)` is 0. -/
  listens : Bool
  /-- `::connect(..)` is 0. -/
  connected : Bool
  /-- `connect_with_timeout(..)` is 0. -/
  connectedInTime : Bool
  /-- `::accept(..)`. -/
  accepted : ℤ
  /-- `FdMgr` has a context for it, of a socket that is not closed. -/
  known : Bool
  /-- What `getsockname` stores, if it does not fail. -/
  name : Option Address
  /-- What `getpeername` stores, if it does not fail. -/
  peer : Option Address
  /-- `SSL_connect` or `SSL_accept` returns 1. -/
  handshake : Bool

/-- The connection is made, in the time that is given or in any. -/
def Results.connects (r : Results) (timeoutMs : UInt64) : Bool :=
  if timeoutMs = -1 then r.connected else r.connectedInTime

namespace Socket

/-- The constructor. -/
def make (ssl : Bool) (family : ℤ) (type : SocketType) (protocol : ℤ) : Socket where
  mSock := -1
  mFamily := family
  mType := type
  mProtocol := protocol
  mIsConnected := false
  mLocalAddress := none
  mRemoteAddress := none
  ssl := ssl

/-- `isValid`. -/
def isValid (s : Socket) : Bool := s.mSock != -1

/-- The family of an address, as an `int`. -/
def familyOf (addr : Address) : ℤ := addr.getFamily.toNat

/-- The address that the two getters below fill in; there is none for other families, and
the getters go through the null pointer. -/
def hasAddress (s : Socket) : Bool :=
  s.mFamily == (afInet.toNat : ℤ) || s.mFamily == (afInet6.toNat : ℤ)

/-- A getter of an address, as far as the socket goes: one that is known is kept. It is `none`
where the getter crashes. -/
def getAddress (s : Socket) (known got : Option Address) (store : Address → Socket) :
    Option Socket :=
  if known.isSome = true then some s
  else if s.hasAddress = false then none
  else
    match got with
    | none => some s
    | some address => some (store address)

/-- `getLocalAddress`. -/
def getLocalAddress (s : Socket) (r : Results) : Option Socket :=
  s.getAddress s.mLocalAddress r.name fun address => { s with mLocalAddress := some address }

/-- `getRemoteAddress`. -/
def getRemoteAddress (s : Socket) (r : Results) : Option Socket :=
  s.getAddress s.mRemoteAddress r.peer fun address => { s with mRemoteAddress := some address }

/-- `newSock`. -/
def newSock (s : Socket) (r : Results) : Socket := { s with mSock := r.fd }

/-- `close`, as `Socket` and `SSLSocket` have it. -/
def close (s : Socket) : Socket × Bool :=
  if s.mIsConnected = false ∧ s.mSock = -1 then (s, true)
  else ({ s with mIsConnected := false, mSock := -1 }, false)

/-- A socket with a descriptor: its own, or a new one. -/
def opened (s : Socket) (r : Results) : Socket := if s.isValid = false then s.newSock r else s

/-- `bind`. -/
def bind (s : Socket) (addr : Address) (r : Results) : Option (Socket × Bool) :=
  let s := s.opened r
  if s.isValid = false then some (s, false)
  else if familyOf addr ≠ s.mFamily then some (s, false)
  else if r.bound = false then some (s, false)
  else (s.getLocalAddress r).map fun s => (s, true)

/-- `listen`. -/
def listen (s : Socket) (r : Results) : Bool :=
  if s.isValid = false then false
  else if r.listens = false then false
  else true

theorem listen_eq (s : Socket) (r : Results) : s.listen r = (s.isValid && r.listens) := by
  unfold listen
  cases s.isValid with
  | false => rfl
  | true =>
    cases r.listens with
    | false => rfl
    | true => rfl

/-- `Socket::connect`. -/
def connectTcp (s : Socket) (addr : Address) (timeoutMs : UInt64) (r : Results) :
    Option (Socket × Bool) :=
  let s := { s with mRemoteAddress := some addr }.opened r
  if s.isValid = false then some (s, false)
  else if familyOf addr ≠ s.mFamily then some (s, false)
  else if r.connects timeoutMs = false then some (s.close.1, false)
  else
    let s := { s with mIsConnected := true }
    do
      let s ← s.getRemoteAddress r
      let s ← s.getLocalAddress r
      some (s, true)

/-- `connect` of either class. -/
def connect (s : Socket) (addr : Address) (timeoutMs : UInt64) (r : Results) :
    Option (Socket × Bool) :=
  if s.ssl = false then s.connectTcp addr timeoutMs r
  else do
    let (s, v) ← s.connectTcp addr timeoutMs r
    if v = true then some (s, r.handshake) else some (s, v)

/-- `reconnect`. -/
def reconnect (s : Socket) (timeoutMs : UInt64) (r : Results) : Option (Socket × Bool) :=
  match s.mRemoteAddress with
  | none => some (s, false)
  | some addr => { s with mLocalAddress := none }.connect addr timeoutMs r

/-- `init` of either class. -/
def init (s : Socket) (sock : ℤ) (r : Results) : Option (Socket × Bool) :=
  if r.known = false then some (s, false)
  else do
    let s ← { s with mSock := sock, mIsConnected := true }.getLocalAddress r
    let s ← s.getRemoteAddress r
    if s.ssl = false then some (s, true) else some (s, r.handshake)

/-- `accept` of either class: the socket that it returns, `none` for `nullptr`. -/
def accept (s : Socket) (r : Results) : Option (Option Socket) :=
  let sock := make s.ssl s.mFamily s.mType s.mProtocol
  if r.accepted = -1 then some none
  else (sock.init r.accepted r).map fun i => if i.2 = true then some i.1 else none

end Socket

/-! ## The functions that make them -/

/-- The `Create` functions of both classes. -/
inductive Creation where
  | CreateTCP (address : Address)
  | CreateUDP (address : Address)
  | CreateTCPSocket
  | CreateUDPSocket
  | CreateTCPSocket6
  | CreateUDPSocket6
  | CreateUnixTCPSocket
  | CreateUnixUDPSocket
  | SSLCreateTCP (address : Address)
  | SSLCreateTCPSocket
  | SSLCreateTCPSocket6

namespace Creation

open Socket

/-- A UDP socket is opened at once, and taken for connected. -/
def openUdp (family : ℤ) (r : Results) : Socket :=
  { (make false family .UDP 0).newSock r with mIsConnected := true }

/-- The functions. -/
def create (r : Results) : Creation → Socket
  | CreateTCP address => make false (familyOf address) .TCP 0
  | CreateUDP address => openUdp (familyOf address) r
  | CreateTCPSocket => make false afInet.toNat .TCP 0
  | CreateUDPSocket => openUdp afInet.toNat r
  | CreateTCPSocket6 => make false afInet6.toNat .TCP 0
  | CreateUDPSocket6 => openUdp afInet6.toNat r
  | CreateUnixTCPSocket => make false afUnix .TCP 0
  | CreateUnixUDPSocket => make false afUnix .UDP 0
  | SSLCreateTCP address => make true (familyOf address) .TCP 0
  | SSLCreateTCPSocket => make true afInet.toNat .TCP 0
  | SSLCreateTCPSocket6 => make true afInet6.toNat .TCP 0

/-- The ones that open a UDP socket. -/
def opensUdp : Creation → Bool
  | CreateUDP _ => true
  | CreateUDPSocket => true
  | CreateUDPSocket6 => true
  | _ => false

end Creation

/-! ## Runs -/

/-- An operation on one socket. -/
inductive SocketOp where
  | bind (addr : Address)
  | listen
  | connect (addr : Address) (timeoutMs : UInt64)
  | reconnect (timeoutMs : UInt64)
  | accept
  | close

namespace SocketOp

open Socket

/-- What an operation does: the socket behind it, its answer, and a socket that it made. -/
def perform (s : Socket) (r : Results) : SocketOp → Option (Socket × Bool × Option Socket)
  | bind addr => (s.bind addr r).map fun t => (t.1, t.2, none)
  | listen => some (s, s.listen r, none)
  | connect addr timeoutMs => (s.connect addr timeoutMs r).map fun t => (t.1, t.2, none)
  | reconnect timeoutMs => (s.reconnect timeoutMs r).map fun t => (t.1, t.2, none)
  | accept => (s.accept r).map fun made => (s, made.isSome, made)
  | close => some (s.close.1, s.close.2, none)

/-- The address that the operation connects to, by `connect` or by `reconnect`, and in which
time. -/
def target (s : Socket) : SocketOp → Option (Address × UInt64)
  | connect addr timeoutMs => some (addr, timeoutMs)
  | reconnect timeoutMs => s.mRemoteAddress.map fun addr => (addr, timeoutMs)
  | _ => none

end SocketOp

/-- A step: a new socket, or an operation on the one with number `i`. -/
inductive SocketStep where
  | create (how : Creation) (r : Results)
  | call (i : ℕ) (op : SocketOp) (r : Results)

namespace Sockets

/-- One step of all sockets that were made. -/
def step (socks : List Socket) : SocketStep → Option (List Socket)
  | .create how r => some (socks ++ [how.create r])
  | .call i op r => do
    let s ← socks[i]?
    let t ← op.perform s r
    some (socks.set i t.1 ++ t.2.2.toList)

/-- A socket that says it is connected has a descriptor. -/
def Sound (s : Socket) : Prop := s.mIsConnected = true → s.isValid = true

/-- A `connect` of a socket that was not connected leaves it so when it answers `false`. -/
def Clears (socks : List Socket) : SocketStep → Prop
  | .create _ _ => True
  | .call i op r => ∀ s, socks[i]? = some s → (op.target s).isSome = true → s.mIsConnected = false →
    ∀ t, op.perform s r = some t → t.2.1 = false → t.1.mIsConnected = false

/-- The TCP connection comes about. -/
def getsThrough (s : Socket) (addr : Address) (timeoutMs : UInt64) (r : Results) : Bool :=
  (s.isValid || r.fd != -1) && Socket.familyOf addr == s.mFamily
    && r.connects timeoutMs

/-- A UDP socket is made with a descriptor, and over a new TCP connection the handshake
succeeds. -/
def Succeeds (socks : List Socket) : SocketStep → Prop
  | .create how r => how.opensUdp = true → r.fd ≠ -1
  | .call i op r => ∀ s, socks[i]? = some s → s.ssl = true → s.mIsConnected = false →
    ∀ addr timeoutMs, op.target s = some (addr, timeoutMs) → getsThrough s addr timeoutMs r = true →
    r.handshake = true

variable {s u : Socket} {addr : Address} {timeoutMs : UInt64} {r : Results} {v : Bool}

/-! ## What the operations do -/

theorem getAddress_cases {known got : Option Address} {store : Address → Socket}
    (ran : s.getAddress known got store = some u) : u = s ∨ ∃ address, u = store address := by
  unfold Socket.getAddress at ran
  split_ifs at ran with found unix
  · exact .inl (Option.some.inj ran).symm
  · cases got with
    | none => exact .inl (Option.some.inj ran).symm
    | some address => exact .inr ⟨address, (Option.some.inj ran).symm⟩

theorem getAddress_known {known got : Option Address} {store : Address → Socket}
    (has : s.hasAddress = true) : ∃ u, s.getAddress known got store = some u := by
  unfold Socket.getAddress
  split_ifs with found other
  · exact ⟨s, rfl⟩
  · exact absurd (has.symm.trans other) (by decide)
  · cases got with
    | none => exact ⟨s, rfl⟩
    | some address => exact ⟨store address, rfl⟩

theorem getLocalAddress_keeps (got : s.getLocalAddress r = some u) :
    u.mSock = s.mSock ∧ u.mIsConnected = s.mIsConnected := by
  rcases getAddress_cases got with rfl | ⟨address, rfl⟩
  · exact ⟨rfl, rfl⟩
  · exact ⟨rfl, rfl⟩

theorem getRemoteAddress_keeps (got : s.getRemoteAddress r = some u) :
    u.mSock = s.mSock ∧ u.mIsConnected = s.mIsConnected := by
  rcases getAddress_cases got with rfl | ⟨address, rfl⟩
  · exact ⟨rfl, rfl⟩
  · exact ⟨rfl, rfl⟩

theorem isValid_iff : s.isValid = true ↔ s.mSock ≠ -1 := bne_iff_ne

theorem Sound.of_keeps (sound : Sound s) (sock : u.mSock = s.mSock)
    (connected : u.mIsConnected = s.mIsConnected) : Sound u := by
  intro here
  rw [isValid_iff, sock, ← isValid_iff]
  exact sound (connected ▸ here)

/-- A socket opens a descriptor only where it has none. -/
theorem Sound.opened (sound : Sound s) : Sound (s.opened r) := by
  unfold Socket.opened
  split_ifs with invalid
  · intro connected
    exact absurd (sound connected) (by rw [invalid]; decide)
  · exact sound

theorem Sound.close (s : Socket) : Sound s.close.1 := by
  intro connected
  unfold Socket.close at connected ⊢
  split_ifs at connected ⊢ with closed
  exact absurd (connected.symm.trans closed.1) (by decide)

theorem close_clears (s : Socket) : s.close.1.mIsConnected = false := by
  unfold Socket.close
  split_ifs with closed
  · exact closed.1
  · rfl

theorem bind_sound (sound : Sound s) (ran : s.bind addr r = some (u, v)) : Sound u := by
  simp only [Socket.bind] at ran
  split_ifs at ran with invalid other unbound
  · cases ran
    exact sound.opened
  · cases ran
    exact sound.opened
  · cases ran
    exact sound.opened
  · obtain ⟨t, got, same⟩ := Option.map_eq_some_iff.mp ran
    cases same
    obtain ⟨sock, connected⟩ := getLocalAddress_keeps got
    exact sound.opened.of_keeps sock connected

theorem opened_isValid : (s.opened r).isValid = (s.isValid || r.fd != -1) := by
  unfold Socket.opened
  split_ifs with invalid
  · rw [invalid]
    rfl
  · rw [Bool.not_eq_false] at invalid
    rw [invalid]
    rfl

theorem opened_mIsConnected : (s.opened r).mIsConnected = s.mIsConnected := by
  unfold Socket.opened
  split_ifs with invalid
  · rfl
  · rfl

/-- `Socket::connect` answers whether the connection comes about. A socket that was not
connected is so afterwards exactly then. -/
theorem connectTcp_cases (ran : s.connectTcp addr timeoutMs r = some (u, v)) :
    v = getsThrough s addr timeoutMs r ∧ (Sound s → Sound u) ∧ (s.mIsConnected = false →
      u.mIsConnected = v) := by
  have remote : Socket.isValid { s with mRemoteAddress := some addr } = s.isValid := rfl
  have family : (Socket.opened { s with mRemoteAddress := some addr } r).mFamily = s.mFamily := by
    unfold Socket.opened
    split_ifs with invalid
    · rfl
    · rfl
  have connected : (Socket.opened { s with mRemoteAddress := some addr } r).mIsConnected =
      s.mIsConnected := opened_mIsConnected
  have sound_opened : Sound s → Sound (Socket.opened { s with mRemoteAddress := some addr } r) :=
    fun sound => Sound.opened (s := { s with mRemoteAddress := some addr }) sound
  have valid : (Socket.opened { s with mRemoteAddress := some addr } r).isValid =
      (s.isValid || r.fd != -1) := opened_isValid
  simp only [Socket.connectTcp, valid, family] at ran
  unfold getsThrough
  split_ifs at ran with closed other refused
  · cases ran
    rw [closed]
    exact ⟨rfl, sound_opened, fun idle => connected.trans idle⟩
  · cases ran
    rw [beq_false_of_ne other, Bool.and_false]
    exact ⟨rfl, sound_opened, fun idle => connected.trans idle⟩
  · cases ran
    rw [refused, Bool.and_false]
    exact ⟨rfl, fun _ => Sound.close _, fun _ => close_clears _⟩
  · obtain ⟨t, gotRemote, later⟩ := Option.bind_eq_some_iff.mp ran
    obtain ⟨w, gotLocal, same⟩ := Option.bind_eq_some_iff.mp later
    cases same
    obtain ⟨sock, here⟩ := getLocalAddress_keeps gotLocal
    obtain ⟨sock', here'⟩ := getRemoteAddress_keeps gotRemote
    rw [Bool.not_eq_false] at closed refused
    rw [closed, not_not.mp other, refused, beq_self_eq_true]
    refine ⟨rfl, fun _ _ => ?_, fun _ => here.trans here'⟩
    rw [isValid_iff, sock, sock', ← isValid_iff]
    exact valid.trans closed

/-- `connect` of either class. -/
theorem connect_cases (ran : s.connect addr timeoutMs r = some (u, v)) :
    v = (getsThrough s addr timeoutMs r && (!s.ssl || r.handshake)) ∧ (Sound s → Sound u) ∧
      (s.mIsConnected = false → u.mIsConnected = getsThrough s addr timeoutMs r) := by
  unfold Socket.connect at ran
  split_ifs at ran with plain
  · obtain ⟨answer, sound, after⟩ := connectTcp_cases ran
    rw [plain, ← answer]
    exact ⟨(Bool.and_true v).symm, sound, after⟩
  · rw [Bool.not_eq_false] at plain
    obtain ⟨⟨t, through⟩, tcp, later⟩ := Option.bind_eq_some_iff.mp ran
    obtain ⟨answer, sound, after⟩ := connectTcp_cases tcp
    rw [plain, ← answer]
    simp only at later
    split_ifs at later with yes
    · cases later
      rw [yes] at after ⊢
      exact ⟨rfl, sound, after⟩
    · rw [Bool.not_eq_true] at yes
      cases later
      rw [yes] at after ⊢
      exact ⟨rfl, sound, after⟩

/-- Where an operation connects, it is `connect` to its target. -/
theorem perform_target {op : SocketOp} (aims : op.target s = some (addr, timeoutMs)) :
    ∃ s' : Socket, s'.mSock = s.mSock ∧ s'.mFamily = s.mFamily ∧ s'.ssl = s.ssl ∧
      s'.mIsConnected = s.mIsConnected ∧
      op.perform s r = (s'.connect addr timeoutMs r).map fun t => (t.1, t.2, none) := by
  cases op with
  | connect a t =>
    cases aims
    exact ⟨s, rfl, rfl, rfl, rfl, rfl⟩
  | reconnect t =>
    obtain ⟨a, remote, same⟩ := Option.map_eq_some_iff.mp aims
    cases same
    refine ⟨{ s with mLocalAddress := none }, rfl, rfl, rfl, rfl, ?_⟩
    rw [SocketOp.perform, Socket.reconnect, remote]
  | bind a => cases aims
  | listen => cases aims
  | accept => cases aims
  | close => cases aims

theorem getsThrough_congr {s' : Socket} (sock : s'.mSock = s.mSock)
    (family : s'.mFamily = s.mFamily) :
    getsThrough s' addr timeoutMs r = getsThrough s addr timeoutMs r := by
  unfold getsThrough Socket.isValid
  rw [sock, family]

/-- A socket that comes out of `accept` has a descriptor. -/
theorem accept_sound {made : Socket} (ran : s.accept r = some (some made)) : Sound made := by
  simp only [Socket.accept] at ran
  split_ifs at ran with failed
  · cases ran
  obtain ⟨⟨client, taken⟩, opened, same⟩ := Option.map_eq_some_iff.mp ran
  obtain ⟨rfl, same⟩ := Option.ite_none_right_eq_some.mp same
  cases same
  unfold Socket.init at opened
  split_ifs at opened with unknown
  · cases opened
  obtain ⟨t, gotLocal, later⟩ := Option.bind_eq_some_iff.mp opened
  obtain ⟨w, gotRemote, last⟩ := Option.bind_eq_some_iff.mp later
  have sock := (getRemoteAddress_keeps gotRemote).1.trans (getLocalAddress_keeps gotLocal).1
  have stored : client = w := by
    split_ifs at last with plain
    · exact (congrArg Prod.fst (Option.some.inj last)).symm
    · exact (congrArg Prod.fst (Option.some.inj last)).symm
  intro _
  rw [isValid_iff, stored, sock]
  exact failed

/-- An operation keeps its socket sound, and makes a sound one. -/
theorem perform_sound {op : SocketOp} {made : Option Socket} (sound : Sound s)
    (ran : op.perform s r = some (u, v, made)) : Sound u ∧ ∀ t ∈ made, Sound t := by
  have nobody : ∀ t ∈ (none : Option Socket), Sound t := fun t none => by cases none
  cases aims : op.target s with
  | some aim =>
    obtain ⟨addr, timeoutMs⟩ := aim
    obtain ⟨s', sock, -, -, connected, performed⟩ := perform_target (r := r) aims
    rw [performed] at ran
    obtain ⟨⟨t, w⟩, run, same⟩ := Option.map_eq_some_iff.mp ran
    cases same
    exact ⟨(connect_cases run).2.1 (sound.of_keeps sock connected), nobody⟩
  | none =>
    cases op with
    | bind a =>
      obtain ⟨⟨t, w⟩, run, same⟩ := Option.map_eq_some_iff.mp ran
      cases same
      exact ⟨bind_sound sound run, nobody⟩
    | listen =>
      cases ran
      exact ⟨sound, nobody⟩
    | connect a t => cases aims
    | reconnect t =>
      have remote : s.mRemoteAddress = none := Option.map_eq_none_iff.mp aims
      rw [SocketOp.perform, Socket.reconnect, remote] at ran
      cases ran
      exact ⟨sound, nobody⟩
    | accept =>
      obtain ⟨t, run, same⟩ := Option.map_eq_some_iff.mp ran
      cases same
      refine ⟨sound, fun w inMade => ?_⟩
      cases inMade
      exact accept_sound run
    | close =>
      cases ran
      exact ⟨Sound.close s, nobody⟩

/-- A new socket is sound, unless it is a UDP socket without a descriptor. -/
theorem create_sound_iff (how : Creation) :
    Sound (how.create r) ↔ (how.opensUdp = true → r.fd ≠ -1) := by
  have unconnected (ssl : Bool) (family : ℤ) (type : SocketType) :
      Sound (Socket.make ssl family type 0) := fun connected => by cases connected
  have udp (family : ℤ) : Sound (Creation.openUdp family r) ↔ r.fd ≠ -1 := by
    constructor
    · intro sound
      exact isValid_iff.mp (sound rfl)
    · intro opened _
      exact isValid_iff.mpr opened
  cases how with
  | CreateUDP address => exact (udp _).trans ⟨fun opened _ => opened, fun opened => opened rfl⟩
  | CreateUDPSocket => exact (udp _).trans ⟨fun opened _ => opened, fun opened => opened rfl⟩
  | CreateUDPSocket6 => exact (udp _).trans ⟨fun opened _ => opened, fun opened => opened rfl⟩
  | CreateTCP address => exact iff_of_true (unconnected _ _ _) fun tcp => by cases tcp
  | CreateTCPSocket => exact iff_of_true (unconnected _ _ _) fun tcp => by cases tcp
  | CreateTCPSocket6 => exact iff_of_true (unconnected _ _ _) fun tcp => by cases tcp
  | CreateUnixTCPSocket => exact iff_of_true (unconnected _ _ _) fun tcp => by cases tcp
  | CreateUnixUDPSocket => exact iff_of_true (unconnected _ _ _) fun tcp => by cases tcp
  | SSLCreateTCP address => exact iff_of_true (unconnected _ _ _) fun tcp => by cases tcp
  | SSLCreateTCPSocket => exact iff_of_true (unconnected _ _ _) fun tcp => by cases tcp
  | SSLCreateTCPSocket6 => exact iff_of_true (unconnected _ _ _) fun tcp => by cases tcp

/-- An operation leaves all sockets sound. -/
theorem call_sound {socks later : List Socket} {i : ℕ} {op : SocketOp}
    (sound : ∀ s ∈ socks, Sound s) (ran : step socks (.call i op r) = some later) :
    ∀ s ∈ later, Sound s := by
  obtain ⟨s, here, rest⟩ := Option.bind_eq_some_iff.mp ran
  obtain ⟨⟨u, v, made⟩, run, same⟩ := Option.bind_eq_some_iff.mp rest
  cases same
  obtain ⟨kept, fresh⟩ := perform_sound (sound s (List.mem_of_getElem? here)) run
  intro t inLater
  rcases List.mem_append.mp inLater with old | new
  · rcases List.mem_or_eq_of_mem_set old with before | rfl
    · exact sound t before
    · exact kept
  · exact fresh t (Option.mem_toList.mp new)

/-- The socket that an operation connects is left unconnected after a failure, unless the
connection came about and the handshake then failed. -/
theorem clears_iff {socks later : List Socket} {i : ℕ} {op : SocketOp}
    (ran : step socks (.call i op r) = some later) :
    Clears socks (.call i op r) ↔ Succeeds socks (.call i op r) := by
  obtain ⟨s, here, rest⟩ := Option.bind_eq_some_iff.mp ran
  obtain ⟨⟨u, v, made⟩, run, -⟩ := Option.bind_eq_some_iff.mp rest
  have connects {addr : Address} {timeoutMs : UInt64} (idle : s.mIsConnected = false)
      (aims : op.target s = some (addr, timeoutMs)) :
      v = (getsThrough s addr timeoutMs r && (!s.ssl || r.handshake)) ∧
        u.mIsConnected = getsThrough s addr timeoutMs r := by
    obtain ⟨s', sock, family, ssl, connected, performed⟩ := perform_target (r := r) aims
    obtain ⟨⟨w, answer⟩, connect, same⟩ := Option.map_eq_some_iff.mp (performed.symm.trans run)
    cases same
    obtain ⟨answered, -, after⟩ := connect_cases connect
    rw [getsThrough_congr sock family] at answered after
    rw [ssl] at answered
    exact ⟨answered, after (connected.trans idle)⟩
  constructor
  · intro clears s' here' ssl idle addr timeoutMs aims through
    obtain rfl := Option.some.inj (here.symm.trans here')
    obtain ⟨answered, after⟩ := connects idle aims
    by_contra failed
    rw [Bool.not_eq_true] at failed
    rw [through, ssl, failed] at answered
    have cleared := clears s here (by rw [aims]; rfl) idle (u, v, made) run answered
    exact Bool.false_ne_true (cleared.symm.trans (after.trans through))
  · intro succeeds s' here' aims idle t run' failed
    obtain rfl := Option.some.inj (here.symm.trans here')
    obtain rfl := Option.some.inj (run.symm.trans run')
    obtain ⟨⟨addr, timeoutMs⟩, aims⟩ := Option.isSome_iff_exists.mp aims
    obtain ⟨answered, after⟩ := connects idle aims
    rw [after]
    by_contra through
    rw [Bool.not_eq_false] at through
    have done : (!s.ssl || r.handshake) = true := by
      cases ssl : s.ssl with
      | false => rfl
      | true => exact succeeds s here ssl idle addr timeoutMs aims through
    rw [through, done] at answered
    exact Bool.false_ne_true (failed.symm.trans answered)

theorem step_iff {socks later : List Socket} {a : SocketStep} (sound : ∀ s ∈ socks, Sound s)
    (ran : step socks a = some later) :
    (∀ s ∈ later, Sound s) ∧ Clears socks a ↔ Succeeds socks a := by
  cases a with
  | create how r =>
    cases ran
    refine Iff.trans ⟨fun both => ?_, fun new => ⟨fun s inLater => ?_, trivial⟩⟩
      (create_sound_iff how)
    · exact both.1 _ (List.mem_append_right _ (List.mem_singleton_self _))
    · rcases List.mem_append.mp inLater with old | made
      · exact sound s old
      · rw [List.mem_singleton.mp made]
        exact new
  | call i op r =>
    rw [clears_iff ran]
    exact and_iff_right (call_sound sound ran)

/-- In a run every socket that says it is connected has a descriptor, and a `connect` that
fails leaves its socket unconnected, exactly when each step of it succeeds: a UDP socket is
opened, and the handshake of a new connection is done. -/
theorem connected_iff (as : List SocketStep) :
    Runs.Always step (fun socks => ∀ s ∈ socks, Sound s) [] as ∧ Runs.Along step Clears [] as ↔
      Runs.Along step Succeeds [] as :=
  Runs.always_and_along_iff step_iff fun _ none => absurd none List.not_mem_nil

/-- No call succeeds. -/
def failing : Results where
  fd := -1
  bound := false
  listens := false
  connected := false
  connectedInTime := false
  accepted := -1
  known := false
  name := none
  peer := none
  handshake := false

/-- All but the handshake does. -/
def unshaken : Results :=
  { failing with fd := 3, connected := true, connectedInTime := true }

/-- Port 80 of 127.0.0.1. -/
def loopback : Address := .ipv4 ⟨⟨afInet, byteswap16 80, 0x0100007f, Vector.replicate 8 0⟩⟩

/-- A UDP socket without a descriptor is connected, and so is an SSL socket whose handshake
failed. -/
theorem connected_unsound : ¬ (∀ as, Runs.Always step (fun socks => ∀ s ∈ socks, Sound s) [] as) ∧
    ¬ (∀ as, Runs.Along step Clears [] as) := by
  constructor
  · intro sound
    have last := (sound [.create .CreateUDPSocket failing]).last rfl
    exact absurd (last _ (List.mem_singleton_self _) rfl) (by decide)
  · intro clears
    have both := clears [.create .SSLCreateTCPSocket failing,
      .call 0 (.connect loopback (-1)) unshaken]
    have cleared := ((both _ rfl).2 _ rfl).1 _ rfl rfl rfl _ rfl rfl
    exact absurd cleared (by decide)

end Sockets

end Sylar
