import Mathlib.Data.Int.Notation
import Mathlib.Tactic.SplitIfs
import Sylar.Net.Address
import Sylar.Util.Text

/-!
# Resolving a name

`Address::Lookup` of `address.cpp` and the two functions over it. A service stands behind the
node in brackets, with a colon in front; `Lookup` searches for the first colon of the whole
text, which is one of the node where the node has one.

* `lookup_call_iff`: when `getaddrinfo` is called with the node and the service.
* `lookupAnyIPAddress_eq`: the address that `LookupAny` finds is the one that
  `LookupAnyIPAddress` finds.
-/

namespace Sylar

open Bytes

/-- `sockaddr`, as `getaddrinfo` returns them. -/
inductive Sockaddr where
  | inet (address : SockaddrIn)
  | inet6 (address : SockaddrIn6)
  | other

/-- The fields of `hints` that are not zero. -/
structure Addrinfo where
  aiFamily : ℤ
  aiSocktype : ℤ
  aiProtocol : ℤ

/-- A call of `getaddrinfo`; the service is `none` for `nullptr`. -/
structure GetaddrinfoCall where
  node : Bytes
  service : Option Bytes
  hints : Addrinfo

/-- What `Lookup` does: its answer, what `result` is then, and its call of `getaddrinfo`. -/
structure LookupOutcome where
  answer : Bool
  result : List (Option Address)
  call : Option GetaddrinfoCall

namespace Address

/-- `Create`; `none` for `nullptr`. -/
def create : Option Sockaddr → Option Address
  | none => none
  | some (.inet address) => some (.ipv4 ⟨address⟩)
  | some (.inet6 address) => some (.ipv6 ⟨address⟩)
  | some .other => none

/-- The node and the service of a host, as `Lookup` cuts them out; `none` where it gives up. -/
def cutHost (host : Bytes) : Option (Bytes × Bytes) :=
  let itLeft := find host (byte '[') 0
  let itMid := find host (byte ':') 0
  let itRight := find host (byte ']') 0
  match itLeft with
  | none => some (host, [])
  | some left =>
    match itMid, itRight with
    | some mid, some right =>
      -- `it_right - it_mid - 1` wraps where the bracket comes first
      some (substr host 0 (some left),
        substr host (mid + 1) (if mid < right then some (right - mid - 1) else none))
    | _, _ => none

variable (getaddrinfo : GetaddrinfoCall → Option (List (Option Sockaddr)))

/-- `Lookup`. `getaddrinfo` gives the addresses of a list, or an error. -/
def lookup (result : List (Option Address)) (host : Bytes) (family type protocol : ℤ) :
    LookupOutcome :=
  match cutHost host with
  | none => ⟨false, result, none⟩
  | some (node, service) =>
    if node = [] then ⟨false, result, none⟩
    else
      let call : GetaddrinfoCall :=
        ⟨cStr node, if service = [] then none else some (cStr service), ⟨family, type, protocol⟩⟩
      match getaddrinfo call with
      | none => ⟨false, result, some call⟩
      | some results =>
        let result := result ++ results.map create
        ⟨!result.isEmpty, result, some call⟩

/-- `LookupAny`. -/
def lookupAny (host : Bytes) (family type protocol : ℤ) : Option Address :=
  let outcome := lookup getaddrinfo [] host family type protocol
  if outcome.answer = true then outcome.result.head?.join else none

/-- `LookupAnyIPAddress`: both classes of addresses are `IPAddress`es. -/
def lookupAnyIPAddress (host : Bytes) (family type protocol : ℤ) : Option Address :=
  let outcome := lookup getaddrinfo [] host family type protocol
  if outcome.answer = true then outcome.result.findSome? id else none

/-! ## The call -/

section Call

variable {getaddrinfo} {result : List (Option Address)} {host node service : Bytes}
  {family type protocol : ℤ}

/-- `getaddrinfo` is called with what was cut out, up to the first NUL. -/
theorem lookup_call (cut : cutHost host = some (node, service)) (named : node ≠ []) :
    (lookup getaddrinfo result host family type protocol).call =
      some ⟨cStr node, if service = [] then none else some (cStr service),
        ⟨family, type, protocol⟩⟩ := by
  rw [lookup, cut]
  simp only [if_neg named]
  cases getaddrinfo _ with
  | none => rfl
  | some results => rfl

theorem lookup_call_nil (cut : cutHost host = some ([], service)) :
    (lookup getaddrinfo result host family type protocol).call = none := by
  rw [lookup, cut]
  simp only [if_true]

theorem cutHost_plain (plain : byte '[' ∉ host) : cutHost host = some (host, []) := by
  have none_found : find host (byte '[') 0 = none := find_none plain
  simp only [cutHost, none_found]

/-- A node with a service, as far as the closing bracket. -/
def withService (node service : Bytes) : Bytes := node ++ byte '[' :: byte ':' :: service

/-- A host with a service is cut at its bracket and behind its first colon. -/
theorem cutHost_service (free : byte '[' ∉ node) (closed : byte ']' ∉ withService node service)
    {front rest : Bytes} (parts : withService node service = front ++ byte ':' :: rest)
    (first : byte ':' ∉ front) :
    cutHost (withService node service ++ lit "]") = some (node, rest) := by
  have left : find (withService node service ++ lit "]") (byte '[') 0 = some (0 + node.length) :=
    find_append (List.append_assoc node _ _) free
  have mid : find (withService node service ++ lit "]") (byte ':') 0 = some (0 + front.length) := by
    rw [parts, List.append_assoc]
    exact find_append rfl first
  have right : find (withService node service ++ lit "]") (byte ']') 0 =
      some (0 + (withService node service).length) := find_append rfl closed
  have length : (withService node service).length = front.length + (rest.length + 1) := by
    rw [parts, List.length_append, List.length_cons]
  have inside : 0 + front.length < 0 + (withService node service).length := by omega
  have count : 0 + (withService node service).length - (0 + front.length) - 1 = rest.length := by
    omega
  have nodePart :
      substr (withService node service ++ lit "]") 0 (some (0 + node.length)) = node := by
    rw [Nat.zero_add]
    exact substr_append (List.append_assoc node _ _)
  have servicePart : substr (withService node service ++ lit "]") (0 + front.length + 1)
      (some rest.length) = rest := by
    apply substr_append
    rw [parts, Nat.zero_add, ← List.drop_drop, List.append_assoc, List.drop_left]
    rfl
  simp only [cutHost, left, mid, right, if_pos inside, count, nodePart, servicePart]

/-- What stands behind a colon of the node is not the service. -/
theorem cStr_ne_service {rest : Bytes} (clean : 0 ∉ rest) :
    cStr (withService rest service) ≠ service := by
  intro same
  have free : 0 ∉ service := by
    rw [← same]
    exact zero_not_mem_cStr _
  have front : 0 ∉ rest ++ lit "[:" := by
    rw [List.mem_append]
    exact fun nul => nul.elim clean (by decide)
  have split : withService rest service = rest ++ lit "[:" ++ service :=
    (List.append_assoc rest (lit "[:") service).symm
  rw [split, cStr_append front, cStr_eq_self free] at same
  have lengths := congrArg List.length same
  have two : (lit "[:").length = 2 := rfl
  rw [List.length_append, List.length_append, two] at lengths
  omega

/-- The texts that the call is made with are the node and the service. -/
theorem called_iff {cutService : Bytes} {hints : Addrinfo} :
    (some (⟨cStr node, if cutService = [] then none else some (cStr cutService), hints⟩ :
        GetaddrinfoCall) = some ⟨node, if service = [] then none else some service, hints⟩) ↔
      0 ∉ node ∧ ((cutService = [] ∧ service = []) ∨
        (cutService ≠ [] ∧ service ≠ [] ∧ cStr cutService = service)) := by
  rw [Option.some.injEq, GetaddrinfoCall.mk.injEq, cStr_eq_iff]
  by_cases noCut : cutService = []
  · by_cases noService : service = []
    · simp [noCut, noService]
    · simp [noCut, noService]
  · by_cases noService : service = []
    · simp [noCut, noService]
    · simp [noCut, noService]

/-- Behind a node with a colon the service is lost; behind another it is cut out whole. -/
theorem lookup_call_service_iff (named : node ≠ []) (free : byte '[' ∉ node)
    (closing : byte ']' ∉ withService node service) :
    (lookup getaddrinfo result (withService node service ++ lit "]") family type protocol).call =
        some ⟨node, if service = [] then none else some service, ⟨family, type, protocol⟩⟩ ↔
      byte ':' ∉ node ∧ 0 ∉ node ∧ 0 ∉ service := by
  by_cases inNode : byte ':' ∈ node
  · obtain ⟨front, rest, parts, first⟩ := List.eq_append_cons_of_mem inNode
    have whole : withService node service = front ++ byte ':' :: withService rest service := by
      rw [withService, parts, List.append_assoc]
      rfl
    rw [lookup_call (cutHost_service free closing whole first) named, called_iff]
    constructor
    · rintro ⟨clean, ⟨nothing, -⟩ | ⟨-, -, same⟩⟩
      · exact absurd nothing (List.append_ne_nil_of_right_ne_nil _ (List.cons_ne_nil _ _))
      · refine absurd same (cStr_ne_service fun nul => clean ?_)
        rw [parts]
        exact List.mem_append_right _ (List.mem_cons_of_mem _ nul)
    · rintro ⟨noColon, -⟩
      exact absurd inNode noColon
  · have whole : withService node service = (node ++ [byte '[']) ++ byte ':' :: service :=
      (List.append_assoc node [byte '['] _).symm
    have first : byte ':' ∉ node ++ [byte '['] := by
      rw [List.mem_append]
      exact fun colon => colon.elim inNode (by decide)
    rw [lookup_call (cutHost_service free closing whole first) named, called_iff, cStr_eq_iff]
    by_cases noService : service = []
    · simp [noService, inNode]
    · simp [noService, inNode]

theorem lookup_call_plain_iff (plain : byte '[' ∉ host) :
    (lookup getaddrinfo result host family type protocol).call =
        some ⟨host, none, ⟨family, type, protocol⟩⟩ ↔ host ≠ [] ∧ 0 ∉ host := by
  by_cases empty : host = []
  · rw [empty, lookup_call_nil (cutHost_plain List.not_mem_nil)]
    exact iff_of_false nofun fun both => both.1 rfl
  · rw [lookup_call (cutHost_plain plain) empty]
    simp [cStr_eq_iff, empty]

/-- Where a node stands in front of a service, `getaddrinfo` is called with both exactly when
the node has no colon and neither of them a NUL. A host without a bracket is passed whole
exactly when it is not empty and has no NUL. -/
theorem lookup_call_iff (getaddrinfo : GetaddrinfoCall → Option (List (Option Sockaddr)))
    (result : List (Option Address)) (family type protocol : ℤ) (node service host : Bytes)
    (named : node ≠ []) (free : byte '[' ∉ node) (closed : byte ']' ∉ node)
    (ended : byte ']' ∉ service) (plain : byte '[' ∉ host) :
    ((lookup getaddrinfo result (node ++ lit "[:" ++ service ++ lit "]") family type
        protocol).call =
        some ⟨node, if service = [] then none else some service, ⟨family, type, protocol⟩⟩ ↔
      byte ':' ∉ node ∧ 0 ∉ node ∧ 0 ∉ service) ∧
    ((lookup getaddrinfo result host family type protocol).call =
        some ⟨host, none, ⟨family, type, protocol⟩⟩ ↔
      host ≠ [] ∧ 0 ∉ host) := by
  have form : node ++ lit "[:" ++ service ++ lit "]" = withService node service ++ lit "]" := by
    rw [List.append_assoc node]
    rfl
  have closing : byte ']' ∉ withService node service := by
    have marks : byte ']' ≠ byte '[' ∧ byte ']' ≠ byte ':' := by decide
    simp [withService, closed, ended, marks]
  rw [form]
  exact ⟨lookup_call_service_iff named free closing, lookup_call_plain_iff plain⟩

end Call

/-- A resolver without a network: numeric addresses, for their own family, and the services
`80` and `8033`. -/
def numericHosts (call : GetaddrinfoCall) : Option (List (Option Sockaddr)) :=
  let port : Option UInt16 :=
    match call.service with
    | none => some 0
    | some text =>
      if text = lit "80" then some 80 else if text = lit "8033" then some 8033 else none
  port.bind fun port =>
    if call.node = lit "127.0.0.0" ∧ call.hints.aiFamily = 2 then
      some [some (.inet ⟨afInet, byteswap16 port, 0x0000007f, Vector.replicate 8 0⟩)]
    else if call.node = lit "::1" ∧ call.hints.aiFamily = 10 then
      some [some (.inet6 ⟨afInet6, byteswap16 port, 0, (Vector.replicate 15 0).push 1, 0⟩)]
    else none

/-- The host of the server's test, and a literal address without a service. -/
theorem lookup_call_test :
    (lookup numericHosts [] (lit "127.0.0.0[:8033]") 2 0 0).call =
        some ⟨lit "127.0.0.0", some (lit "8033"), ⟨2, 0, 0⟩⟩ ∧
      (lookup numericHosts [] (lit "::1") 2 0 0).call = some ⟨lit "::1", none, ⟨2, 0, 0⟩⟩ := by
  obtain ⟨service, whole⟩ := lookup_call_iff numericHosts [] 2 0 0 (lit "127.0.0.0") (lit "8033")
    (lit "::1") (by decide) (by decide) (by decide) (by decide) (by decide)
  exact ⟨service.mpr (by decide), whole.mpr (by decide)⟩

/-- The first colon of a host is one of the address, and what stands behind it is no service. -/
theorem lookup_call_literal :
    let call := (lookup numericHosts [] (lit "::1" ++ lit "[:" ++ lit "80" ++ lit "]") 10 0 0).call
    call = some ⟨lit "::1", some (lit ":1[:80"), ⟨10, 0, 0⟩⟩ ∧
      call ≠ some ⟨lit "::1", some (lit "80"), ⟨10, 0, 0⟩⟩ := by
  intro call
  have cut : cutHost (lit "::1[:80]") = some (lit "::1", lit ":1[:80") := by decide +kernel
  have called : call = some ⟨lit "::1", some (lit ":1[:80"), ⟨10, 0, 0⟩⟩ :=
    lookup_call cut (by decide)
  refine ⟨called, fun same => ?_⟩
  have services := congrArg GetaddrinfoCall.service (Option.some.inj (called.symm.trans same))
  exact absurd services (by decide)

/-! ## One address -/

/-- `LookupAnyIPAddress` passes over the addresses of other families, at which `LookupAny`
gives up, and finds what `LookupAny` finds. -/
theorem lookupAnyIPAddress_eq
    {getaddrinfo : GetaddrinfoCall → Option (List (Option Sockaddr))} {host : Bytes}
    {family type protocol : ℤ} {address : Address}
    (found : lookupAny getaddrinfo host family type protocol = some address) :
    lookupAnyIPAddress getaddrinfo host family type protocol = some address := by
  obtain ⟨answered, first⟩ := Option.ite_none_right_eq_some.mp found
  unfold lookupAnyIPAddress
  rw [if_pos answered]
  cases result : (lookup getaddrinfo [] host family type protocol).result with
  | nil =>
    rw [result] at first
    cases first
  | cons head rest =>
    rw [result, List.head?_cons, Option.join_some] at first
    rw [first]
    rfl

end Address

end Sylar
