import Sylar.Lib.YamlCpp
import Sylar.Util.Text

/-!
# The configuration of a server

`TcpServerConf` of `server.hpp` and its two casts. The encoder writes `args` as a map, the
decoder asks for a string there and falls back to an empty one, so the arguments are lost
without an error; `decode_encode` says that nothing else is.
-/

namespace Sylar

open Yaml

/-- `TcpServerConf`, with its defaults. -/
structure TcpServerConf where
  address : List Bytes := []
  keepalive : Int32 := 0
  timeout : Int32 := 1000 * 2 * 60
  ssl : Int32 := 0
  id : Bytes := []
  type : Bytes := lit "http"
  name : Bytes := []
  certFile : Bytes := []
  keyFile : Bytes := []
  acceptWorker : Bytes := []
  ioWorker : Bytes := []
  processWorker : Bytes := []
  args : Std.TreeMap Bytes Bytes := ∅

namespace TcpServerConf

/-- `operator==`. -/
def equal (c oth : TcpServerConf) : Bool :=
  c.address = oth.address && c.keepalive = oth.keepalive && c.timeout = oth.timeout &&
    c.name = oth.name && c.ssl = oth.ssl && c.certFile = oth.certFile && c.keyFile = oth.keyFile &&
    c.acceptWorker = oth.acceptWorker && c.ioWorker = oth.ioWorker &&
    c.processWorker = oth.processWorker && c.args.toList = oth.args.toList && c.id = oth.id &&
    c.type = oth.type

/-! ## The keys of the document -/

def idKey : Bytes := lit "id"
def typeKey : Bytes := lit "type"
def nameKey : Bytes := lit "name"
def keepaliveKey : Bytes := lit "keepalive"
def timeoutKey : Bytes := lit "timeout"
def sslKey : Bytes := lit "ssl"
def certFileKey : Bytes := lit "cert_file"
def keyFileKey : Bytes := lit "key_file"
def acceptWorkerKey : Bytes := lit "accept_worker"
def ioWorkerKey : Bytes := lit "io_worker"
def processWorkerKey : Bytes := lit "process_worker"
def argsKey : Bytes := lit "args"
def addressKey : Bytes := lit "address"

variable (Y : YamlCpp)

/-! ## The casts -/

/-- `LexicalCast<std::map<std::string, std::string>, std::string>`. -/
def encodeArgs (maps : Std.TreeMap Bytes Bytes) : Option Bytes := do
  let node ← maps.toList.foldlM (fun node it => Y.assign node it.1 (.scalar it.2)) (.map [])
  return Y.emit node

/-- `LexicalCast<std::string, std::map<std::string, std::string>>`: the value of an entry
is what its node is printed as. -/
def decodeArgs (str : Bytes) : Option (Std.TreeMap Bytes Bytes) := do
  let node ← Y.load str
  (Y.children node).foldlM (fun ans child =>
    match child with
    | .entry first second => some (ans.insert first.scalarText (Y.emit second))
    | .item _ => none) ∅

/-- `node["address"].push_back(i)`. -/
def pushAddress (node : Node) (i : Bytes) : Option Node := do
  let list ← Y.pushBack ((Y.sub node addressKey).getD .null) (.scalar i)
  Y.assign node addressKey list

/-- `LexicalCast<TcpServerConf, std::string>`. -/
def encode (conf : TcpServerConf) : Option Bytes := do
  let node ← Y.assign .null idKey (.scalar conf.id)
  let node ← Y.assign node typeKey (.scalar conf.type)
  let node ← Y.assign node nameKey (.scalar conf.name)
  let node ← Y.assign node keepaliveKey (.scalar (decimal conf.keepalive))
  let node ← Y.assign node timeoutKey (.scalar (decimal conf.timeout))
  let node ← Y.assign node sslKey (.scalar (decimal conf.ssl))
  let node ← Y.assign node certFileKey (.scalar conf.certFile)
  let node ← Y.assign node keyFileKey (.scalar conf.keyFile)
  let node ← Y.assign node acceptWorkerKey (.scalar conf.acceptWorker)
  let node ← Y.assign node ioWorkerKey (.scalar conf.ioWorker)
  let node ← Y.assign node processWorkerKey (.scalar conf.processWorker)
  let text ← encodeArgs Y conf.args
  let args ← Y.load text
  let node ← Y.assign node argsKey args
  let node ← conf.address.foldlM (pushAddress Y) node
  return Y.emit node

/-- `node[key].as<std::string>()`. -/
def textAt (node : Node) (key : Bytes) : Option Bytes := (Y.sub node key).bind Y.asString

/-- `node[key].as<std::string>(fallback)`. -/
def textOr (node : Node) (key fallback : Bytes) : Bytes := (textAt Y node key).getD fallback

/-- `node[key].as<int>(fallback)`. -/
def intOr (node : Node) (key : Bytes) (fallback : Int32) : Int32 :=
  ((Y.sub node key).bind Y.asInt).getD fallback

/-- The loop over `node["address"]`. -/
def decodeAddress (address : Node) : Option (List Bytes) :=
  (List.range (Y.size address)).foldlM
    (fun done i => do
      let text ← (Y.item address i).bind Y.asString
      return done ++ [text]) []

/-- `LexicalCast<std::string, TcpServerConf>`. -/
def decode (v : Bytes) : Option TcpServerConf := do
  let node ← Y.load v
  let conf : TcpServerConf := {}
  let acceptWorker ← textAt Y node acceptWorkerKey
  let ioWorker ← textAt Y node ioWorkerKey
  let processWorker ← textAt Y node processWorkerKey
  let args ← decodeArgs Y (textOr Y node argsKey [])
  let address ← (Y.sub node addressKey).elim (some conf.address) (decodeAddress Y)
  return {
    address
    keepalive := intOr Y node keepaliveKey conf.keepalive
    timeout := intOr Y node timeoutKey conf.timeout
    ssl := intOr Y node sslKey conf.ssl
    id := textOr Y node idKey conf.id
    type := textOr Y node typeKey conf.type
    name := textOr Y node nameKey conf.name
    certFile := textOr Y node certFileKey conf.certFile
    keyFile := textOr Y node keyFileKey conf.keyFile
    acceptWorker, ioWorker, processWorker, args }

/-! ## The document -/

/-- The document before the addresses are added to it, with `args` as its last entry. -/
def fields (conf : TcpServerConf) (args : Node) : List (Node × Node) := [
  (.scalar idKey, .scalar conf.id), (.scalar typeKey, .scalar conf.type),
  (.scalar nameKey, .scalar conf.name), (.scalar keepaliveKey, .scalar (decimal conf.keepalive)),
  (.scalar timeoutKey, .scalar (decimal conf.timeout)),
  (.scalar sslKey, .scalar (decimal conf.ssl)), (.scalar certFileKey, .scalar conf.certFile),
  (.scalar keyFileKey, .scalar conf.keyFile),
  (.scalar acceptWorkerKey, .scalar conf.acceptWorker),
  (.scalar ioWorkerKey, .scalar conf.ioWorker),
  (.scalar processWorkerKey, .scalar conf.processWorker), (.scalar argsKey, args)]

/-- The document with some addresses. -/
def document (conf : TcpServerConf) (args : Node) (address : List Bytes) : Node :=
  .map (fields conf args ++
    if address = [] then [] else [(.scalar addressKey, .sequence (address.map .scalar))])

variable {Y}

/-- The map of the arguments is printed, whatever is in it. -/
theorem encodeArgs_eq (maps : Std.TreeMap Bytes Bytes) :
    ∃ entries, encodeArgs Y maps = some (Y.emit (.map entries)) := by
  have loop (pairs : List (Bytes × Bytes)) (before : List (Node × Node)) :
      ∃ entries, pairs.foldlM (fun node it => Y.assign node it.1 (.scalar it.2)) (.map before) =
        some (.map entries) := by
    induction pairs generalizing before with
    | nil => exact ⟨before, rfl⟩
    | cons it pairs ih =>
      obtain ⟨entries, done⟩ := ih (Node.put it.1 (.scalar it.2) before)
      exact ⟨entries, by
        rw [List.foldlM_cons, Y.assign_map, Option.bind_eq_bind, Option.bind_some, done]⟩
  obtain ⟨entries, done⟩ := loop maps.toList []
  exact ⟨entries, by rw [encodeArgs, done]; rfl⟩

/-- An empty text has no arguments. -/
theorem decodeArgs_nil : decodeArgs Y [] = some ∅ := by
  rw [decodeArgs, Y.load_nil, Option.bind_eq_bind, Option.bind_some, Y.children_null]
  rfl

theorem pushAddress_document (conf : TcpServerConf) (args : Node) (address : List Bytes)
    (i : Bytes) :
    pushAddress Y (document conf args address) i = some (document conf args (address ++ [i])) := by
  have later : address ++ [i] ≠ [] := by simp
  have absent : Node.get? addressKey (fields conf args) = none := rfl
  have pushed := Y.pushBack_last (fields conf args) absent (address.map .scalar) (.scalar i)
  simp only [List.map_eq_nil_iff] at pushed
  rw [pushAddress, document, document, if_neg later, List.map_append]
  exact pushed

theorem pushAddresses_document (conf : TcpServerConf) (args : Node) (before more : List Bytes) :
    more.foldlM (pushAddress Y) (document conf args before) =
      some (document conf args (before ++ more)) := by
  induction more generalizing before with
  | nil => rw [List.append_nil]; rfl
  | cons i more ih =>
    rw [List.foldlM_cons, pushAddress_document, Option.bind_eq_bind, Option.bind_some, ih,
      List.append_assoc, List.singleton_append]

/-- What is written. -/
theorem encode_eq (conf : TcpServerConf) :
    ∃ entries, encode Y conf = some (Y.emit (document conf (.map entries) conf.address)) := by
  obtain ⟨entries, args⟩ := encodeArgs_eq (Y := Y) conf.args
  refine ⟨entries, ?_⟩
  have built : encode Y conf =
      (conf.address.foldlM (pushAddress Y) (document conf (.map entries) [])).bind
        fun node => some (Y.emit node) := by
    simp only [encode, Y.assign_null, Y.assign_map, args, Y.load_emit, Option.bind_eq_bind,
      Option.bind_some]
    rfl
  rw [built, pushAddresses_document, List.nil_append, Option.bind_some]

/-! ## What is read -/

/-- The addresses are read back in order. -/
theorem decodeAddress_sequence (address : List Bytes) :
    decodeAddress Y (.sequence (address.map .scalar)) = some address := by
  have loop (n : ℕ) (below : n ≤ address.length) :
      (List.range n).foldlM
        (fun done i => do
          let text ← (Y.item (.sequence (address.map .scalar)) i).bind Y.asString
          return done ++ [text]) [] = some (address.take n) := by
    induction n with
    | zero => rfl
    | succ n ih =>
      have there : address[n]? = some address[n] := List.getElem?_eq_getElem below
      have item : (Y.item (.sequence (address.map .scalar)) n).bind Y.asString =
          some address[n] := by
        rw [Y.item_sequence, List.getElem?_map, there, Option.map_some, Option.bind_some,
          Y.asString_scalar]
      rw [List.range_succ, List.foldlM_append, ih (Nat.le_of_succ_le below), List.take_add_one,
        there]
      simp only [Option.bind_eq_bind, Option.bind_some, List.foldlM_cons, List.foldlM_nil, item]
      rfl
  rw [decodeAddress, Y.size_sequence, List.length_map, loop _ (Nat.le_refl _), List.take_length]

section Document

variable (conf : TcpServerConf) (args : Node) (address : List Bytes)

theorem textAt_document (key text : Bytes)
    (here : Node.get? key (fields conf args) = some (.scalar text)) :
    textAt Y (document conf args address) key = some text := by
  rw [textAt, document, Y.sub_map, Node.get?_append here, Option.bind_some, Y.asString_scalar]

theorem intOr_document (key : Bytes) (n fallback : Int32)
    (here : Node.get? key (fields conf args) = some (.scalar (decimal n))) :
    intOr Y (document conf args address) key fallback = n := by
  rw [intOr, document, Y.sub_map, Node.get?_append here, Option.bind_some, Y.asInt_decimal,
    Option.getD_some]

theorem textOr_document (key text fallback : Bytes)
    (here : Node.get? key (fields conf args) = some (.scalar text)) :
    textOr Y (document conf args address) key fallback = text := by
  rw [textOr, textAt_document conf args address key text here, Option.getD_some]

/-- The arguments are a map and no string. -/
theorem textOr_args (entries : List (Node × Node)) (fallback : Bytes) :
    textOr Y (document conf (.map entries) address) argsKey fallback = fallback := by
  have here : Node.get? argsKey (fields conf (.map entries)) = some (.map entries) := rfl
  rw [textOr, textAt, document, Y.sub_map, Node.get?_append here, Option.bind_some, Y.asString_map,
    Option.getD_none]

theorem address_document (fallback : List Bytes) (none_left : fallback = []) :
    (Y.sub (document conf args address) addressKey).elim (some fallback) (decodeAddress Y) =
      some address := by
  rw [document, Y.sub_map]
  by_cases empty : address = []
  · rw [if_pos empty, empty, none_left]
    rfl
  · rw [if_neg empty]
    exact decodeAddress_sequence address

/-- Everything but the arguments is read back. -/
theorem decode_document (entries : List (Node × Node)) :
    decode Y (Y.emit (document conf (.map entries) conf.address)) =
      some { conf with args := ∅ } := by
  have text := textAt_document (Y := Y) conf (.map entries) conf.address
  have textOr := textOr_document (Y := Y) conf (.map entries) conf.address
  have number := intOr_document (Y := Y) conf (.map entries) conf.address
  rw [decode, Y.load_emit, Option.bind_eq_bind, Option.bind_some]
  simp only [text acceptWorkerKey conf.acceptWorker rfl, text ioWorkerKey conf.ioWorker rfl,
    text processWorkerKey conf.processWorker rfl, textOr_args, decodeArgs_nil,
    address_document conf (.map entries) conf.address [] rfl,
    number keepaliveKey conf.keepalive _ rfl, number timeoutKey conf.timeout _ rfl,
    number sslKey conf.ssl _ rfl, textOr idKey conf.id _ rfl, textOr typeKey conf.type _ rfl,
    textOr nameKey conf.name _ rfl, textOr certFileKey conf.certFile _ rfl,
    textOr keyFileKey conf.keyFile _ rfl, Option.bind_eq_bind, Option.bind_some]
  rfl

end Document

/-- What is written is read as the same configuration without its arguments. -/
theorem decode_encode (conf : TcpServerConf) :
    (encode Y conf).bind (decode Y) = some { conf with args := ∅ } := by
  obtain ⟨entries, written⟩ := encode_eq (Y := Y) conf
  rw [written, Option.bind_some, decode_document]

variable (Y) in
/-- What is written is read as an equal configuration. -/
def RoundTrips (conf : TcpServerConf) : Prop :=
  ∃ conf', (encode Y conf).bind (decode Y) = some conf' ∧ conf'.equal conf = true

theorem equal_without_args (conf : TcpServerConf) :
    ({ conf with args := ∅ } : TcpServerConf).equal conf = true ↔ conf.args.toList = [] := by
  have empty : (∅ : Std.TreeMap Bytes Bytes).toList = [] := rfl
  simp only [equal, empty, decide_true, Bool.and_true, Bool.true_and, decide_eq_true_eq]
  exact eq_comm

/-- A configuration is read back if and only if it has no arguments. -/
theorem roundTrips_iff_args (Y : YamlCpp) (conf : TcpServerConf) :
    RoundTrips Y conf ↔ conf.args.toList = [] := by
  rw [RoundTrips, decode_encode]
  constructor
  · rintro ⟨conf', read, same⟩
    obtain rfl := Option.some.inj read
    exact (equal_without_args conf).mp same
  · intro empty
    exact ⟨_, rfl, (equal_without_args conf).mpr empty⟩

/-- A server with one argument. -/
def oneArg : TcpServerConf := { args := (∅ : Std.TreeMap Bytes Bytes).insert [byte 'a'] [byte '1'] }

/-- It loses the argument. -/
theorem arg_is_lost : ¬ RoundTrips flow oneArg := by
  rintro ⟨conf', read, same⟩
  rw [decode_encode] at read
  obtain rfl := Option.some.inj read
  exact absurd ((equal_without_args oneArg).mp same) (by decide)

end TcpServerConf

end Sylar
