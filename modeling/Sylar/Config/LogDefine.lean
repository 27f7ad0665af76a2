import Sylar.Lib.YamlCpp
import Sylar.Util.Text

/-!
# The loggers of the configuration

The two casts between `std::set<logDefine>` and its text in `config.hpp`. The encoder
writes one map, with the last logger under `logs` and the appenders of all of them under
`appenders`; the decoder reads a sequence of loggers with their own `appender`. Only the
empty set is read back.
-/

namespace Sylar

open Yaml

/-- `LogLevel::Level`. -/
inductive LogLevel where
  | UNKNOW
  | DEBUG
  | INFO
  | WARN
  | ERROR
  | FATAL
  deriving DecidableEq

namespace LogLevel

/-- `LogLevel::fromString`. -/
def fromString (str : Bytes) : LogLevel :=
  if str = lit "DEBUG" then DEBUG
  else if str = lit "INFO" then INFO
  else if str = lit "WARN" then WARN
  else if str = lit "ERROR" then ERROR
  else if str = lit "FATAL" then FATAL
  else if str = lit "debug" then DEBUG
  else if str = lit "info" then INFO
  else if str = lit "warn" then WARN
  else if str = lit "error" then ERROR
  else if str = lit "fatal" then FATAL
  else UNKNOW

/-- `LogLevel::ToString`. -/
def toText : LogLevel → Bytes
  | DEBUG => lit "DEBUG"
  | INFO => lit "INFO"
  | WARN => lit "WARN"
  | FATAL => lit "FATAL"
  | ERROR => lit "ERROR"
  | UNKNOW => lit "UNKNOW"

end LogLevel

/-- `LogAppenderDefine`, with its defaults. -/
structure LogAppenderDefine where
  type : Int32 := 1
  level : LogLevel := .UNKNOW
  formatter : Bytes := []
  file : Bytes := []
  deriving DecidableEq

/-- `logDefine`, with its defaults. -/
structure LogDefine where
  name : Bytes
  level : LogLevel := .UNKNOW
  formatter : Bytes := []
  appenders : List LogAppenderDefine := []
  deriving DecidableEq

/-- `std::set<logDefine>`: `operator<` compares the names. -/
abbrev LogDefines := Std.TreeSet LogDefine (compareOn LogDefine.name)

namespace LogDefines

/-! ## The keys and types of the document -/

def logsKey : Bytes := lit "logs"
def appendersKey : Bytes := lit "appenders"
def appenderKey : Bytes := lit "appender"
def nameKey : Bytes := lit "name"
def levelKey : Bytes := lit "level"
def formatterKey : Bytes := lit "formatter"
def typeKey : Bytes := lit "type"
def fileKey : Bytes := lit "file"
def stdOutAppender : Bytes := lit "stdOutAppender"
def fileAppender : Bytes := lit "fileAppender"

variable (Y : YamlCpp)

/-! ## `LexicalCast<std::set<logDefine>, std::string>` -/

/-- `node[outer][inner] = text`. -/
def assignIn (node : Node) (outer inner text : Bytes) : Option Node := do
  let child ← Y.assign ((Y.sub node outer).getD .null) inner (.scalar text)
  Y.assign node outer child

/-- `appeners_`, the node of one appender. -/
def appenderNode (it : LogAppenderDefine) : Option Node := do
  let node ←
    if it.type = 1 then Y.assign .null typeKey (.scalar stdOutAppender)
    else if it.type = 2 then Y.assign .null typeKey (.scalar fileAppender)
    else some .null
  let node ← if it.file ≠ [] then Y.assign node fileKey (.scalar it.file) else some node
  if it.formatter ≠ [] then Y.assign node formatterKey (.scalar it.formatter) else some node

/-- The body of the loop over the appenders. -/
def encodeAppender (node : Node) (it : LogAppenderDefine) : Option Node := do
  let appender ← appenderNode Y it
  let appenders ← Y.pushBack ((Y.sub node appendersKey).getD .null) appender
  Y.assign node appendersKey appenders

/-- The body of the loop over the loggers. -/
def encodeLogger (node : Node) (logger : LogDefine) : Option Node := do
  let node ← assignIn Y node logsKey nameKey logger.name
  let node ← assignIn Y node logsKey levelKey logger.level.toText
  let node ← assignIn Y node logsKey formatterKey logger.formatter
  logger.appenders.foldlM (encodeAppender Y) node

/-- The encoder. -/
def encode (s : LogDefines) : Option Bytes := do
  let node ← s.toList.foldlM (encodeLogger Y) .null
  return Y.emit node

/-! ## `LexicalCast<std::string, std::set<logDefine>>` -/

/-- `node[key].as<std::string>()`. -/
def textAt (node : Option Node) (key : Bytes) : Option Bytes :=
  (node.bind (Y.sub · key)).bind Y.asString

/-- The body of the loops over the fields of an appender; only those of a file have a
`file`. -/
def decodeField (hasFile : Bool) (lad : LogAppenderDefine) : Child → Option LogAppenderDefine
  | .item _ => none
  | .entry first second =>
    if first.scalarText = levelKey then
      some { lad with level := LogLevel.fromString second.scalarText }
    else if first.scalarText = formatterKey then some { lad with formatter := second.scalarText }
    else if hasFile = true ∧ first.scalarText = fileKey then
      some { lad with file := second.scalarText }
    else some lad

/-- `../logfile/`, the name of the logger and `.txt`. -/
def logfile (name : Bytes) : Bytes :=
  lit "../logfile/" ++ name ++ lit ".txt"

/-- The body of the loop over the appenders of the logger `name`. -/
def decodeAppender (name : Bytes) : Child → Option LogAppenderDefine
  | .entry _ _ => none
  | .item a => do
    let type ← textAt Y (some a) typeKey
    if type = stdOutAppender then (Y.children a).foldlM (decodeField false) { type := 1 }
    else
      let lad ← (Y.children a).foldlM (decodeField true) { type := 2 }
      return if lad.file = [] then { lad with file := logfile name } else lad

/-- A logger, from `logNode[i]`. -/
def decodeLogger (node : Option Node) : Option LogDefine := do
  let name ← textAt Y node nameKey
  let level ← textAt Y node levelKey
  let formatter ←
    if (node.bind (Y.sub · formatterKey)).isSome then textAt Y node formatterKey else some []
  let appenders ←
    ((node.bind (Y.sub · appenderKey)).elim [] Y.children).mapM (decodeAppender Y name)
  return { name, level := LogLevel.fromString level, formatter, appenders }

/-- The decoder. -/
def decode (val : Bytes) : Option LogDefines := do
  let logNode ← Y.load val
  (List.range (Y.size logNode)).foldlM
    (fun sets i => do
      let ld ← decodeLogger Y (Y.item logNode i)
      return sets.insert ld) ∅

variable {Y}

/-! ## The document that is written -/

/-- What stands under `logs`. -/
def logsNode (logger : LogDefine) : Node :=
  .map [(.scalar nameKey, .scalar logger.name), (.scalar levelKey, .scalar logger.level.toText),
    (.scalar formatterKey, .scalar logger.formatter)]

/-- The document once `last` is written and the appenders are those of all loggers. -/
def document (last : LogDefine) (appenders : List Node) : Node :=
  .map ((.scalar logsKey, logsNode last) ::
    if appenders = [] then [] else [(.scalar appendersKey, .sequence appenders)])

/-- A text under `logs` where there is a map. -/
theorem assignIn_logs (fields tail : List (Node × Node)) (inner text : Bytes) :
    assignIn Y (.map ((.scalar logsKey, .map fields) :: tail)) logsKey inner text =
      some (.map ((.scalar logsKey, .map (Node.put inner (.scalar text) fields)) :: tail)) := by
  have child : Node.get? logsKey ((.scalar logsKey, .map fields) :: tail) = some (.map fields) :=
    rfl
  rw [assignIn, Y.sub_map, child, Option.getD_some, Y.assign_map, Option.bind_eq_bind,
    Option.bind_some, Y.assign_map]
  rfl

theorem assignIn_null (outer inner text : Bytes) :
    assignIn Y .null outer inner text =
      some (.map [(.scalar outer, .map [(.scalar inner, .scalar text)])]) := by
  simp [assignIn, Y.sub_null, Y.assign_null]

/-- The node of an appender is always made. -/
theorem appenderNode_isSome (it : LogAppenderDefine) : ∃ node, appenderNode Y it = some node := by
  unfold appenderNode
  split_ifs <;> simp [Y.assign_null, Y.assign_map]

theorem encodeAppender_document (logger : LogDefine) (appenders : List Node)
    (it : LogAppenderDefine) :
    ∃ node, encodeAppender Y (document logger appenders) it =
      some (document logger (appenders ++ [node])) := by
  obtain ⟨node, made⟩ := appenderNode_isSome (Y := Y) it
  refine ⟨node, ?_⟩
  have later : appenders ++ [node] ≠ [] := by simp
  rw [encodeAppender, made, Option.bind_eq_bind, Option.bind_some, document, document, if_neg later]
  exact Y.pushBack_last [(.scalar logsKey, logsNode logger)] rfl appenders node

theorem encodeAppenders_document (logger : LogDefine) (appenders : List Node)
    (its : List LogAppenderDefine) :
    ∃ more, its.foldlM (encodeAppender Y) (document logger appenders) =
      some (document logger more) := by
  induction its generalizing appenders with
  | nil => exact ⟨appenders, rfl⟩
  | cons it its ih =>
    obtain ⟨node, next⟩ := encodeAppender_document (Y := Y) logger appenders it
    obtain ⟨more, rest⟩ := ih (appenders ++ [node])
    exact ⟨more, by rw [List.foldlM_cons, next, Option.bind_eq_bind, Option.bind_some, rest]⟩

/-- The first logger makes a document, and every later one takes the place of the one
before it. -/
theorem encodeLogger_document (node : Node) (logger : LogDefine)
    (before : node = .null ∨ ∃ last appenders, node = document last appenders) :
    ∃ appenders, encodeLogger Y node logger = some (document logger appenders) := by
  rcases before with rfl | ⟨last, appenders, rfl⟩
  · have name : assignIn Y .null logsKey nameKey logger.name =
        some (.map [(.scalar logsKey, .map [(.scalar nameKey, .scalar logger.name)])]) :=
      assignIn_null logsKey nameKey logger.name
    have level : assignIn Y
        (.map [(.scalar logsKey, .map [(.scalar nameKey, .scalar logger.name)])])
        logsKey levelKey logger.level.toText =
        some (.map [(.scalar logsKey, .map [(.scalar nameKey, .scalar logger.name),
          (.scalar levelKey, .scalar logger.level.toText)])]) :=
      assignIn_logs _ _ levelKey logger.level.toText
    have formatter : assignIn Y
        (.map [(.scalar logsKey, .map [(.scalar nameKey, .scalar logger.name),
          (.scalar levelKey, .scalar logger.level.toText)])])
        logsKey formatterKey logger.formatter =
        some (document logger []) :=
      assignIn_logs _ _ formatterKey logger.formatter
    obtain ⟨more, rest⟩ := encodeAppenders_document (Y := Y) logger [] logger.appenders
    refine ⟨more, ?_⟩
    simp only [encodeLogger, name, level, formatter, Option.bind_eq_bind, Option.bind_some, rest]
  · let tail := if appenders = [] then [] else [(Node.scalar appendersKey, Node.sequence appenders)]
    let fields (name level formatter : Bytes) : List (Node × Node) :=
      [(.scalar nameKey, .scalar name), (.scalar levelKey, .scalar level),
        (.scalar formatterKey, .scalar formatter)]
    have name : assignIn Y (document last appenders) logsKey nameKey logger.name =
        some (.map ((.scalar logsKey, .map (fields logger.name last.level.toText last.formatter)) ::
          tail)) :=
      assignIn_logs _ _ nameKey logger.name
    have level : assignIn Y (.map ((.scalar logsKey,
        .map (fields logger.name last.level.toText last.formatter)) :: tail))
          logsKey levelKey logger.level.toText =
        some (.map ((.scalar logsKey,
          .map (fields logger.name logger.level.toText last.formatter)) :: tail)) :=
      assignIn_logs _ _ levelKey logger.level.toText
    have formatter : assignIn Y (.map ((.scalar logsKey,
        .map (fields logger.name logger.level.toText last.formatter)) :: tail))
          logsKey formatterKey logger.formatter = some (document logger appenders) :=
      assignIn_logs _ _ formatterKey logger.formatter
    obtain ⟨more, rest⟩ := encodeAppenders_document (Y := Y) logger appenders logger.appenders
    refine ⟨more, ?_⟩
    simp only [encodeLogger, name, level, formatter, Option.bind_eq_bind, Option.bind_some, rest]

/-- The loggers of a set that is not empty make a document. -/
theorem encodeLoggers_document (first : LogDefine) (rest : List LogDefine) :
    ∃ last appenders,
      (first :: rest).foldlM (encodeLogger Y) .null = some (document last appenders) := by
  have later (node : Node) (loggers : List LogDefine)
      (made : ∃ last appenders, node = document last appenders) :
      ∃ last appenders, loggers.foldlM (encodeLogger Y) node = some (document last appenders) := by
    induction loggers generalizing node with
    | nil =>
      obtain ⟨last, appenders, rfl⟩ := made
      exact ⟨last, appenders, rfl⟩
    | cons logger loggers ih =>
      obtain ⟨appenders, next⟩ := encodeLogger_document (Y := Y) node logger (Or.inr made)
      obtain ⟨last, all, done⟩ := ih (document logger appenders) ⟨logger, appenders, rfl⟩
      exact ⟨last, all, by rw [List.foldlM_cons, next, Option.bind_eq_bind, Option.bind_some, done]⟩
  obtain ⟨appenders, next⟩ := encodeLogger_document (Y := Y) .null first (Or.inl rfl)
  obtain ⟨last, all, done⟩ := later (document first appenders) rest ⟨first, appenders, rfl⟩
  exact ⟨last, all, by rw [List.foldlM_cons, next, Option.bind_eq_bind, Option.bind_some, done]⟩

/-! ## The document that is read -/

/-- The keys of a document are no numbers, so it has no first logger. -/
theorem item_document (last : LogDefine) (appenders : List Node) :
    Y.item (document last appenders) 0 = none := by
  apply Y.item_map
  have logs : ∀ c ∈ logsKey, ¬ isDigit c := by decide +kernel
  have apps : ∀ c ∈ appendersKey, ¬ isDigit c := by decide +kernel
  intro e inMap
  rcases List.mem_cons.mp inMap with rfl | inTail
  · exact ⟨logsKey, rfl, logs⟩
  · split_ifs at inTail with empty
    · cases inTail
    · obtain rfl := List.mem_singleton.mp inTail
      exact ⟨appendersKey, rfl, apps⟩

/-- A logger that is not there has no name, and reading it throws. -/
theorem decodeLogger_none : decodeLogger Y none = none := rfl

theorem decode_document (last : LogDefine) (appenders : List Node) :
    decode Y (Y.emit (document last appenders)) = none := by
  obtain ⟨n, size⟩ : ∃ n, Y.size (document last appenders) = n + 1 := by
    rw [document, Y.size_map, List.length_cons]
    exact ⟨_, rfl⟩
  rw [decode, Y.load_emit, Option.bind_eq_bind, Option.bind_some, size, List.range_succ_eq_map,
    List.foldlM_cons, item_document, decodeLogger_none]
  rfl

variable (Y) in
/-- What is written of a set is read as one with the same loggers. -/
def RoundTrips (s : LogDefines) : Prop :=
  ∃ text s', encode Y s = some text ∧ decode Y text = some s' ∧ s'.toList = s.toList

theorem not_roundTrips {s : LogDefines} (some_left : s.toList ≠ []) : ¬ RoundTrips Y s := by
  rintro ⟨text, s', written, read, -⟩
  obtain ⟨first, rest, loggers⟩ := List.exists_cons_of_ne_nil some_left
  obtain ⟨last, appenders, made⟩ := encodeLoggers_document (Y := Y) first rest
  rw [encode, loggers, made] at written
  obtain rfl := Option.some.inj written
  rw [decode_document] at read
  cases read

/-- Only a set without loggers is read back. -/
theorem roundTrips_iff (Y : YamlCpp) (s : LogDefines) : RoundTrips Y s ↔ s.toList = [] := by
  constructor
  · intro read
    by_contra some_left
    exact not_roundTrips some_left read
  · intro empty
    refine ⟨Y.emit .null, ∅, ?_, ?_, ?_⟩
    · rw [encode, empty]
      rfl
    · rw [decode, Y.load_emit, Option.bind_eq_bind, Option.bind_some, Y.size_null]
      rfl
    · exact empty.symm

/-- The set of one logger that writes to the standard output. -/
def rootOnly : LogDefines :=
  (∅ : LogDefines).insert
    { name := lit "root", level := .DEBUG, appenders := [{ type := 1 }] }

/-- It is not read back: reading `logNode[0]["name"]` throws. -/
theorem root_not_read_back : ¬ RoundTrips flow rootOnly := by
  apply not_roundTrips
  decide

end LogDefines

end Sylar
