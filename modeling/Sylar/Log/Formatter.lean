import Mathlib.Data.Int.Notation
import Sylar.Config.LogDefine
import Sylar.Lib.Loop

/-!
# Formatters

`Formatter` of `logger.hpp` and `logger.cpp`: the items that a pattern is made of, the loop
`parsePattern` over a pattern, and `Formatter::log`. The loop may run for ever, so that a
formatter comes with a proof that the loop over its pattern has left it behind.
-/

namespace Sylar

open Bytes

/-- The number of a level. -/
def LogLevel.value : LogLevel → ℕ
  | UNKNOW => 0
  | DEBUG => 1
  | INFO => 2
  | WARN => 3
  | ERROR => 4
  | FATAL => 5

/-- `LoggerEvent`. The logger that it points to is only asked for its name. -/
structure LoggerEvent where
  mLogger : Bytes
  mFilename : Bytes
  mLine : UInt32
  mElapse : ℤ
  mThreadId : Int32
  mFiberId : UInt64
  mTime : ℤ
  mThreadname : Bytes
  content : Bytes
  mFuncname : Bytes

/-- The classes that derive from `formatterItem`, by what they are called without
`FormatterItem`. -/
inductive Item where
  | DateTime
  | Level
  | Elapse
  | ThreadID
  | manymsg
  | LoggerName
  | funcName
  | FileName
  | Line
  | Message
  | NewLine
  | FiberID
  | ThreadName
  deriving DecidableEq

/-- What an item writes: a text, a time with the format that `put_time` reads, a time with
whatever stands in memory that was freed as its format, or the result of `difftime`. -/
inductive Piece where
  | text (s : Bytes)
  | time (t : ℤ) (fmt : Bytes)
  | freed (t : ℤ)
  | difftime (t elapse : ℤ)
  deriving DecidableEq

/-- The length up to which the library of `g++` keeps the text of a string inside the object. -/
def localCapacity : ℕ := 15

/-- `os << result`. `put_time` keeps the pointer to the text of a string that is destroyed
before it is read: a short text still stands in the frame of `format`, a longer one was on
the heap. -/
def putTime (t : ℤ) (fmt : Bytes) : Piece :=
  if fmt.length ≤ localCapacity then .time t (cStr fmt) else .freed t

/-- `format` of the items. `dateformatter` is what `getDateformatter` of the logger returns,
`none` where its formatter is null. -/
def Item.format (dateformatter : Option Bytes) (event : LoggerEvent) (level : LogLevel) :
    Item → Option (List Piece)
  | DateTime => dateformatter.map fun fmt => [putTime event.mTime fmt]
  | Level => some [.text level.toText]
  | Elapse => some [.difftime event.mTime event.mElapse, .text (lit "s")]
  | ThreadID => some [.text (lit (toString event.mThreadId.toInt))]
  | manymsg =>
    some [.text (lit "[" ++ event.mFilename ++ lit ":" ++ lit (toString event.mLine.toNat)
      ++ lit " (" ++ event.mFuncname ++ lit ")]" ++ lit "[" ++ lit (toString level.value)
      ++ lit "] - " ++ event.content)]
  | LoggerName => some [.text event.mLogger]
  | funcName => some [.text event.mFuncname]
  | FileName => some [.text event.mFilename]
  | Line => some [.text (lit (toString event.mLine.toNat))]
  | Message => some [.text event.content]
  | NewLine => some [.text (lit "\n")]
  | FiberID => some [.text (lit (toString event.mFiberId.toUInt32.toNat))]
  | ThreadName => some [.text event.mThreadname]

/-- `getItemfunction`. -/
def getItemfunction (itemC : UInt8) : Option Item :=
  if itemC = byte 'd' then some .DateTime
  else if itemC = byte 'p' then some .Level
  else if itemC = byte 'r' then some .Elapse
  else if itemC = byte 't' then some .ThreadID
  else if itemC = byte 'l' then some .manymsg
  else if itemC = byte 'c' then some .LoggerName
  else if itemC = byte 'M' then some .funcName
  else if itemC = byte 'F' then some .FileName
  else if itemC = byte 'L' then some .Line
  else if itemC = byte 'm' then some .Message
  else if itemC = byte 'n' then some .NewLine
  else if itemC = byte 'f' then some .FiberID
  else if itemC = byte 'T' then some .ThreadName
  else none

/-! ## The loop -/

/-- The state of `parsePattern`: its index and the members that it fills. -/
structure Parse where
  i : ℕ
  logmsg : List (Bytes × Option Item)
  timeformater : Bytes

/-- The initial value of `timeformater`. -/
def defaultTime : Bytes := lit "%F %T"

/-- How many bytes `substr(i+3, pos-i-3)` takes. The length wraps when `pos` lies before `i`
or is `npos`, and then it takes the rest of the pattern. -/
def braceLength (pos : Option ℕ) (i : ℕ) : Option ℕ :=
  pos.bind fun pos => if i + 3 ≤ pos then some (pos - i - 3) else none

/-- `pos + 1`, which is zero for `npos`. -/
def behindBrace (pos : Option ℕ) : ℕ := (pos.map (· + 1)).getD 0

/-- One iteration of `parsePattern`. -/
def iterate (mPattern : Bytes) (s : Parse) : Option Parse :=
  match mPattern[s.i]? with
  | none => none
  | some c =>
    if c ≠ byte '%' then
      some { s with
        logmsg := s.logmsg ++ [([c], none)]
        i := s.i + 1 }
    else
      match mPattern[s.i + 1]? with
      | none =>
        some { s with
          logmsg := s.logmsg ++ [([byte '%'], none)]
          i := s.i + 1 }
      | some d =>
        if d = byte 'd' ∧ mPattern[s.i + 2]? = some (byte '{') then
          let pos := find mPattern (byte '}') 0
          some {
            logmsg := s.logmsg ++ [([c, d], getItemfunction d)]
            timeformater := substr mPattern (s.i + 3) (braceLength pos s.i)
            i := behindBrace pos }
        else
          some { s with
            logmsg := s.logmsg ++ [([c, d], getItemfunction d)]
            i := s.i + 2 }

/-- The state at the beginning. -/
def Parse.start : Parse := ⟨0, [], defaultTime⟩

/-- `Formatter`, as its constructor leaves it. -/
structure Formatter where
  mPattern : Bytes
  logmsg : List (Bytes × Option Item)
  timeformater : Bytes
  parsed : ∃ i, Loop.Ends (iterate mPattern) .start ⟨i, logmsg, timeformater⟩

/-- What is written for an entry of `logmsg`. -/
def writeEntry (dateformatter : Option Bytes) (event : LoggerEvent) (level : LogLevel)
    (it : Bytes × Option Item) : Option (List Piece) :=
  match it.2 with
  | some item => item.format dateformatter event level
  | none => some [.text it.1]

/-- `Formatter::log`: what is written, or nothing where an item comes upon a null pointer. -/
def Formatter.log (f : Formatter) (dateformatter : Option Bytes) (event : LoggerEvent)
    (level : LogLevel) : Option (List Piece) :=
  (f.logmsg.mapM (writeEntry dateformatter event level)).map List.flatten

end Sylar
