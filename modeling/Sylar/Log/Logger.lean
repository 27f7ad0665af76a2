import Mathlib.Logic.Function.Basic
import Sylar.Lib.Folds
import Sylar.Lib.Runs
import Sylar.Log.Tokens

/-!
# Loggers and their appenders

`Logger` and `Appender` of `logger.hpp` and `logger.cpp`. An appender writes the items of its
own formatter, but a date among them asks the logger for the time format, and reads it when
the string that came back is gone.

* `RightDates`: each appender writes its dates in the format of its own formatter.
* `dates_along_iff`: what the calls have to keep for that.
-/

namespace Sylar

open Bytes Folds

/-- `Appender`. -/
structure Appender where
  mLevel : LogLevel
  formatter : Option Formatter

/-- `Logger`, with the appenders that there are. The vector holds pointers to them. -/
structure Logger where
  mFormatter : Option Formatter
  loggerLevelLogger : LogLevel
  appenderVec : List ℕ
  appender : ℕ → Appender

/-- What a constructor makes of a pattern. -/
def Formatter.ofPattern (p : Bytes) (single : SingleDate p) : Formatter :=
  ⟨p, (tokenise p).map Token.entry, timeFormat p, (readsTokens (s := .start) single).1⟩

/-- `Appender::log`. The stream that it is written to makes no difference. -/
def Appender.log (ap : Appender) (dateformatter : Option Bytes) (event : LoggerEvent)
    (level : LogLevel) : Option (List Piece) :=
  if ap.mLevel.value ≤ level.value then
    ap.formatter.bind fun f => f.log dateformatter event level
  else some []

namespace Logger

/-- The constructor, with appenders as theirs makes them. -/
def make : Logger :=
  ⟨some (.ofPattern Formatter.defaultPattern Formatter.singleDate_default), .DEBUG, [],
    fun _ => ⟨.DEBUG, none⟩⟩

/-- Writing to an appender. -/
def withAppender (w : Logger) (a : ℕ) (ap : Appender) : Logger :=
  { w with appender := Function.update w.appender a ap }

/-- `addAppender`. An appender without a formatter gets that of the logger. -/
def addAppender (w : Logger) (a : ℕ) : Logger :=
  let w :=
    match (w.appender a).formatter with
    | none => w.withAppender a { w.appender a with formatter := w.mFormatter }
    | some _ => w
  { w with appenderVec := w.appenderVec ++ [a] }

/-- `getDateformatter`. -/
def getDateformatter (w : Logger) : Option Bytes := w.mFormatter.map Formatter.timeformater

/-- `log`: what each appender writes, or nothing where a null pointer is used. -/
def log (w : Logger) (level : LogLevel) (event : LoggerEvent) : Option (List (ℕ × List Piece)) :=
  if level.value < w.loggerLevelLogger.value then some []
  else w.appenderVec.mapM fun a =>
    ((w.appender a).log w.getDateformatter event level).map fun text => (a, text)

/-- The calls on a logger and on its appenders. `setFormatter` on a pattern is that on the
formatter that is made of it. -/
inductive Op where
  | addAppender (a : ℕ)
  | delAppender (a : ℕ)
  | clearAppenders
  | setLoggerLevel (level : LogLevel)
  | setFormatter (f : Option Formatter)
  | appenderSetFormatter (a : ℕ) (f : Option Formatter)
  | appenderSetLevel (a : ℕ) (level : LogLevel)

/-- One call. `delAppender` erases the first pointer that is equal. -/
def perform (w : Logger) : Op → Logger
  | .addAppender a => w.addAppender a
  | .delAppender a => { w with appenderVec := w.appenderVec.erase a }
  | .clearAppenders => { w with appenderVec := [] }
  | .setLoggerLevel level => { w with loggerLevelLogger := level }
  | .setFormatter f => { w with mFormatter := f }
  | .appenderSetFormatter a f => w.withAppender a { w.appender a with formatter := f }
  | .appenderSetLevel a level => w.withAppender a { w.appender a with mLevel := level }

/-- One call, as a step. -/
def step (w : Logger) (op : Op) : Option Logger := some (w.perform op)

/-- Whatever is logged, each appender writes its dates in the format of the pattern of its own
formatter, and none in what stands in freed memory. -/
def RightDates (w : Logger) : Prop :=
  ∀ level event, ∃ out, w.log level event = some out ∧
    ∀ a text, (a, text) ∈ out → (∀ t, .freed t ∉ text) ∧ ∀ t fmt, .time t fmt ∈ text →
      ∃ f, (w.appender a).formatter = some f ∧ fmt = cStr (Formatter.timeFormat f.mPattern)

end Logger

/-! ## What a formatter writes -/

/-- Whether `put_time` writes it. -/
def Piece.isDate : Piece → Bool
  | time _ _ | freed _ => true
  | _ => false

/-- The format is read where it still stands. -/
theorem putTime_eq_time {t u : ℤ} {d fmt : Bytes} :
    putTime u d = .time t fmt ↔ d.length ≤ localCapacity ∧ u = t ∧ cStr d = fmt := by
  unfold putTime
  split_ifs with short
  · rw [Piece.time.injEq, and_iff_right short]
  · exact iff_of_false nofun fun both => short both.1

theorem putTime_eq_freed {t u : ℤ} {d : Bytes} :
    putTime u d = .freed t ↔ ¬ d.length ≤ localCapacity ∧ u = t := by
  unfold putTime
  split_ifs with short
  · exact iff_of_false nofun fun both => both.1 short
  · rw [Piece.freed.injEq, and_iff_right short]

namespace Formatter

variable {f : Formatter} {dateformatter : Option Bytes} {event : LoggerEvent} {level : LogLevel}
  {text : List Piece} {piece : Piece}

/-- There is a date among the items. -/
def HasDate (f : Formatter) : Prop := ∃ it ∈ f.logmsg, it.2 = some .DateTime

/-- Only a date needs the logger. -/
theorem isSome_writeEntry (it : Bytes × Option Item) :
    (writeEntry dateformatter event level it).isSome = true ↔
      (it.2 = some .DateTime → dateformatter.isSome = true) := by
  obtain ⟨s, item⟩ := it
  cases item with
  | none => simp [writeEntry]
  | some item => cases item <;> simp [writeEntry, Item.format]

/-- Only a date is written by `put_time`. -/
theorem date_mem_writeEntry {it : Bytes × Option Item} (dated : piece.isDate = true)
    (written : writeEntry dateformatter event level it = some text) : piece ∈ text ↔
      it.2 = some .DateTime ∧ ∃ d ∈ dateformatter, piece = putTime event.mTime d := by
  obtain ⟨s, item⟩ := it
  cases item with
  | none =>
    obtain rfl := Option.some.inj written
    cases piece with
    | time | freed => simp
    | _ => cases dated
  | some item =>
    cases item with
    | DateTime =>
      obtain ⟨d, found, rfl⟩ := Option.map_eq_some_iff.mp written
      simp [found]
    | _ =>
      obtain rfl := Option.some.inj written
      cases piece with
      | time | freed => simp
      | _ => cases dated

theorem isSome_log : (f.log dateformatter event level).isSome = true ↔
    (f.HasDate → dateformatter.isSome = true) := by
  rw [log, Option.isSome_map, isSome_mapM]
  simp only [isSome_writeEntry, HasDate]
  constructor
  · rintro all ⟨it, inLog, date⟩
    exact all it inLog date
  · intro all it inLog date
    exact all ⟨it, inLog, date⟩

theorem date_mem_log (dated : piece.isDate = true)
    (written : f.log dateformatter event level = some text) : piece ∈ text ↔
      f.HasDate ∧ ∃ d ∈ dateformatter, piece = putTime event.mTime d := by
  obtain ⟨texts, all, rfl⟩ := Option.map_eq_some_iff.mp written
  rw [List.mem_flatten]
  constructor
  · rintro ⟨part, inTexts, inPart⟩
    obtain ⟨it, inLog, entry⟩ := (mem_of_mapM all).1 part inTexts
    obtain ⟨date, rest⟩ := (date_mem_writeEntry dated entry).mp inPart
    exact ⟨⟨it, inLog, date⟩, rest⟩
  · rintro ⟨⟨it, inLog, date⟩, rest⟩
    obtain ⟨part, inTexts, entry⟩ := (mem_of_mapM all).2 it inLog
    exact ⟨part, inTexts, (date_mem_writeEntry dated entry).mpr ⟨date, rest⟩⟩

end Formatter

namespace Logger

/-! ## When the dates are right -/

/-- There is a formatter, and if it has dates, they are in the format of the logger, which is
short. -/
def Suits (own logger : Option Formatter) : Prop :=
  ∃ f ∈ own, f.HasDate → ∃ g ∈ logger, g.timeformater.length ≤ localCapacity ∧
    cStr g.timeformater = cStr f.timeformater

variable {w w' : Logger}

section

variable {a : Appender} {event : LoggerEvent} {level : LogLevel} {text : List Piece}

/-- An appender with a formatter that suits the logger writes. -/
theorem Suits.isSome_log (suits : Suits a.formatter w.mFormatter) (event : LoggerEvent)
    (level : LogLevel) : (a.log w.getDateformatter event level).isSome = true := by
  obtain ⟨f, isOwn, date⟩ := suits
  rw [Appender.log]
  split_ifs with passes
  · rw [Option.mem_def.mp isOwn, Option.bind_some, Formatter.isSome_log]
    intro has
    obtain ⟨g, isLogger, -, -⟩ := date has
    rw [getDateformatter, Option.isSome_map, Option.mem_def.mp isLogger]
    rfl
  · rfl

/-- What it writes has the dates of its own formatter. -/
theorem Suits.right (suits : Suits a.formatter w.mFormatter)
    (mine : a.log w.getDateformatter event level = some text) :
    (∀ t, .freed t ∉ text) ∧ ∀ t fmt, .time t fmt ∈ text →
      ∃ f, a.formatter = some f ∧ fmt = cStr (Formatter.timeFormat f.mPattern) := by
  obtain ⟨f, isOwn, date⟩ := suits
  rw [Appender.log] at mine
  split_ifs at mine with passes
  · rw [Option.mem_def.mp isOwn, Option.bind_some] at mine
    -- whatever date is written, its format is read from that of the logger, which suits
    have written {piece : Piece} (dated : piece.isDate = true) (inText : piece ∈ text) :
        piece = .time event.mTime (cStr (Formatter.timeFormat f.mPattern)) := by
      obtain ⟨has, d, format, rfl⟩ := (Formatter.date_mem_log dated mine).mp inText
      obtain ⟨g, isLogger, short, same⟩ := date has
      obtain ⟨g', isLogger', rfl⟩ := Option.map_eq_some_iff.mp format
      obtain rfl := Option.some.inj (isLogger.symm.trans isLogger')
      refine putTime_eq_time.mpr ⟨short, rfl, ?_⟩
      rw [same, f.eq_tokens.2]
    refine ⟨fun t inText => ?_, fun t fmt inText => ⟨f, isOwn, ?_⟩⟩
    · cases written rfl inText
    · exact (Piece.time.inj (written rfl inText)).2
  · obtain rfl := Option.some.inj mine
    exact ⟨fun t => List.not_mem_nil, fun t fmt inText => nomatch inText⟩

/-- An appender that takes the event and writes it so has a formatter that suits. -/
theorem suits_of_right (passes : a.mLevel.value ≤ level.value)
    (mine : a.log w.getDateformatter event level = some text)
    (unfreed : ∀ t, .freed t ∉ text)
    (own : ∀ t fmt, .time t fmt ∈ text →
      ∃ f, a.formatter = some f ∧ fmt = cStr (Formatter.timeFormat f.mPattern)) :
    Suits a.formatter w.mFormatter := by
  rw [Appender.log, if_pos passes] at mine
  obtain ⟨f, isOwn, mine⟩ := Option.bind_eq_some_iff.mp mine
  refine ⟨f, isOwn, fun date => ?_⟩
  obtain ⟨d, format⟩ := Option.isSome_iff_exists.mp
    (Formatter.isSome_log.mp (Option.isSome_of_mem mine) date)
  obtain ⟨g, isLogger, rfl⟩ := Option.map_eq_some_iff.mp format
  by_cases short : g.timeformater.length ≤ localCapacity
  · have inText := (Formatter.date_mem_log rfl mine).mpr
      ⟨date, _, format, (putTime_eq_time.mpr ⟨short, rfl, rfl⟩).symm⟩
    obtain ⟨f', isOwn', right⟩ := own _ _ inText
    obtain rfl := Option.some.inj (isOwn.symm.trans isOwn')
    exact ⟨g, isLogger, short, by rw [right, f.eq_tokens.2]⟩
  · have inText := (Formatter.date_mem_log rfl mine).mpr
      ⟨date, _, format, (putTime_eq_freed.mpr ⟨short, rfl⟩).symm⟩
    exact absurd inText (unfreed _)

end

/-- The dates are right when each formatter in use suits the one of the logger. -/
theorem rightDates_iff : w.RightDates ↔
    ∀ a ∈ w.appenderVec, Suits (w.appender a).formatter w.mFormatter := by
  constructor
  · intro right a isAppender
    -- every appender takes a fatal event
    obtain ⟨out, logged, own⟩ := right .FATAL ⟨[], [], 0, 0, 0, 0, 0, [], [], []⟩
    have taken : ¬ LogLevel.FATAL.value < w.loggerLevelLogger.value := by
      cases w.loggerLevelLogger <;> decide
    rw [log, if_neg taken] at logged
    obtain ⟨⟨b, text⟩, inOut, entry⟩ := (mem_of_mapM logged).2 a isAppender
    obtain ⟨text, mine, same⟩ := Option.map_eq_some_iff.mp entry
    cases same
    have passes : (w.appender a).mLevel.value ≤ LogLevel.FATAL.value := by
      cases (w.appender a).mLevel <;> decide
    obtain ⟨unfreed, dates⟩ := own a text inOut
    exact suits_of_right passes mine unfreed dates
  · intro suits level event
    rw [log]
    by_cases filtered : level.value < w.loggerLevelLogger.value
    · rw [if_pos filtered]
      exact ⟨[], rfl, fun a text inOut => by cases inOut⟩
    · rw [if_neg filtered]
      have all : ∀ a ∈ w.appenderVec, (((w.appender a).log w.getDateformatter event level).map
          fun text => (a, text)).isSome = true := by
        intro a isAppender
        rw [Option.isSome_map]
        exact (suits a isAppender).isSome_log event level
      obtain ⟨out, logged⟩ := Option.isSome_iff_exists.mp (isSome_mapM.mpr all)
      refine ⟨out, logged, fun a text inOut => ?_⟩
      obtain ⟨a', isAppender, entry⟩ := (mem_of_mapM logged).1 _ inOut
      obtain ⟨text', mine, same⟩ := Option.map_eq_some_iff.mp entry
      cases same
      exact (suits a isAppender).right mine

/-- What a call has to keep: a formatter that comes into use suits the one of the logger, and
a new one of the logger is suited by those that are in use. -/
def Fits (w : Logger) : Op → Prop
  | .addAppender a => Suits ((w.appender a).formatter.or w.mFormatter) w.mFormatter
  | .setFormatter f => ∀ a ∈ w.appenderVec, Suits (w.appender a).formatter f
  | .appenderSetFormatter a f => a ∈ w.appenderVec → Suits f w.mFormatter
  | _ => True

/-- The formatters behind the pointers after a write. -/
theorem formatter_withAppender (w : Logger) (a b : ℕ) (ap : Appender) :
    ((w.withAppender a ap).appender b).formatter =
      if b = a then ap.formatter else (w.appender b).formatter := by
  have write : (w.withAppender a ap).appender b = if b = a then ap else w.appender b :=
    Function.update_apply w.appender a ap b
  rw [write]
  split_ifs <;> rfl

/-- `addAppender` appends a pointer and sets a formatter that is null. -/
theorem addAppender_spec (w : Logger) (a : ℕ) :
    (w.addAppender a).mFormatter = w.mFormatter ∧
    (w.addAppender a).appenderVec = w.appenderVec ++ [a] ∧
    ∀ b, ((w.addAppender a).appender b).formatter =
      if b = a then (w.appender a).formatter.or w.mFormatter else (w.appender b).formatter := by
  rw [addAppender]
  cases has : (w.appender a).formatter with
  | none => exact ⟨rfl, rfl, fun b => formatter_withAppender w a b _⟩
  | some f =>
    refine ⟨rfl, rfl, fun b => ?_⟩
    by_cases same : b = a
    · rw [if_pos same, same]
      exact has
    · rw [if_neg same]

/-- After a call the dates are right when the call fits, given that they were before. -/
theorem rightDates_perform_iff {op : Op} (right : w.RightDates) :
    (w.perform op).RightDates ↔ w.Fits op := by
  have suits := rightDates_iff.mp right
  rw [rightDates_iff]
  cases op with
  | addAppender a =>
    obtain ⟨logger, vec, formatters⟩ := w.addAppender_spec a
    simp only [perform, logger, vec, formatters, Fits]
    constructor
    · intro all
      simpa using all a (by simp)
    · intro fits b isAppender
      by_cases same : b = a
      · rw [if_pos same]
        exact fits
      · rw [if_neg same]
        exact suits b (by simpa [same] using isAppender)
  | delAppender a =>
    exact iff_of_true (fun b still => suits b (List.mem_of_mem_erase still)) trivial
  | clearAppenders => exact iff_of_true (fun b still => by cases still) trivial
  | setLoggerLevel level => exact iff_of_true suits trivial
  | setFormatter f => exact Iff.rfl
  | appenderSetFormatter a f =>
    simp only [perform, formatter_withAppender, Fits]
    constructor
    · intro all isAppender
      have own := all a isAppender
      rwa [if_pos rfl] at own
    · intro fits b isAppender
      by_cases same : b = a
      · rw [if_pos same]
        exact fits (same ▸ isAppender)
      · rw [if_neg same]
        exact suits b isAppender
  | appenderSetLevel a level =>
    refine iff_of_true (fun b isAppender => ?_) trivial
    simp only [perform, formatter_withAppender]
    by_cases same : b = a
    · rw [if_pos same, ← same]
      exact suits b isAppender
    · rw [if_neg same]
      exact suits b isAppender

/-- In every run from a new logger, the dates are right in every state when every call fits. -/
theorem dates_along_iff (ops : List Op) :
    Runs.Always step RightDates make ops ↔ Runs.Along step Fits make ops := by
  refine Runs.always_iff_along (I := fun _ => True) (fun _ _ => trivial) ?_ trivial ?_
  · intro w op w' _ right edge
    obtain rfl := Option.some.inj edge
    exact rightDates_perform_iff right
  · rw [rightDates_iff]
    intro a isAppender
    cases isAppender

/-- The formatter of the pattern `%d{f}`. -/
def dateFormatter (f : Bytes) (single : SingleDate (lit "%d\x7b" ++ f ++ lit "\x7d")) : Formatter :=
  .ofPattern (lit "%d\x7b" ++ f ++ lit "\x7d") single

theorem dateFormatter_spec {f : Bytes} (single : SingleDate (lit "%d\x7b" ++ f ++ lit "\x7d"))
    (free : byte '}' ∉ f) :
    (dateFormatter f single).HasDate ∧ (dateFormatter f single).timeformater = f := by
  have tokens : tokenise (lit "%d\x7b" ++ f ++ lit "\x7d") = [.date f] := by
    have text : lit "%d\x7b" ++ f ++ lit "\x7d" =
        byte '%' :: byte 'd' :: byte '{' :: (f ++ byte '}' :: []) := rfl
    rw [text, tokenise_date free, tokenise]
  constructor
  · refine ⟨Token.entry (.date f), ?_, rfl⟩
    show _ ∈ (tokenise _).map Token.entry
    rw [tokens]
    exact List.mem_singleton_self _
  · show (dateFormats _).getLastD defaultTime = f
    rw [dateFormats, tokens]
    rfl

/-- An appender that brings its own formatter `%d{%H}` to a logger with `%d{%F}`; and an
appender that follows a logger with a format of 17 characters. -/
theorem own_format_ignored :
    ¬ Runs.Always step RightDates make
        [.setFormatter (some (dateFormatter (lit "%F") (by decide +kernel))),
          .appenderSetFormatter 0 (some (dateFormatter (lit "%H") (by decide +kernel))),
          .addAppender 0] ∧
      ¬ Runs.Always step RightDates make
        [.setFormatter (some (dateFormatter (lit "%Y-%m-%d %H:%M:%S") (by decide +kernel))),
          .addAppender 0] := by
  have free : byte '}' ∉ lit "%F" ∧ byte '}' ∉ lit "%H" ∧ byte '}' ∉ lit "%Y-%m-%d %H:%M:%S" := by
    decide +kernel
  constructor
  · intro always
    have right := always.last rfl
    obtain ⟨f, isOwn, date⟩ := rightDates_iff.mp right 0 (List.mem_singleton_self 0)
    obtain rfl := Option.some.inj isOwn
    obtain ⟨has, own⟩ := dateFormatter_spec (f := lit "%H") (by decide +kernel) free.2.1
    obtain ⟨g, isLogger, -, same⟩ := date has
    obtain rfl := Option.some.inj isLogger
    rw [own, (dateFormatter_spec _ free.1).2] at same
    revert same
    decide +kernel
  · intro always
    have right := always.last rfl
    obtain ⟨f, isOwn, date⟩ := rightDates_iff.mp right 0 (List.mem_singleton_self 0)
    obtain rfl := Option.some.inj isOwn
    obtain ⟨has, own⟩ := dateFormatter_spec (f := lit "%Y-%m-%d %H:%M:%S") (by decide +kernel)
      free.2.2
    obtain ⟨g, isLogger, short, -⟩ := date has
    obtain rfl := Option.some.inj isLogger
    rw [own] at short
    revert short
    decide +kernel

end Logger

end Sylar
