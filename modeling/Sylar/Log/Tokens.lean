import Mathlib.Data.List.TakeWhile
import Sylar.Log.Pattern

/-!
# Patterns as tokens

What a pattern says, read from left to right: `%c` stands for the item of `c`, `%d{f}` for a
date in the format `f`, and every other character for itself.

* `tokenises`: the loop reads a pattern with a single date so.
* `eq_tokens`: the items of a formatter are those of its pattern, and so is its format.
-/

namespace Sylar

open Bytes

/-- The parts of a pattern. -/
inductive Token where
  | char (c : UInt8)
  | escape (c : UInt8)
  | percent
  | date (f : Bytes)
  deriving DecidableEq

namespace Token

/-- What stands in the pattern. -/
def source : Token → Bytes
  | char c => [c]
  | escape c => [byte '%', c]
  | percent => [byte '%']
  | date f => byte '%' :: byte 'd' :: byte '{' :: (f ++ [byte '}'])

/-- The entry of `logmsg`. -/
def entry : Token → Bytes × Option Item
  | char c => ([c], none)
  | escape c => ([byte '%', c], getItemfunction c)
  | percent => ([byte '%'], none)
  | date _ => ([byte '%', byte 'd'], some .DateTime)

/-- What is written. -/
def output (dateformatter : Option Bytes) (event : LoggerEvent) (level : LogLevel) :
    Token → Option (List Piece)
  | char c => some [.text [c]]
  | escape c =>
    match getItemfunction c with
    | some item => item.format dateformatter event level
    | none => some [.text [byte '%', c]]
  | percent => some [.text [byte '%']]
  | date _ => Item.DateTime.format dateformatter event level

/-- The format of a date with braces. -/
def format? : Token → Option Bytes
  | date f => some f
  | _ => none

end Token

/-- A pattern from left to right. The brace of a date ends at the next `}`. -/
def tokenise : Bytes → List Token
  | [] => []
  | [c] => if c ≠ byte '%' then [.char c] else [.percent]
  | c :: d :: rest =>
    if c ≠ byte '%' then .char c :: tokenise (d :: rest)
    else if d = byte 'd' ∧ rest.head? = some (byte '{') ∧ byte '}' ∈ rest then
      .date (rest.tail.takeWhile (· ≠ byte '}')) ::
        tokenise (rest.dropWhile (· ≠ byte '}')).tail
    else .escape d :: tokenise rest
termination_by text => text.length
decreasing_by
  · exact Nat.lt_succ_self _
  · have shorter := (List.dropWhile_suffix (· ≠ byte '}') (l := rest)).length_le
    simp only [List.length_tail, List.length_cons]
    omega
  · exact Nat.lt_succ_of_lt (Nat.lt_succ_self _)

/-- The formats of the dates with braces. -/
def dateFormats (text : Bytes) : List Bytes := (tokenise text).filterMap Token.format?

section Tokenise

variable {c d : UInt8} {f rest text : Bytes} {i : ℕ}

theorem tokenise_char (plain : c ≠ byte '%') : tokenise (c :: rest) = .char c :: tokenise rest := by
  cases rest with
  | nil => simp [tokenise, plain]
  | cons d rest => rw [tokenise, if_pos plain]

theorem tokenise_percent : tokenise [byte '%'] = [.percent] := by
  rw [tokenise, if_neg (not_not_intro rfl)]

theorem tokenise_escape (closed : ¬ (d = byte 'd' ∧ rest.head? = some (byte '{'))) :
    tokenise (byte '%' :: d :: rest) = .escape d :: tokenise rest := by
  rw [tokenise, if_neg (not_not_intro rfl), if_neg fun whole => closed ⟨whole.1, whole.2.1⟩]

theorem tokenise_date (free : byte '}' ∉ f) :
    tokenise (byte '%' :: byte 'd' :: byte '{' :: (f ++ byte '}' :: rest)) =
      .date f :: tokenise rest := by
  have inside : ∀ c ∈ f, decide (c ≠ byte '}') = true := fun c inF =>
    decide_eq_true fun same => free (same ▸ inF)
  have format : (f ++ byte '}' :: rest).takeWhile (· ≠ byte '}') = f := by
    rw [List.takeWhile_append_of_pos inside]
    simp
  have behind : (byte '{' :: (f ++ byte '}' :: rest)).dropWhile (· ≠ byte '}') =
      byte '}' :: rest := by
    rw [List.dropWhile_cons, if_pos (by decide), List.dropWhile_append_of_pos inside]
    simp
  rw [tokenise, if_neg (not_not_intro rfl), if_pos ⟨rfl, rfl, by simp⟩, List.tail_cons, format,
    behind, List.tail_cons]

/-- Nothing is left out, and nothing is said twice. -/
theorem flatMap_source (text : Bytes) : (tokenise text).flatMap Token.source = text := by
  induction text using Front.induction with
  | next text begins ih =>
    cases begins with
    | done =>
      rw [tokenise]
      rfl
    | char c rest plain =>
      rw [tokenise_char plain, List.flatMap_cons, ih rest (Nat.lt_succ_self _)]
      rfl
    | percent =>
      rw [tokenise_percent]
      rfl
    | opening rest =>
      by_cases closed : byte '}' ∈ rest
      · obtain ⟨f, behind, rfl, free⟩ := List.eq_append_cons_of_mem closed
        have shorter : behind.length <
            (byte '%' :: byte 'd' :: byte '{' :: (f ++ byte '}' :: behind)).length := by
          simp only [List.length_cons, List.length_append]
          omega
        rw [tokenise_date free, List.flatMap_cons, ih behind shorter]
        simp [Token.source]
      · have other : byte '}' ≠ byte '{' := by decide
        rw [tokenise, if_neg (not_not_intro rfl), if_neg (by simp [closed, other]),
          List.flatMap_cons, ih (byte '{' :: rest) (by simp)]
        rfl
    | escape d rest closed =>
      rw [tokenise_escape closed, List.flatMap_cons,
        ih rest (Nat.lt_succ_of_lt (Nat.lt_succ_self _))]
      rfl

/-- Where reading comes to no `%d{`, there is no date with braces. -/
theorem dateFormats_eq_nil (never : firstOpen text i = none) : dateFormats text = [] := by
  rw [dateFormats]
  induction text using Front.induction generalizing i with
  | next text begins ih =>
    cases begins with
    | done =>
      rw [tokenise]
      rfl
    | char c rest plain =>
      rw [firstOpen_char plain] at never
      rw [tokenise_char plain]
      exact ih rest (Nat.lt_succ_self _) never
    | percent =>
      rw [tokenise_percent]
      rfl
    | opening rest =>
      rw [firstOpen_opening] at never
      cases never
    | escape d rest closed =>
      rw [firstOpen_escape closed] at never
      rw [tokenise_escape closed]
      exact ih rest (Nat.lt_succ_of_lt (Nat.lt_succ_self _)) never

end Tokenise

/-! ## The loop reads the tokens -/

section Run

variable {p rest : Bytes} {i pos : ℕ} {s : Parse}

/-- Where the first `}` of the pattern stands behind a `%d{`, it ends the brace. -/
theorem brace_parts (here : p.drop i = byte '%' :: byte 'd' :: byte '{' :: rest)
    (found : find p (byte '}') 0 = some pos) (before : i < pos) :
    ∃ f, rest = f ++ byte '}' :: p.drop (pos + 1) ∧ byte '}' ∉ f ∧ pos = i + 3 + f.length := by
  have third : p.drop (i + 3) = rest := by
    rw [← List.drop_drop, here]
    rfl
  obtain ⟨front, behind, parts, free, atEnd⟩ := parts_of_find found
  rw [Nat.zero_add] at atEnd
  rw [List.drop_zero] at parts
  -- none of the three letters is the `}`
  have brace := getElem?_of_find found
  have letter (k : ℕ) : p[i + k]? = (byte '%' :: byte 'd' :: byte '{' :: rest)[k]? := by
    rw [← List.getElem?_drop, here]
  have past : i + 3 ≤ pos := by
    by_contra early
    have near : pos = i + 1 ∨ pos = i + 2 := by omega
    rcases near with rfl | rfl
    · rw [letter 1] at brace
      exact absurd (Option.some.inj brace) (by decide)
    · rw [letter 2] at brace
      exact absurd (Option.some.inj brace) (by decide)
  have tail : p.drop (pos + 1) = behind := by
    rw [← List.drop_drop, parts, atEnd, List.drop_left]
    rfl
  refine ⟨front.drop (i + 3), ?_, fun inF => free (List.mem_of_mem_drop inF), ?_⟩
  · rw [← third, tail, parts, List.drop_append_of_le_length (atEnd ▸ past)]
  · rw [List.length_drop]
    omega

/-- What the loop has done when it is left, from one of its states on: the tokens are
appended, and a date with braces leaves its format. There is one such date at most. -/
def ReadsTokens (p : Bytes) (s : Parse) : Prop :=
  (∃ i, Loop.Ends (iterate p) s ⟨i, s.logmsg ++ (tokenise (p.drop s.i)).map Token.entry,
    (dateFormats (p.drop s.i)).getLastD s.timeformater⟩) ∧
  (dateFormats (p.drop s.i)).length ≤ 1

/-- One token. Behind a date with braces there is no other. -/
theorem ReadsTokens.head {t : Parse} (tok : Token) (step : iterate p s = some t)
    (token : tokenise (p.drop s.i) = tok :: tokenise (p.drop t.i))
    (logmsg : t.logmsg = s.logmsg ++ [tok.entry])
    (time : t.timeformater = tok.format?.getD s.timeformater)
    (last : tok.format? = none ∨ dateFormats (p.drop t.i) = []) (rest : ReadsTokens p t) :
    ReadsTokens p s := by
  obtain ⟨⟨i, ends⟩, one⟩ := rest
  have dates : dateFormats (p.drop s.i) = tok.format?.toList ++ dateFormats (p.drop t.i) := by
    rw [dateFormats, token, List.filterMap_cons]
    cases tok.format? <;> rfl
  have entries : s.logmsg ++ (tokenise (p.drop s.i)).map Token.entry =
      t.logmsg ++ (tokenise (p.drop t.i)).map Token.entry := by
    rw [token, List.map_cons, logmsg, List.append_assoc, List.singleton_append]
  rw [ReadsTokens, entries, dates]
  rcases last with plain | empty
  · rw [plain] at time ⊢
    rw [Option.getD_none] at time
    rw [← time]
    exact ⟨⟨i, ends.head step⟩, one⟩
  · rw [empty, List.append_nil]
    rw [empty, time] at ends
    refine ⟨⟨i, ?_⟩, ?_⟩
    · have format : tok.format?.toList.getLastD s.timeformater =
          ([] : List Bytes).getLastD (tok.format?.getD s.timeformater) := by
        cases tok.format? <;> rfl
      rw [format]
      exact ends.head step
    · cases tok.format? <;> simp

theorem readsTokens (single : SingleFrom p s.i) : ReadsTokens p s := by
  induction left : p.length - s.i using Nat.strongRecOn generalizing s with
  | ind n ih =>
    have onward {t : Parse} (step : iterate p s = some t) : ReadsTokens p t := by
      obtain ⟨forward, inside, kept⟩ := single.next (Formatter.nextIndex_of_step step)
      exact ih _ (by omega) kept rfl
    have behind (k : ℕ) : p.drop (s.i + k) = (p.drop s.i).drop k := by rw [List.drop_drop]
    generalize here : p.drop s.i = text at behind
    cases front text with
    | done =>
      refine ⟨⟨s.i, ?_⟩, ?_⟩
      · rw [here, dateFormats, tokenise, List.map_nil, List.append_nil]
        exact ⟨.refl, iterate_done here⟩
      · rw [here, dateFormats, tokenise]
        exact Nat.zero_le 1
    | char c rest plain =>
      have step := iterate_char here plain
      refine .head (.char c) step ?_ rfl rfl (.inl rfl) (onward step)
      rw [here, tokenise_char plain, behind 1]
      rfl
    | percent =>
      have step := iterate_percent here
      refine .head .percent step ?_ rfl rfl (.inl rfl) (onward step)
      rw [here, tokenise_percent, behind 1, List.drop_one, List.tail_cons, tokenise]
    | opening rest =>
      have step := iterate_opening here
      obtain ⟨pos, found, before, never⟩ := single s.i (firstOpen_of_opens ⟨rest, here⟩)
      obtain ⟨f, rfl, free, atEnd⟩ := brace_parts here found before
      have length : braceLength (some pos) s.i = some f.length := by
        rw [braceLength, Option.bind_some, if_pos (by omega)]
        congr 1
        omega
      have content : p.drop (s.i + 3) = f ++ byte '}' :: p.drop (pos + 1) := by
        rw [behind 3]
        rfl
      rw [Option.mem_def.mp found] at step
      rw [length, substr_append content] at step
      refine .head (.date f) step ?_ rfl rfl (.inr (dateFormats_eq_nil never)) (onward step)
      rw [here, tokenise_date free]
      rfl
    | escape d rest closed =>
      have step := iterate_escape here closed
      refine .head (.escape d) step ?_ rfl rfl (.inl rfl) (onward step)
      rw [here, tokenise_escape closed, behind 2]
      rfl

end Run

namespace Formatter

variable {p : Bytes}

/-- The format of a pattern: that of its date, or the default. -/
def timeFormat (p : Bytes) : Bytes := (dateFormats p).getLastD defaultTime

/-- A formatter is what its pattern says. -/
theorem eq_tokens (f : Formatter) : f.logmsg = (tokenise f.mPattern).map Token.entry ∧
    f.timeformater = timeFormat f.mPattern := by
  obtain ⟨i, ends⟩ := f.parsed
  have single : SingleDate f.mPattern := terminates_iff.mp ⟨_, ends⟩
  have start : SingleFrom f.mPattern Parse.start.i := single
  obtain ⟨⟨i', ends'⟩, -⟩ := readsTokens start
  have same := ends.unique ends'
  injection same with _ logmsg timeformater
  exact ⟨logmsg, timeformater⟩

theorem writeEntry_entry (dateformatter : Option Bytes) (event : LoggerEvent) (level : LogLevel)
    (t : Token) :
    writeEntry dateformatter event level t.entry = t.output dateformatter event level := by
  cases t with
  | escape c =>
    unfold Token.entry Token.output writeEntry
    cases getItemfunction c with
    | none => rfl
    | some item => rfl
  | _ => rfl

/-- What is written for a formatter is what its tokens say, in their order. -/
theorem log_eq (f : Formatter) (dateformatter : Option Bytes) (event : LoggerEvent)
    (level : LogLevel) : f.log dateformatter event level =
      ((tokenise f.mPattern).mapM (Token.output dateformatter event level)).map List.flatten := by
  have same : writeEntry dateformatter event level ∘ Token.entry =
      Token.output dateformatter event level :=
    funext fun t => writeEntry_entry dateformatter event level t
  rw [log, f.eq_tokens.1, List.mapM_map, same]

/-- A pattern with a single date is read as its tokens, and written as they say. -/
theorem tokenises (p : Bytes) (single : SingleDate p) :
    (∃ f : Formatter, f.mPattern = p) ∧ ∀ f : Formatter, f.mPattern = p →
      f.logmsg = (tokenise p).map Token.entry ∧
      (tokenise p).flatMap Token.source = p ∧
      (dateFormats p).length ≤ 1 ∧ f.timeformater = (dateFormats p).getLastD defaultTime ∧
      ∀ dateformatter event level, f.log dateformatter event level =
        ((tokenise p).mapM (Token.output dateformatter event level)).map List.flatten := by
  have start : SingleFrom p Parse.start.i := single
  obtain ⟨⟨i, ends⟩, one⟩ := readsTokens start
  constructor
  · exact ⟨⟨p, _, _, i, ends⟩, rfl⟩
  · rintro f rfl
    exact ⟨f.eq_tokens.1, flatMap_source f.mPattern, one, f.eq_tokens.2, f.log_eq⟩

/-- The pattern of the constructor. -/
def defaultPattern : Bytes := lit "[%d{%F %T}]-[%p][%r][%t][%c][%M][%F][%L][%f][%T] %m %n"

theorem singleDate_default : SingleDate defaultPattern := by decide +kernel

/-- The default pattern, with its date. -/
theorem tokenises_default : ∃ f : Formatter, f.mPattern = defaultPattern ∧
    f.timeformater = (dateFormats defaultPattern).getLastD defaultTime := by
  obtain ⟨⟨f, made⟩, all⟩ := tokenises defaultPattern singleDate_default
  exact ⟨f, made, (all f made).2.2.2.1⟩

end Formatter

end Sylar
