import Sylar.Lib.Deferred
import Sylar.Http.Parse

/-!
# Parsing at the first read

The calls that read, set and delete the parameters and cookies of a request, as the
operations of two deferred tables. `setParam` may run before the texts are parsed, as
the loop inserts below it; `delParam` may not, as the readers bring its key back.
-/

namespace Sylar

open Bytes StringUtil

namespace HttpRequest

/-! ## What is still to be parsed -/

/-- The entry of the query, as long as it is not parsed. -/
def queryText (r : HttpRequest) (key : Bytes) : Option Bytes :=
  if r.mParserParamFlag &&& 0x1 ≠ 0 then none
  else (parseParam r.mQuery ∅ (byte '&') id 0)[key]?

/-- The entry of the body, as long as it is not parsed and its type is that of a form. -/
def bodyText (r : HttpRequest) (key : Bytes) : Option Bytes :=
  if r.mParserParamFlag &&& 0x2 ≠ 0 then none
  else if strcasestr (r.getHeader contentType []) formUrlencoded = false then none
  else (parseParam r.mBody ∅ (byte '&') id 0)[key]?

/-- The entry of the `cookie` header, as long as it is not parsed. -/
def cookieText (r : HttpRequest) (key : Bytes) : Option Bytes :=
  if r.mParserParamFlag &&& 0x4 ≠ 0 then none
  else if r.getHeader cookieName [] = [] then none
  else (parseParam (r.getHeader cookieName []) ∅ (byte ';') (trim · blanks) 0)[key]?

section Flags

/-- Setting a bit sets it. -/
theorem flag_set (f : UInt8) :
    (f ||| 0x1) &&& 0x1 ≠ 0 ∧ (f ||| 0x2) &&& 0x2 ≠ 0 ∧ (f ||| 0x4) &&& 0x4 ≠ 0 :=
  forall_byte (P := fun f =>
    (f ||| 0x1) &&& 0x1 ≠ 0 ∧ (f ||| 0x2) &&& 0x2 ≠ 0 ∧ (f ||| 0x4) &&& 0x4 ≠ 0)
    (by decide +kernel) f

/-- Setting a bit leaves the others. -/
theorem flag_other (f : UInt8) :
    ((f ||| 0x1) &&& 0x2 = f &&& 0x2 ∧ (f ||| 0x1) &&& 0x4 = f &&& 0x4) ∧
    ((f ||| 0x2) &&& 0x1 = f &&& 0x1 ∧ (f ||| 0x2) &&& 0x4 = f &&& 0x4) ∧
    ((f ||| 0x4) &&& 0x1 = f &&& 0x1 ∧ (f ||| 0x4) &&& 0x2 = f &&& 0x2) :=
  forall_byte (P := fun f =>
    ((f ||| 0x1) &&& 0x2 = f &&& 0x2 ∧ (f ||| 0x1) &&& 0x4 = f &&& 0x4) ∧
    ((f ||| 0x2) &&& 0x1 = f &&& 0x1 ∧ (f ||| 0x2) &&& 0x4 = f &&& 0x4) ∧
    ((f ||| 0x4) &&& 0x1 = f &&& 0x1 ∧ (f ||| 0x4) &&& 0x2 = f &&& 0x2)) (by decide +kernel) f

end Flags

variable {r r' : HttpRequest} {key : Bytes}

theorem queryText_congr (flag : r'.mParserParamFlag &&& 0x1 = r.mParserParamFlag &&& 0x1)
    (query : r'.mQuery = r.mQuery) : r'.queryText key = r.queryText key := by
  rw [queryText, queryText, flag, query]

theorem bodyText_congr (flag : r'.mParserParamFlag &&& 0x2 = r.mParserParamFlag &&& 0x2)
    (headers : r'.mHeaders = r.mHeaders) (body : r'.mBody = r.mBody) :
    r'.bodyText key = r.bodyText key := by
  rw [bodyText, bodyText, getHeader, getHeader, flag, headers, body]

theorem cookieText_congr (flag : r'.mParserParamFlag &&& 0x4 = r.mParserParamFlag &&& 0x4)
    (headers : r'.mHeaders = r.mHeaders) : r'.cookieText key = r.cookieText key := by
  rw [cookieText, cookieText, getHeader, getHeader, flag, headers]

/-! ## The three parsers -/

/-- `initQueryParam` puts the query below the parameters, and does nothing else. -/
theorem initQueryParam_spec (r : HttpRequest) (key : Bytes) :
    r.initQueryParam.mParams[key]? = r.mParams[key]?.or (r.queryText key) ∧
    r.initQueryParam.mCookies = r.mCookies ∧
    r.initQueryParam.queryText key = none ∧
    r.initQueryParam.bodyText key = r.bodyText key ∧
    r.initQueryParam.cookieText key = r.cookieText key := by
  unfold initQueryParam
  split_ifs with parsed
  · simp [queryText, parsed]
  · obtain ⟨body, cookie⟩ := (flag_other r.mParserParamFlag).1
    refine ⟨?_, rfl, if_pos (flag_set r.mParserParamFlag).1, bodyText_congr body rfl rfl,
      cookieText_congr cookie rfl⟩
    simp only [getElem?_parseParam ampersand_ne_equals r.mQuery r.mParams, queryText, if_neg parsed]

/-- `initBodyParam` puts the body below the parameters, and does nothing else. -/
theorem initBodyParam_spec (r : HttpRequest) (key : Bytes) :
    r.initBodyParam.mParams[key]? = r.mParams[key]?.or (r.bodyText key) ∧
    r.initBodyParam.mCookies = r.mCookies ∧
    r.initBodyParam.bodyText key = none ∧
    r.initBodyParam.queryText key = r.queryText key ∧
    r.initBodyParam.cookieText key = r.cookieText key := by
  obtain ⟨query, cookie⟩ := (flag_other r.mParserParamFlag).2.1
  unfold initBodyParam
  split_ifs with parsed other
  · simp [bodyText, parsed]
  · refine ⟨?_, rfl, if_pos (flag_set r.mParserParamFlag).2.1, queryText_congr query rfl,
      cookieText_congr cookie rfl⟩
    simp only [bodyText, if_neg parsed, if_pos other, Option.or_none]
  · refine ⟨?_, rfl, if_pos (flag_set r.mParserParamFlag).2.1, queryText_congr query rfl,
      cookieText_congr cookie rfl⟩
    simp only [getElem?_parseParam ampersand_ne_equals r.mBody r.mParams, bodyText, if_neg parsed,
      if_neg other]

/-- `initCookies` puts the header below the cookies, and does nothing else. -/
theorem initCookies_spec (r : HttpRequest) (key : Bytes) :
    r.initCookies.mCookies[key]? = r.mCookies[key]?.or (r.cookieText key) ∧
    r.initCookies.mParams = r.mParams ∧
    r.initCookies.cookieText key = none ∧
    r.initCookies.queryText key = r.queryText key ∧
    r.initCookies.bodyText key = r.bodyText key := by
  obtain ⟨query, body⟩ := (flag_other r.mParserParamFlag).2.2
  unfold initCookies
  split_ifs with parsed empty
  · simp [cookieText, parsed]
  · refine ⟨?_, rfl, if_pos (flag_set r.mParserParamFlag).2.2, queryText_congr query rfl,
      bodyText_congr body rfl rfl⟩
    simp only [cookieText, if_neg parsed, if_pos empty, Option.or_none]
  · refine ⟨?_, rfl, if_pos (flag_set r.mParserParamFlag).2.2, queryText_congr query rfl,
      bodyText_congr body rfl rfl⟩
    simp only [getElem?_parseParam semicolon_ne_equals (r.getHeader cookieName []) r.mCookies,
      cookieText, if_neg parsed, if_neg empty]

/-! ## The two tables -/

/-- The maps that are filled at the first read. -/
inductive Place where
  | params
  | cookies
  deriving DecidableEq

/-- The maps of a request as deferred tables: the readers of parameters parse the query
and the body first, those of cookies the header. -/
def tables : Deferred.Table HttpRequest Place Bytes Bytes (fun k k' => strcasecmp k k' = .eq) where
  write r
    | .params => r.setParam
    | .cookies => r.setCookie
  erase r
    | .params => r.delParam
    | .cookies => r.delCookie
  fill r
    | .params => r.initQueryParam.initBodyParam
    | .cookies => r.initCookies
  held r
    | .params => fun k => r.mParams[k]?
    | .cookies => fun k => r.mCookies[k]?
  pending r
    | .params => fun k => (r.queryText k).or (r.bodyText k)
    | .cookies => r.cookieText
  held_write r i k v j k' := by
    cases i <;> cases j <;> simp [setParam, setCookie, MapType.getElem?_assign]
  pending_write r i k v j k' := by
    cases i <;> cases j <;> rfl
  held_erase r i k j k' := by
    cases i <;> cases j <;> simp [delParam, delCookie, Std.TreeMap.getElem?_erase]
  pending_erase r i k j k' := by
    cases i <;> cases j <;> rfl
  held_fill r i j k := by
    obtain ⟨params, cookies, -, body, -⟩ := initQueryParam_spec r k
    obtain ⟨params', cookies', -, -, -⟩ := initBodyParam_spec r.initQueryParam k
    obtain ⟨cookies'', params'', -, -, -⟩ := initCookies_spec r k
    cases i <;> cases j
    · simp [params', params, body, Option.or_assoc]
    · simp [cookies', cookies]
    · simp [params'']
    · simp [cookies'']
  pending_fill r i j k := by
    obtain ⟨-, -, query, body, cookie⟩ := initQueryParam_spec r k
    obtain ⟨-, -, body', query', cookie'⟩ := initBodyParam_spec r.initQueryParam k
    obtain ⟨-, -, cookie'', query'', body''⟩ := initCookies_spec r k
    cases i <;> cases j
    · simp [query', query, body']
    · simp [cookie', cookie]
    · simp [query'', body'']
    · simp [cookie'']

/-- `initParam` fills both. -/
theorem filled_initParam (r : HttpRequest) : tables.Filled r r.initParam := by
  -- `initParam` reads the parameters and then the cookies
  have both : r.initParam = tables.fill (tables.fill r .params) .cookies := rfl
  constructor
  · intro i k
    rw [both]
    cases i
    · rw [tables.held_fill, if_neg (by decide), Deferred.Table.held_fill_self]
    · rw [Deferred.Table.held_fill_self, Deferred.Table.seen_fill]
  · intro i k
    rw [both, tables.pending_fill, tables.pending_fill]
    cases i <;> rfl

end HttpRequest

/-! ## The calls -/

/-- The calls on parameters and cookies. `T` are the types that values are cast to. -/
inductive ParamCall {ι : Type} (T : ι → Type) where
  | setParam (key val : Bytes)
  | delParam (key : Bytes)
  | getParam (key deflt : Bytes)
  | hasParam (key : Bytes) (val : Option Bytes)
  | getParamAs (i : ι) (key : Bytes) (deflt : T i)
  | checkGetParamAs (i : ι) (key : Bytes) (deflt : T i)
  | setCookie (key val : Bytes)
  | delCookie (key : Bytes)
  | getCookie (key deflt : Bytes)
  | hasCookie (key : Bytes) (val : Option Bytes)
  | getCookieAs (i : ι) (key : Bytes) (deflt : T i)
  | checkGetCookieAs (i : ι) (key : Bytes) (deflt : T i)

/-- What a reader returns, with what it has stored in `val`. -/
inductive ParamAnswer {ι : Type} (T : ι → Type) where
  | text (value : Bytes)
  | has (answer : Bool × Option Bytes)
  | cast (i : ι) (value : T i)
  | checked (i : ι) (answer : Bool × T i)

namespace ParamCall

variable {ι : Type} {T : ι → Type} (lexicalCast : (i : ι) → Bytes → Option (T i))

/-- One call on a request. -/
def perform (r : HttpRequest) : ParamCall T → Option (ParamAnswer T) × HttpRequest
  | setParam key val => (none, r.setParam key val)
  | delParam key => (none, r.delParam key)
  | getParam key deflt => (r.getParam key deflt).map (some ∘ .text) id
  | hasParam key val => (r.hasParam key val).map (some ∘ .has) id
  | getParamAs i key deflt => (r.getParamAs (lexicalCast i) key deflt).map (some ∘ .cast i) id
  | checkGetParamAs i key deflt =>
    (r.checkGetParamAs (lexicalCast i) key deflt).map (some ∘ .checked i) id
  | setCookie key val => (none, r.setCookie key val)
  | delCookie key => (none, r.delCookie key)
  | getCookie key deflt => (r.getCookie key deflt).map (some ∘ .text) id
  | hasCookie key val => (r.hasCookie key val).map (some ∘ .has) id
  | getCookieAs i key deflt => (r.getCookieAs (lexicalCast i) key deflt).map (some ∘ .cast i) id
  | checkGetCookieAs i key deflt =>
    (r.checkGetCookieAs (lexicalCast i) key deflt).map (some ∘ .checked i) id

/-- The answers to a sequence of calls. -/
def answers (r : HttpRequest) : List (ParamCall T) → List (Option (ParamAnswer T))
  | [] => []
  | call :: calls => (call.perform lexicalCast r).1 :: answers (call.perform lexicalCast r).2 calls

/-! What a reader makes of the entry that it finds, or does not find. -/

/-- `getParam` and `getCookie`. -/
def answerText (deflt : Bytes) (entry : Option Bytes) : ParamAnswer T := .text (entry.getD deflt)

/-- `hasParam` and `hasCookie`. -/
def answerHas (val entry : Option Bytes) : ParamAnswer T :=
  match entry with
  | none => .has (false, val)
  | some text => .has (true, val.map fun _ => text)

/-- `getAs`. -/
def answerCast (i : ι) (deflt : T i) (entry : Option Bytes) : ParamAnswer T :=
  match entry with
  | none => .cast i deflt
  | some text => .cast i ((lexicalCast i text).getD deflt)

/-- `checkGetAs`. -/
def answerChecked (i : ι) (deflt : T i) (entry : Option Bytes) : ParamAnswer T :=
  match entry.bind (lexicalCast i) with
  | none => .checked i (false, deflt)
  | some val => .checked i (true, val)

/-- A call as an operation of the tables. -/
def toOp : ParamCall T → Deferred.Op HttpRequest.Place Bytes Bytes (ParamAnswer T)
  | setParam key val => .write .params key val
  | delParam key => .erase .params key
  | getParam key deflt => .read .params key (answerText deflt)
  | hasParam key val => .read .params key (answerHas val)
  | getParamAs i key deflt => .read .params key (answerCast lexicalCast i deflt)
  | checkGetParamAs i key deflt => .read .params key (answerChecked lexicalCast i deflt)
  | setCookie key val => .write .cookies key val
  | delCookie key => .erase .cookies key
  | getCookie key deflt => .read .cookies key (answerText deflt)
  | hasCookie key val => .read .cookies key (answerHas val)
  | getCookieAs i key deflt => .read .cookies key (answerCast lexicalCast i deflt)
  | checkGetCookieAs i key deflt => .read .cookies key (answerChecked lexicalCast i deflt)

theorem answerCast_eq (i : ι) (m : MapType) (key : Bytes) (deflt : T i) :
    answerCast lexicalCast i deflt m[key]? = .cast i (getAs (lexicalCast i) m key deflt) := by
  unfold answerCast getAs
  cases m[key]? with
  | none => rfl
  | some text => rfl

theorem answerChecked_eq (i : ι) (m : MapType) (key : Bytes) (deflt : T i) :
    answerChecked lexicalCast i deflt m[key]? =
      .checked i (checkGetAs (lexicalCast i) m key deflt) := by
  unfold answerChecked checkGetAs
  cases m[key]? with
  | none => rfl
  | some text => cases read : lexicalCast i text <;> simp [read]

/-- A call does what its operation does. -/
theorem perform_eq (r : HttpRequest) (call : ParamCall T) :
    call.perform lexicalCast r = HttpRequest.tables.step r (call.toOp lexicalCast) := by
  cases call with
  | setParam key val => rfl
  | delParam key => rfl
  | getParam key deflt => rfl
  | hasParam key val =>
    show (r.hasParam key val).map (some ∘ .has) id =
      (some (answerHas val r.initQueryParam.initBodyParam.mParams[key]?), _)
    simp only [HttpRequest.hasParam]
    cases r.initQueryParam.initBodyParam.mParams[key]? with
    | none => rfl
    | some text => rfl
  | getParamAs i key deflt =>
    exact Prod.ext (congrArg some (answerCast_eq lexicalCast i _ key deflt).symm) rfl
  | checkGetParamAs i key deflt =>
    exact Prod.ext (congrArg some (answerChecked_eq lexicalCast i _ key deflt).symm) rfl
  | setCookie key val => rfl
  | delCookie key => rfl
  | getCookie key deflt => rfl
  | hasCookie key val =>
    show (r.hasCookie key val).map (some ∘ .has) id =
      (some (answerHas val r.initCookies.mCookies[key]?), _)
    simp only [HttpRequest.hasCookie]
    cases r.initCookies.mCookies[key]? with
    | none => rfl
    | some text => rfl
  | getCookieAs i key deflt =>
    exact Prod.ext (congrArg some (answerCast_eq lexicalCast i _ key deflt).symm) rfl
  | checkGetCookieAs i key deflt =>
    exact Prod.ext (congrArg some (answerChecked_eq lexicalCast i _ key deflt).symm) rfl

theorem answers_eq (r : HttpRequest) (calls : List (ParamCall T)) :
    answers lexicalCast r calls = HttpRequest.tables.answers r (calls.map (toOp lexicalCast)) := by
  induction calls generalizing r with
  | nil => rfl
  | cons call calls ih =>
    rw [answers, perform_eq, ih]
    rfl

/-- Parsing at the first read cannot be told from `initParam` if and only if no call
reads a key that came back: deleted while the texts were unparsed that have it, and not
set since. -/
theorem answers_initParam_iff (r : HttpRequest) (calls : List (ParamCall T)) :
    answers lexicalCast r calls = answers lexicalCast r.initParam calls ↔
      Runs.Along (fun m op => some (m.step (strcasecmp · · = .eq) op)) Deferred.Marks.Harmless
        (HttpRequest.tables.marks r) (calls.map (toOp lexicalCast)) := by
  rw [answers_eq, answers_eq]
  exact Deferred.Table.answers_eq_iff r.filled_initParam _

/-- The query `a=1`: `delParam` finds nothing to delete, and `hasParam` then parses it. -/
theorem deleted_comes_back :
    answers (T := fun _ : Empty => Bytes) nofun
        (HttpRequest.init.setQuery [byte 'a', byte '=', byte '1'])
        [.delParam [byte 'a'], .hasParam [byte 'a'] none] ≠
      answers nofun (HttpRequest.init.setQuery [byte 'a', byte '=', byte '1']).initParam
        [.delParam [byte 'a'], .hasParam [byte 'a'] none] := by
  have read : (HttpRequest.init.setQuery [byte 'a', byte '=', byte '1']).queryText [byte 'a'] =
      some [byte '1'] := by
    have parsed : parseParam [byte 'a', byte '=', byte '1'] ∅ (byte '&') id 0 =
        insertPairs ∅ ([([byte 'a'], [byte '1'])].map (readSegment id)) :=
      parseParam_eq ampersand_ne_equals
    rw [HttpRequest.queryText, if_neg (by decide)]
    exact (congrArg (·[[byte 'a']]?) parsed).trans (getElem?_insertPairs _ _ _)
  have back : (HttpRequest.tables.pending
      (HttpRequest.init.setQuery [byte 'a', byte '=', byte '1']) .params [byte 'a']) =
      some [byte '1'] := by
    show (HttpRequest.queryText _ _).or _ = _
    rw [read, Option.some_or]
  rw [answers_eq, answers_eq, ne_eq, Deferred.Table.answers_eq_iff (HttpRequest.filled_initParam _)]
  intro along
  have harmless := ((along _ rfl).2 _ rfl).1 [byte '1']
  cases harmless ((Deferred.Marks.back_erase (by decide)).trans back)

end ParamCall

end Sylar
