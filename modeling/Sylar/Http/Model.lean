import Sylar.Util.Text

/-!
# The parameters and cookies of a request

`HttpRequest` of `http.hpp` and `http.cpp`, as far as its headers, parameters and
cookies go: the three maps, the parse-once flags, and the loop `PARSE_PARAM` that
fills the maps from the query, the body and the `cookie` header.
-/

namespace Sylar

namespace Bytes

/-- `strcasecmp`, on strings given by their `c_str()`. -/
def strcasecmp (lhs rhs : Bytes) : Ordering :=
  compare ((cStr lhs).map tolower) ((cStr rhs).map tolower)

instance : Std.TransCmp strcasecmp :=
  inferInstanceAs (Std.TransCmp (compareOn fun s => (cStr s).map tolower))

theorem strcasecmp_eq_eq {lhs rhs : Bytes} :
    strcasecmp lhs rhs = .eq ↔ (cStr lhs).map tolower = (cStr rhs).map tolower :=
  Std.LawfulEqOrd.compare_eq_iff_eq

/-- `strcasestr(haystack, needle) != nullptr`. -/
def strcasestr (haystack needle : Bytes) : Bool :=
  ((cStr haystack).map tolower).tails.any ((needle.map tolower).isPrefixOf ·)

end Bytes

open Bytes StringUtil

/-- `HttpRequest::MapType`: a `std::map` ordered by `CaseInsensitiveLess`. -/
abbrev MapType := Std.TreeMap Bytes Bytes strcasecmp

namespace MapType

/-- The spelling that a key is held under, or its own if it is new. -/
def spelling (m : MapType) (key : Bytes) : Bytes := (m.getKey? key).getD key

/-- `m[key] = val`: the spelling of a key that is there stays. -/
def assign (m : MapType) (key val : Bytes) : MapType := m.insert (m.spelling key) val

theorem strcasecmp_spelling (m : MapType) (key k : Bytes) :
    strcasecmp (m.spelling key) k = strcasecmp key k := by
  have same : strcasecmp (m.spelling key) key = .eq := by
    have held := Std.TreeMap.compare_getKey?_self (t := m) (k := key)
    rw [spelling]
    cases spelled : m.getKey? key with
    | none => exact Std.ReflCmp.compare_self
    | some k' =>
      rw [spelled] at held
      exact of_decide_eq_true held
  exact Std.TransCmp.congr_left same

theorem getElem?_assign (m : MapType) (key val k : Bytes) :
    (m.assign key val)[k]? = if strcasecmp key k = .eq then some val else m[k]? := by
  rw [assign, Std.TreeMap.getElem?_insert, strcasecmp_spelling]

theorem getKey?_assign (m : MapType) (key val k : Bytes) :
    (m.assign key val).getKey? k =
      if strcasecmp key k = .eq then some (m.spelling key) else m.getKey? k := by
  rw [assign, Std.TreeMap.getKey?_insert, strcasecmp_spelling]

/-- `m.insert(std::make_pair(key, val))` keeps the value of a key that is there. -/
theorem getElem?_insertIfNew (m : MapType) (key val k : Bytes) :
    (m.insertIfNew key val)[k]? = m[k]?.or (if strcasecmp key k = .eq then some val else none) := by
  rw [Std.TreeMap.getElem?_insertIfNew]
  by_cases same : strcasecmp key k = .eq
  · have present : key ∈ m ↔ m[k]?.isSome :=
      (Std.TreeMap.mem_congr same).trans Std.TreeMap.mem_iff_isSome_getElem?
    cases held : m[k]? with
    | none =>
      have absent : ¬ key ∈ m := by simp [present, held]
      rw [if_pos ⟨same, absent⟩, if_pos same, Option.none_or]
    | some old =>
      have there : key ∈ m := by simp [present, held]
      rw [if_neg fun both => both.2 there, Option.some_or]
  · rw [if_neg fun both => same both.1, if_neg same, Option.or_none]

end MapType

/-- `checkGetAs<T>`: the answer and what is stored in `val`. `lexicalCast` is
`boost::lexical_cast<T>`, `none` where it throws. -/
def checkGetAs {T : Type} (lexicalCast : Bytes → Option T) (m : MapType) (key : Bytes) (deflt : T) :
    Bool × T :=
  match m[key]? with
  | none => (false, deflt)
  | some text =>
    match lexicalCast text with
    | some val => (true, val)
    | none => (false, deflt)

/-- `getAs<T>`. -/
def getAs {T : Type} (lexicalCast : Bytes → Option T) (m : MapType) (key : Bytes) (deflt : T) : T :=
  match m[key]? with
  | none => deflt
  | some text => (lexicalCast text).getD deflt

/-- `PARSE_PARAM(str, m, flag, trim)` from `pos` on. -/
def parseParam (str : Bytes) (m : MapType) (flag : UInt8) (trim : Bytes → Bytes) (pos : ℕ) :
    MapType :=
  match _found : find str (byte '=') pos with
  | none => m
  | some key =>
    match ends : find str flag key with
    | none =>
      m.insertIfNew (trim (substr str pos (some (key - pos))))
        (urlDecode (substr str (key + 1) none) true)
    | some next =>
      parseParam str
        (m.insertIfNew (trim (substr str pos (some (key - pos))))
          (urlDecode (substr str (key + 1) (some (next - key - 1))) true))
        flag trim (next + 1)
termination_by str.length - pos
decreasing_by
  have first := find_bounds _found
  have second := find_bounds ends
  omega

/-- `HttpRequest`. -/
structure HttpRequest where
  mParserParamFlag : UInt8
  mQuery : Bytes
  mBody : Bytes
  mHeaders : MapType
  mParams : MapType
  mCookies : MapType

namespace HttpRequest

/-- The constructor. -/
def init : HttpRequest := ⟨0, [], [], ∅, ∅, ∅⟩

/-- `getHeader`. -/
def getHeader (r : HttpRequest) (key deflt : Bytes) : Bytes := (r.mHeaders[key]?).getD deflt

/-- `setHeader`. -/
def setHeader (r : HttpRequest) (key val : Bytes) : HttpRequest :=
  { r with mHeaders := r.mHeaders.assign key val }

/-- `setQuery`. -/
def setQuery (r : HttpRequest) (v : Bytes) : HttpRequest := { r with mQuery := v }

/-- `initQueryParam`. -/
def initQueryParam (r : HttpRequest) : HttpRequest :=
  if r.mParserParamFlag &&& 0x1 ≠ 0 then r
  else
    { r with
      mParams := parseParam r.mQuery r.mParams (byte '&') id 0
      mParserParamFlag := r.mParserParamFlag ||| 0x1 }

/-- The header name `content-type` and the type that makes the body parameters. -/
def contentType : Bytes := lit "content-type"

def formUrlencoded : Bytes := lit "application/x-www-form-urlencoded"

/-- `initBodyParam`. -/
def initBodyParam (r : HttpRequest) : HttpRequest :=
  if r.mParserParamFlag &&& 0x2 ≠ 0 then r
  else if strcasestr (r.getHeader contentType []) formUrlencoded = false then
    { r with mParserParamFlag := r.mParserParamFlag ||| 0x2 }
  else
    { r with
      mParams := parseParam r.mBody r.mParams (byte '&') id 0
      mParserParamFlag := r.mParserParamFlag ||| 0x2 }

/-- The header name `cookie`. -/
def cookieName : Bytes := lit "cookie"

/-- `initCookies`. -/
def initCookies (r : HttpRequest) : HttpRequest :=
  if r.mParserParamFlag &&& 0x4 ≠ 0 then r
  else if r.getHeader cookieName [] = [] then
    { r with mParserParamFlag := r.mParserParamFlag ||| 0x4 }
  else
    { r with
      mCookies := parseParam (r.getHeader cookieName []) r.mCookies (byte ';') (trim · blanks) 0
      mParserParamFlag := r.mParserParamFlag ||| 0x4 }

/-- `initParam`. -/
def initParam (r : HttpRequest) : HttpRequest := r.initQueryParam.initBodyParam.initCookies

/-- `setParam`. -/
def setParam (r : HttpRequest) (key val : Bytes) : HttpRequest :=
  { r with mParams := r.mParams.assign key val }

/-- `setCookie`. -/
def setCookie (r : HttpRequest) (key val : Bytes) : HttpRequest :=
  { r with mCookies := r.mCookies.assign key val }

/-- `delParam`. -/
def delParam (r : HttpRequest) (key : Bytes) : HttpRequest :=
  { r with mParams := r.mParams.erase key }

/-- `delCookie`. -/
def delCookie (r : HttpRequest) (key : Bytes) : HttpRequest :=
  { r with mCookies := r.mCookies.erase key }

/-- `getParam`: what it returns, and the request behind it. -/
def getParam (r : HttpRequest) (key deflt : Bytes) : Bytes × HttpRequest :=
  let r := r.initQueryParam.initBodyParam
  ((r.mParams[key]?).getD deflt, r)

/-- `getCookie`. -/
def getCookie (r : HttpRequest) (key deflt : Bytes) : Bytes × HttpRequest :=
  let r := r.initCookies
  ((r.mCookies[key]?).getD deflt, r)

/-- `hasParam`: what it returns, what `*val` is afterwards (`none` for a null `val`), and
the request behind it. -/
def hasParam (r : HttpRequest) (key : Bytes) (val : Option Bytes) :
    (Bool × Option Bytes) × HttpRequest :=
  let r := r.initQueryParam.initBodyParam
  match r.mParams[key]? with
  | none => ((false, val), r)
  | some text => ((true, val.map fun _ => text), r)

/-- `hasCookie`. -/
def hasCookie (r : HttpRequest) (key : Bytes) (val : Option Bytes) :
    (Bool × Option Bytes) × HttpRequest :=
  let r := r.initCookies
  match r.mCookies[key]? with
  | none => ((false, val), r)
  | some text => ((true, val.map fun _ => text), r)

section Casts

variable {T : Type} (lexicalCast : Bytes → Option T)

/-- `checkGetParamAs<T>`. -/
def checkGetParamAs (r : HttpRequest) (key : Bytes) (deflt : T) : (Bool × T) × HttpRequest :=
  let r := r.initQueryParam.initBodyParam
  (checkGetAs lexicalCast r.mParams key deflt, r)

/-- `getParamAs<T>`. -/
def getParamAs (r : HttpRequest) (key : Bytes) (deflt : T) : T × HttpRequest :=
  let r := r.initQueryParam.initBodyParam
  (getAs lexicalCast r.mParams key deflt, r)

/-- `checkGetCookieAs<T>`. -/
def checkGetCookieAs (r : HttpRequest) (key : Bytes) (deflt : T) : (Bool × T) × HttpRequest :=
  let r := r.initCookies
  (checkGetAs lexicalCast r.mCookies key deflt, r)

/-- `getCookieAs<T>`. -/
def getCookieAs (r : HttpRequest) (key : Bytes) (deflt : T) : T × HttpRequest :=
  let r := r.initCookies
  (getAs lexicalCast r.mCookies key deflt, r)

end Casts

end HttpRequest

end Sylar
