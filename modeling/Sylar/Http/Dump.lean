import Sylar.Http.Headers
import Sylar.Lib.HeaderBlock

/-!
# The framing of written messages

`dump` leaves the `connection` of the map out when it writes its own, but it does not leave
out the `content-length`.

* `Framed`: what a peer that reads the headers has to find, to know where a message ends and
  whether another one follows.
* `framed_iff`: when a message is framed that setters have made.
-/

namespace Sylar

open Bytes StringUtil HeaderBlock

/-- The signs of the protocol. -/
def signs : Signs UInt8 := ⟨byte ':', byte ' ', byte '\r', byte '\n', by decide⟩

def setCookieName : Bytes := lit "set-cookie"

/-- Behind its start line the text is a header block, in which no name is written twice up to
case, save for cookies; a message that is no websocket has one `connection`, by `close`; and
if there is a body, there is one `content-length`, its size. -/
def Framed (start text : Bytes) (websocket close : Bool) (body : Bytes) : Prop :=
  ∃ fields, (∀ f ∈ fields, signs.Clean f) ∧ text = start ++ signs.text fields body ∧
    (∀ x ≠ setCookieName, (valuesOf caseless fields x).length ≤ 1) ∧
    (websocket = false → valuesOf caseless fields connectionName = [connectionValue close]) ∧
    (body ≠ [] → valuesOf caseless fields contentLengthName = [lit (toString body.length)])

/-- There is no body, or none of the headers is a `content-length`. -/
def NoOwnLength (headers : MapType) (body : Bytes) : Prop :=
  body = [] ∨ ∀ p ∈ headers.toList, caseless p.1 ≠ contentLengthName

/-! ## The fields that are written -/

/-- The `connection` of a message. -/
def connectionField (websocket close : Bool) : List (Bytes × Bytes) :=
  if websocket = false then [(connectionName, connectionValue close)] else []

/-- The headers of the map that are written. -/
def ownFields (websocket : Bool) (headers : MapType) : List (Bytes × Bytes) :=
  headers.toList.filter fun i => ¬ (websocket = false ∧ strcasecmp i.1 connectionName = .eq)

/-- The `content-length` of a message. -/
def lengthField (body : Bytes) : List (Bytes × Bytes) :=
  if body ≠ [] then [(contentLengthName, lit (toString body.length))] else []

theorem connectionLine_eq (websocket close : Bool) :
    connectionLine websocket close = (connectionField websocket close).flatMap signs.line := by
  cases websocket
  · cases close <;> decide +kernel
  · rfl

theorem headerLines_eq (websocket : Bool) (headers : MapType) :
    headerLines websocket headers = (ownFields websocket headers).flatMap signs.line := by
  rw [headerLines, ownFields]
  induction headers.toList with
  | nil => rfl
  | cons i rest ih =>
    rw [List.flatMap_cons, ih]
    by_cases omitted : websocket = false ∧ strcasecmp i.1 connectionName = .eq
    · rw [if_pos omitted, List.filter_cons, if_neg (by simpa using omitted)]
      rfl
    · rw [if_neg omitted, List.filter_cons, if_pos (decide_eq_true omitted), List.flatMap_cons]
      congr 1
      simp [Signs.line, signs, lit]

theorem bodyPart_eq (body : Bytes) :
    bodyPart body = signs.text (lengthField body) body := by
  unfold bodyPart lengthField
  by_cases empty : body = []
  · subst empty
    decide +kernel
  · rw [if_pos empty, if_pos empty]
    simp [Signs.text, Signs.line, signs, lit, contentLengthName]

/-! ## The values of a name -/

/-- The names that `dump` writes are their own classes, and different. -/
theorem caseless_names : caseless connectionName = connectionName ∧
    caseless contentLengthName = contentLengthName ∧
    caseless (lit "Set-Cookie") = setCookieName ∧ connectionName ≠ contentLengthName := by
  decide +kernel

theorem valuesOf_connectionField (websocket close : Bool) (x : Bytes) :
    valuesOf caseless (connectionField websocket close) x =
      if websocket = false ∧ x = connectionName then [connectionValue close] else [] := by
  unfold connectionField
  cases websocket with
  | false => simp [valuesOf_singleton, caseless_names.1, eq_comm]
  | true => rfl

theorem valuesOf_lengthField (body x : Bytes) :
    valuesOf caseless (lengthField body) x =
      if body ≠ [] ∧ x = contentLengthName then [lit (toString body.length)] else [] := by
  unfold lengthField
  by_cases empty : body = []
  · subst empty
    rfl
  · simp [valuesOf_singleton, caseless_names.2.1, eq_comm, empty]

/-- No two headers of the map have the same name. -/
theorem length_ownFields_le (websocket : Bool) (headers : MapType) (x : Bytes) :
    (valuesOf caseless (ownFields websocket headers) x).length ≤ 1 := by
  apply length_valuesOf_le
  apply List.Pairwise.filter
  apply Std.TreeMap.distinct_keys_toList.imp
  exact fun distinct same => distinct (strcasecmp_of_caseless same)

/-- The `connection` of the map is left out. -/
theorem valuesOf_ownFields_connection (headers : MapType) :
    valuesOf caseless (ownFields false headers) connectionName = [] := by
  rw [valuesOf_eq_nil_iff]
  intro f written same
  refine of_decide_eq_true (List.mem_filter.mp written).2 ⟨rfl, strcasecmp_of_caseless ?_⟩
  rw [same, caseless_names.1]

/-- The `content-length` of the map is not. -/
theorem valuesOf_ownFields_length_iff (websocket : Bool) (headers : MapType) :
    valuesOf caseless (ownFields websocket headers) contentLengthName = [] ↔
      ∀ p ∈ headers.toList, caseless p.1 ≠ contentLengthName := by
  have other : strcasecmp contentLengthName connectionName ≠ .eq := by decide +kernel
  rw [valuesOf_eq_nil_iff]
  constructor
  · intro absent p inMap same
    refine absent p (List.mem_filter.mpr ⟨inMap, decide_eq_true fun omitted => other ?_⟩) same
    have equal := strcasecmp_of_caseless (same.trans caseless_names.2.1.symm)
    rw [← Std.TransCmp.congr_left equal]
    exact omitted.2
  · intro absent f written
    exact absent f (List.mem_filter.mp written).1

/-! ## When a message is framed -/

/-- The fields of a message, in the order of requests and without regard to the order. -/
def fieldsOf (websocket close : Bool) (headers : MapType) (cookies : List Bytes) (body : Bytes) :
    List (Bytes × Bytes) :=
  connectionField websocket close ++ ownFields websocket headers
    ++ cookies.map (fun i => (lit "Set-Cookie", i)) ++ lengthField body

section Fields

variable {websocket close : Bool} {headers : MapType} {cookies : List Bytes} {body x : Bytes}

/-- The values of a name other than `set-cookie`. -/
theorem valuesOf_fieldsOf (other : x ≠ setCookieName) :
    valuesOf caseless (fieldsOf websocket close headers cookies body) x =
      valuesOf caseless (connectionField websocket close) x
        ++ valuesOf caseless (ownFields websocket headers) x
        ++ valuesOf caseless (lengthField body) x := by
  have none : valuesOf caseless (cookies.map fun i => (lit "Set-Cookie", i)) x = [] := by
    rw [valuesOf_eq_nil_iff]
    intro f inCookies same
    obtain ⟨i, -, rfl⟩ := List.mem_map.mp inCookies
    exact other (same.symm.trans caseless_names.2.2.1)
  rw [fieldsOf, valuesOf_append, valuesOf_append, valuesOf_append, none, List.append_nil]

/-- No name is written twice, as long as the map has no `content-length` to go with the other. -/
theorem length_valuesOf_fieldsOf (noOwn : NoOwnLength headers body) (other : x ≠ setCookieName) :
    (valuesOf caseless (fieldsOf websocket close headers cookies body) x).length ≤ 1 := by
  have own := length_ownFields_le websocket headers x
  rw [valuesOf_fieldsOf other, valuesOf_connectionField, valuesOf_lengthField]
  by_cases atLength : body ≠ [] ∧ x = contentLengthName
  · obtain ⟨nonempty, rfl⟩ := atLength
    have absent := (valuesOf_ownFields_length_iff websocket headers).mpr
      (noOwn.resolve_left nonempty)
    rw [absent, if_neg fun both => caseless_names.2.2.2 both.2.symm, if_pos ⟨nonempty, rfl⟩]
    exact Nat.le_refl 1
  · rw [if_neg atLength, List.append_nil]
    by_cases atConnection : websocket = false ∧ x = connectionName
    · obtain ⟨rfl, rfl⟩ := atConnection
      rw [if_pos ⟨rfl, rfl⟩, valuesOf_ownFields_connection]
      exact Nat.le_refl 1
    · rw [if_neg atConnection]
      exact own

/-- A message is framed when the map has no `content-length` to go with the other. -/
theorem framed_fields_iff {start : Bytes} {fields : List (Bytes × Bytes)}
    (clean : ∀ f ∈ fields, signs.Clean f)
    (perm : fields.Perm (fieldsOf websocket close headers cookies body)) :
    Framed start (start ++ signs.text fields body) websocket close body ↔
      NoOwnLength headers body := by
  have lengthName : contentLengthName ≠ setCookieName := by decide +kernel
  have connectionOther : connectionName ≠ setCookieName := by decide +kernel
  constructor
  · rintro ⟨fields', clean', text, -, -, oneLength⟩
    obtain ⟨rfl, -⟩ := text_injective clean clean' (List.append_cancel_left text)
    by_cases empty : body = []
    · exact .inl empty
    · have values : (valuesOf caseless fields contentLengthName).Perm
          (valuesOf caseless (fieldsOf websocket close headers cookies body) contentLengthName) :=
        valuesOf_perm perm
      rw [oneLength empty, valuesOf_fieldsOf lengthName, valuesOf_lengthField, if_pos ⟨empty, rfl⟩]
        at values
      have lengths := values.length_eq
      simp only [List.length_append, List.length_singleton] at lengths
      refine .inr ((valuesOf_ownFields_length_iff websocket headers).mp ?_)
      exact List.eq_nil_of_length_eq_zero (by omega)
  · intro noOwn
    refine ⟨fields, clean, rfl, fun x other => ?_, fun http => ?_, fun nonempty => ?_⟩
    · rw [(valuesOf_perm perm).length_eq]
      exact length_valuesOf_fieldsOf noOwn other
    · rw [← List.perm_singleton]
      apply (valuesOf_perm perm).trans
      rw [valuesOf_fieldsOf connectionOther, valuesOf_connectionField, valuesOf_lengthField,
        if_pos ⟨http, rfl⟩, if_neg fun both => caseless_names.2.2.2 both.2, http,
        valuesOf_ownFields_connection]
      exact .refl _
    · have absent := (valuesOf_ownFields_length_iff websocket headers).mpr
        (noOwn.resolve_left nonempty)
      rw [← List.perm_singleton]
      apply (valuesOf_perm perm).trans
      rw [valuesOf_fieldsOf lengthName, valuesOf_connectionField, valuesOf_lengthField,
        if_neg fun both => caseless_names.2.2.2 both.2.symm, absent, if_pos ⟨nonempty, rfl⟩]
      exact .refl _

end Fields

/-! ## What setters make -/

/-- No header of the map can be taken for the end of a name or of a line. -/
def CleanHeaders (m : MapType) : Prop := ∀ p ∈ m.toList, signs.Clean p

theorem cleanHeaders_assign {m : MapType} {key val : Bytes} (clean : CleanHeaders m)
    (field : signs.Clean (key, val)) : CleanHeaders (m.assign key val) := by
  rintro ⟨k, v⟩ inMap
  obtain ⟨spelled, held⟩ :=
    Std.TreeMap.mem_toList_iff_getKey?_eq_some_and_getElem?_eq_some.mp inMap
  rw [MapType.getKey?_assign] at spelled
  rw [MapType.getElem?_assign] at held
  by_cases same : strcasecmp key k = .eq
  · rw [if_pos same, Option.some.injEq] at spelled held
    subst held
    cases old : m.getKey? key with
    | none =>
      rw [MapType.spelling, old, Option.getD_none] at spelled
      exact spelled ▸ field
    | some k' =>
      rw [MapType.spelling, old, Option.getD_some] at spelled
      subst spelled
      rw [Std.TreeMap.getKey?_congr same] at old
      obtain ⟨v', there⟩ := Option.isSome_iff_exists.mp (Std.TreeMap.mem_iff_isSome_getElem?.mp
        (Std.TreeMap.isSome_getKey?_iff_mem.mp (by rw [old]; rfl)))
      have name := clean (k', v')
        (Std.TreeMap.mem_toList_iff_getKey?_eq_some_and_getElem?_eq_some.mpr ⟨old, there⟩)
      exact ⟨name.colon_name, name.cr_name, field.cr_value⟩
  · rw [if_neg same] at spelled held
    exact clean (k, v)
      (Std.TreeMap.mem_toList_iff_getKey?_eq_some_and_getElem?_eq_some.mpr ⟨spelled, held⟩)

theorem cleanHeaders_erase {m : MapType} {key : Bytes} (clean : CleanHeaders m) :
    CleanHeaders (m.erase key) := by
  rintro ⟨k, v⟩ inMap
  obtain ⟨spelled, held⟩ :=
    Std.TreeMap.mem_toList_iff_getKey?_eq_some_and_getElem?_eq_some.mp inMap
  rw [Std.TreeMap.getKey?_erase] at spelled
  rw [Std.TreeMap.getElem?_erase] at held
  by_cases same : strcasecmp key k = .eq
  · rw [if_pos same] at held
    cases held
  · rw [if_neg same] at spelled held
    exact clean (k, v)
      (Std.TreeMap.mem_toList_iff_getKey?_eq_some_and_getElem?_eq_some.mpr ⟨spelled, held⟩)

/-- A number is written without a line end. -/
theorem cr_not_mem_number (n : ℕ) : byte '\r' ∉ lit (toString n) := by
  intro inText
  obtain ⟨c, inDigits, same⟩ := List.mem_map.mp inText
  have digit : c.isDigit = true := by
    apply Nat.isDigit_of_mem_toDigits (b := 10) (n := n) (by decide) (by decide)
    rwa [← Nat.toList_repr]
  have code : c.toNat % 256 = 13 := congrArg UInt8.toNat same
  have range : 48 ≤ c.toNat ∧ c.toNat ≤ 57 := Char.isDigit_iff_toNat.mp digit
  omega

/-- What is written is clean when the headers and the cookies are. -/
theorem clean_fieldsOf {websocket close : Bool} {headers : MapType} {cookies : List Bytes}
    (body : Bytes) (clean : CleanHeaders headers) (cookiesClean : ∀ i ∈ cookies, byte '\r' ∉ i) :
    ∀ f ∈ fieldsOf websocket close headers cookies body, signs.Clean f := by
  have names : ∀ name ∈ [connectionName, contentLengthName, lit "Set-Cookie"],
      byte ':' ∉ name ∧ byte '\r' ∉ name := by decide +kernel
  have field {name value : Bytes} (isName : name ∈ [connectionName, contentLengthName,
      lit "Set-Cookie"]) (free : byte '\r' ∉ value) : signs.Clean (name, value) :=
    ⟨(names name isName).1, (names name isName).2, free⟩
  have values : ∀ close, byte '\r' ∉ connectionValue close := by decide +kernel
  intro f written
  rcases List.mem_append.mp written with front | length
  · rcases List.mem_append.mp front with front | cookie
    · rcases List.mem_append.mp front with connection | own
      · unfold connectionField at connection
        split_ifs at connection with http
        · obtain rfl := List.mem_singleton.mp connection
          exact field (by simp) (values close)
        · cases connection
      · exact clean f (List.mem_filter.mp own).1
    · obtain ⟨i, inCookies, rfl⟩ := List.mem_map.mp cookie
      exact field (by simp) (cookiesClean i inCookies)
  · unfold lengthField at length
    split_ifs at length with nonempty
    · obtain rfl := List.mem_singleton.mp length
      exact field (by simp) (cr_not_mem_number body.length)
    · cases length

namespace Request

/-- The headers that a call brings in are clean. -/
def Call.Clean : Call → Prop
  | .setHeaders v => CleanHeaders v
  | .setHeader key val => signs.Clean (key, val)
  | _ => True

theorem clean_perform {r : Request} {call : Call} (clean : CleanHeaders r.mHeaders)
    (brings : call.Clean) : CleanHeaders (r.perform call).mHeaders := by
  cases call with
  | setHeaders v => exact brings
  | setHeader key val => exact cleanHeaders_assign clean brings
  | delHeader key => exact cleanHeaders_erase clean
  | init =>
    simp only [perform, Request.init]
    split_ifs <;> exact clean
  | initQueryParam =>
    simp only [perform, HttpRequest.initQueryParam]
    split_ifs <;> exact clean
  | initBodyParam =>
    simp only [perform, HttpRequest.initBodyParam]
    split_ifs <;> exact clean
  | initCookies =>
    simp only [perform, HttpRequest.initCookies]
    split_ifs <;> exact clean
  | _ => exact clean

theorem clean_run {r : Request} {calls : List Call} (clean : CleanHeaders r.mHeaders)
    (brings : ∀ call ∈ calls, call.Clean) : CleanHeaders (r.run calls).mHeaders := by
  induction calls generalizing r with
  | nil => exact clean
  | cons call calls ih =>
    obtain ⟨first, rest⟩ := List.forall_mem_cons.mp brings
    exact ih (clean_perform clean first) rest

/-- A request that a constructor and calls have made. -/
def Made (r : Request) : Prop :=
  ∃ version close calls, (∀ call ∈ calls, Call.Clean call) ∧ r = (make version close).run calls

theorem Made.clean {r : Request} (made : r.Made) : CleanHeaders r.mHeaders := by
  obtain ⟨version, close, calls, brings, rfl⟩ := made
  have start : CleanHeaders (make version close).mHeaders := by
    intro p inMap
    cases inMap
  exact clean_run start brings

theorem dump_eq (r : Request) : r.dump = r.startLine ++
    signs.text (fieldsOf r.mWebsocket r.mClose r.mHeaders [] r.mBody) r.mBody := by
  rw [dump, connectionLine_eq, headerLines_eq, bodyPart_eq, fieldsOf, List.map_nil, List.append_nil,
    text_append, List.flatMap_append]
  simp only [List.append_assoc]

end Request

namespace HttpResponse

/-- The headers and cookies that a call brings in are clean. -/
def Call.Clean : Call → Prop
  | .setHeaders v => CleanHeaders v
  | .setHeader key val => signs.Clean (key, val)
  | .setRedirect uri => byte '\r' ∉ uri
  | .setCookie key val _ path domain _ => ∀ part ∈ [key, val, path, domain], byte '\r' ∉ part
  | _ => True

/-- The headers and cookies of a response are clean. -/
structure Clean (r : HttpResponse) : Prop where
  headers : CleanHeaders r.mHeaders
  cookies : ∀ i ∈ r.mCookies, byte '\r' ∉ i

theorem cookieText_clean {key val path domain : Bytes} (secure : Bool)
    (parts : ∀ part ∈ [key, val, path, domain], byte '\r' ∉ part) :
    byte '\r' ∉ cookieText key val path domain secure := by
  have literals : ∀ text ∈ [lit "=", lit ";domain=", lit ";path=", lit ";secure"],
      byte '\r' ∉ text := by decide +kernel
  simp only [List.forall_mem_cons] at parts literals
  unfold cookieText
  split_ifs <;> simp [parts, literals]

theorem clean_perform {r : HttpResponse} {call : Call} (clean : r.Clean) (brings : call.Clean) :
    (r.perform call).Clean := by
  obtain ⟨headers, cookies⟩ := clean
  cases call with
  | setHeaders v => exact ⟨brings, cookies⟩
  | setHeader key val => exact ⟨cleanHeaders_assign headers brings, cookies⟩
  | delHeader key => exact ⟨cleanHeaders_erase headers, cookies⟩
  | setRedirect uri =>
    have name : byte ':' ∉ lit "Location" ∧ byte '\r' ∉ lit "Location" := by decide +kernel
    exact ⟨cleanHeaders_assign headers ⟨name.1, name.2, brings⟩, cookies⟩
  | setCookie key val expired path domain secure =>
    refine ⟨headers, fun i inCookies => ?_⟩
    rcases List.mem_append.mp inCookies with before | new
    · exact cookies i before
    · obtain rfl := List.mem_singleton.mp new
      exact cookieText_clean secure brings
  | _ => exact ⟨headers, cookies⟩

theorem clean_run {r : HttpResponse} {calls : List Call} (clean : r.Clean)
    (brings : ∀ call ∈ calls, call.Clean) : (r.run calls).Clean := by
  induction calls generalizing r with
  | nil => exact clean
  | cons call calls ih =>
    obtain ⟨first, rest⟩ := List.forall_mem_cons.mp brings
    exact ih (clean_perform clean first) rest

/-- A response that a constructor and calls have made. -/
def Made (r : HttpResponse) : Prop :=
  ∃ version close calls, (∀ call ∈ calls, Call.Clean call) ∧ r = (make version close).run calls

theorem Made.clean {r : HttpResponse} (made : r.Made) : r.Clean := by
  obtain ⟨version, close, calls, brings, rfl⟩ := made
  have start : (make version close).Clean := by
    constructor
    · intro p inMap
      cases inMap
    · intro i inCookies
      cases inCookies
  exact clean_run start brings

/-- The fields of a response as they are written. -/
def fields (r : HttpResponse) : List (Bytes × Bytes) :=
  ownFields r.mWebsocket r.mHeaders ++ r.mCookies.map (fun i => (lit "Set-Cookie", i))
    ++ connectionField r.mWebsocket r.mClose ++ lengthField r.mBody

theorem fields_perm (r : HttpResponse) :
    r.fields.Perm (fieldsOf r.mWebsocket r.mClose r.mHeaders r.mCookies r.mBody) := by
  rw [fields, fieldsOf, List.append_assoc (connectionField _ _)]
  exact List.perm_append_comm.append_right _

theorem dump_eq (r : HttpResponse) : r.dump = r.startLine ++ signs.text r.fields r.mBody := by
  have cookies : r.mCookies.flatMap (fun i => lit "Set-Cookie: " ++ i ++ lit "\r\n") =
      (r.mCookies.map fun i => (lit "Set-Cookie", i)).flatMap signs.line := by
    rw [List.flatMap_map]
    rfl
  rw [dump, connectionLine_eq, headerLines_eq, bodyPart_eq, cookies, fields, text_append,
    List.flatMap_append, List.flatMap_append]
  simp only [List.append_assoc]

end HttpResponse

theorem Request.Made.framed {r : Request} (made : r.Made) :
    Framed r.startLine r.dump r.mWebsocket r.mClose r.mBody ↔ NoOwnLength r.mHeaders r.mBody := by
  rw [Request.dump_eq]
  apply framed_fields_iff
  · exact clean_fieldsOf _ made.clean fun i inCookies => by cases inCookies
  · exact .refl _

theorem HttpResponse.Made.framed {r : HttpResponse} (made : r.Made) :
    Framed r.startLine r.dump r.mWebsocket r.mClose r.mBody ↔ NoOwnLength r.mHeaders r.mBody := by
  have perm := r.fields_perm
  rw [HttpResponse.dump_eq]
  apply framed_fields_iff
  · intro f written
    exact clean_fieldsOf _ made.clean.headers made.clean.cookies f (perm.mem_iff.mp written)
  · exact perm

/-- A message that setters have made is framed exactly when its map has no `content-length`
that goes with that of a body. -/
theorem framed_iff (req : Request) (rsp : HttpResponse) (made : req.Made) (made' : rsp.Made) :
    (Framed req.startLine req.dump req.mWebsocket req.mClose req.mBody ↔
      NoOwnLength req.mHeaders req.mBody) ∧
    (Framed rsp.startLine rsp.dump rsp.mWebsocket rsp.mClose rsp.mBody ↔
      NoOwnLength rsp.mHeaders rsp.mBody) :=
  ⟨made.framed, made'.framed⟩

/-- A request with one header and a body. -/
def withHeader (key val body : Bytes) : Request :=
  (Request.make 0x11 true).run [.setHeader key val, .setBody body]

theorem withHeader_made {key val : Bytes} (clean : signs.Clean (key, val)) (body : Bytes) :
    (withHeader key val body).Made := by
  refine ⟨0x11, true, _, ?_, rfl⟩
  simp only [List.forall_mem_cons]
  exact ⟨clean, trivial, fun call inCalls => by cases inCalls⟩

/-- A redirect with a body. -/
def redirect (uri body : Bytes) : HttpResponse :=
  (HttpResponse.make 0x11 true).run [.setRedirect uri, .setBody body]

theorem redirect_made {uri : Bytes} (clean : byte '\r' ∉ uri) (body : Bytes) :
    (redirect uri body).Made := by
  refine ⟨0x11, true, _, ?_, rfl⟩
  simp only [List.forall_mem_cons]
  exact ⟨clean, trivial, fun call inCalls => by cases inCalls⟩

/-- The request of the test program, and a redirect. -/
theorem test_framed :
    let req := withHeader (lit "host") (lit "www.sylar.top") (lit "hello sylar")
    let rsp := redirect (lit "/") (lit "moved")
    Framed req.startLine req.dump req.mWebsocket req.mClose req.mBody ∧
      Framed rsp.startLine rsp.dump rsp.mWebsocket rsp.mClose rsp.mBody := by
  have clean : signs.Clean (lit "host", lit "www.sylar.top") :=
    ⟨by decide +kernel, by decide +kernel, by decide +kernel⟩
  intro req rsp
  obtain ⟨request, response⟩ :=
    framed_iff req rsp (withHeader_made clean _) (redirect_made (by decide +kernel) _)
  constructor
  · refine request.mpr (.inr ?_)
    decide +kernel
  · refine response.mpr (.inr ?_)
    decide +kernel

/-- A `content-length` that was set, and a body of another length. -/
theorem two_lengths :
    let r := withHeader (lit "Content-Length") (lit "5") (lit "hello sylar")
    ¬ Framed r.startLine r.dump r.mWebsocket r.mClose r.mBody := by
  have clean : signs.Clean (lit "Content-Length", lit "5") :=
    ⟨by decide +kernel, by decide +kernel, by decide +kernel⟩
  intro r framed
  rcases (withHeader_made clean _).framed.mp framed with empty | absent
  · revert empty
    decide +kernel
  · revert absent
    decide +kernel

end Sylar
