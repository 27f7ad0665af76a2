import Mathlib.Data.Int.Notation
import Sylar.Http.Model

/-!
# Requests and responses as they are written

`HttpRequest` and `HttpResponse` of `http.hpp` with all their fields, the calls that change
them, and `dump`. The parameters and cookies of a request are those of `Sylar.Http.Model`.
-/

namespace Sylar

open Bytes StringUtil

/-! ## The two tables -/

/-- `HttpMethod`. -/
inductive HttpMethod where
  | DELETE | GET | HEAD | POST | PUT | CONNECT | OPTIONS | TRACE | COPY | LOCK | MKCOL | MOVE
  | PROPFIND | PROPPATCH | SEARCH | UNLOCK | BIND | REBIND | UNBIND | ACL | REPORT | MKACTIVITY
  | CHECKOUT | MERGE | MSEARCH | NOTIFY | SUBSCRIBE | UNSUBSCRIBE | PATCH | PURGE | MKCALENDAR
  | LINK | UNLINK | SOURCE | INVALID_METHOD

/-- `HttpMethodToString`, out of `s_method_string`. -/
def HttpMethod.toText : HttpMethod → Bytes
  | DELETE => lit "DELETE"
  | GET => lit "GET"
  | HEAD => lit "HEAD"
  | POST => lit "POST"
  | PUT => lit "PUT"
  | CONNECT => lit "CONNECT"
  | OPTIONS => lit "OPTIONS"
  | TRACE => lit "TRACE"
  | COPY => lit "COPY"
  | LOCK => lit "LOCK"
  | MKCOL => lit "MKCOL"
  | MOVE => lit "MOVE"
  | PROPFIND => lit "PROPFIND"
  | PROPPATCH => lit "PROPPATCH"
  | SEARCH => lit "SEARCH"
  | UNLOCK => lit "UNLOCK"
  | BIND => lit "BIND"
  | REBIND => lit "REBIND"
  | UNBIND => lit "UNBIND"
  | ACL => lit "ACL"
  | REPORT => lit "REPORT"
  | MKACTIVITY => lit "MKACTIVITY"
  | CHECKOUT => lit "CHECKOUT"
  | MERGE => lit "MERGE"
  | MSEARCH => lit "M-SEARCH"
  | NOTIFY => lit "NOTIFY"
  | SUBSCRIBE => lit "SUBSCRIBE"
  | UNSUBSCRIBE => lit "UNSUBSCRIBE"
  | PATCH => lit "PATCH"
  | PURGE => lit "PURGE"
  | MKCALENDAR => lit "MKCALENDAR"
  | LINK => lit "LINK"
  | UNLINK => lit "UNLINK"
  | SOURCE => lit "SOURCE"
  | INVALID_METHOD => lit "<unknown>"

/-- `HttpStatus`. -/
inductive HttpStatus where
  | CONTINUE | SWITCHING_PROTOCOLS | PROCESSING | OK | CREATED | ACCEPTED
  | NON_AUTHORITATIVE_INFORMATION | NO_CONTENT | RESET_CONTENT | PARTIAL_CONTENT | MULTI_STATUS
  | ALREADY_REPORTED | IM_USED | MULTIPLE_CHOICES | MOVED_PERMANENTLY | FOUND | SEE_OTHER
  | NOT_MODIFIED | USE_PROXY | TEMPORARY_REDIRECT | PERMANENT_REDIRECT | BAD_REQUEST
  | UNAUTHORIZED | PAYMENT_REQUIRED | FORBIDDEN | NOT_FOUND | METHOD_NOT_ALLOWED | NOT_ACCEPTABLE
  | PROXY_AUTHENTICATION_REQUIRED | REQUEST_TIMEOUT | CONFLICT | GONE | LENGTH_REQUIRED
  | PRECONDITION_FAILED | PAYLOAD_TOO_LARGE | URI_TOO_LONG | UNSUPPORTED_MEDIA_TYPE
  | RANGE_NOT_SATISFIABLE | EXPECTATION_FAILED | MISDIRECTED_REQUEST | UNPROCESSABLE_ENTITY
  | LOCKED | FAILED_DEPENDENCY | UPGRADE_REQUIRED | PRECONDITION_REQUIRED | TOO_MANY_REQUESTS
  | REQUEST_HEADER_FIELDS_TOO_LARGE | UNAVAILABLE_FOR_LEGAL_REASONS | INTERNAL_SERVER_ERROR
  | NOT_IMPLEMENTED | BAD_GATEWAY | SERVICE_UNAVAILABLE | GATEWAY_TIMEOUT
  | HTTP_VERSION_NOT_SUPPORTED | VARIANT_ALSO_NEGOTIATES | INSUFFICIENT_STORAGE | LOOP_DETECTED
  | NOT_EXTENDED | NETWORK_AUTHENTICATION_REQUIRED

/-- The value of a status, and its text in `HttpStatusToString`. -/
def HttpStatus.entry : HttpStatus → ℕ × Bytes
  | CONTINUE => (100, lit "Continue")
  | SWITCHING_PROTOCOLS => (101, lit "Switching Protocols")
  | PROCESSING => (102, lit "Processing")
  | OK => (200, lit "OK")
  | CREATED => (201, lit "Created")
  | ACCEPTED => (202, lit "Accepted")
  | NON_AUTHORITATIVE_INFORMATION => (203, lit "Non-Authoritative Information")
  | NO_CONTENT => (204, lit "No Content")
  | RESET_CONTENT => (205, lit "Reset Content")
  | PARTIAL_CONTENT => (206, lit "Partial Content")
  | MULTI_STATUS => (207, lit "Multi-Status")
  | ALREADY_REPORTED => (208, lit "Already Reported")
  | IM_USED => (226, lit "IM Used")
  | MULTIPLE_CHOICES => (300, lit "Multiple Choices")
  | MOVED_PERMANENTLY => (301, lit "Moved Permanently")
  | FOUND => (302, lit "Found")
  | SEE_OTHER => (303, lit "See Other")
  | NOT_MODIFIED => (304, lit "Not Modified")
  | USE_PROXY => (305, lit "Use Proxy")
  | TEMPORARY_REDIRECT => (307, lit "Temporary Redirect")
  | PERMANENT_REDIRECT => (308, lit "Permanent Redirect")
  | BAD_REQUEST => (400, lit "Bad Request")
  | UNAUTHORIZED => (401, lit "Unauthorized")
  | PAYMENT_REQUIRED => (402, lit "Payment Required")
  | FORBIDDEN => (403, lit "Forbidden")
  | NOT_FOUND => (404, lit "Not Found")
  | METHOD_NOT_ALLOWED => (405, lit "Method Not Allowed")
  | NOT_ACCEPTABLE => (406, lit "Not Acceptable")
  | PROXY_AUTHENTICATION_REQUIRED => (407, lit "Proxy Authentication Required")
  | REQUEST_TIMEOUT => (408, lit "Request Timeout")
  | CONFLICT => (409, lit "Conflict")
  | GONE => (410, lit "Gone")
  | LENGTH_REQUIRED => (411, lit "Length Required")
  | PRECONDITION_FAILED => (412, lit "Precondition Failed")
  | PAYLOAD_TOO_LARGE => (413, lit "Payload Too Large")
  | URI_TOO_LONG => (414, lit "URI Too Long")
  | UNSUPPORTED_MEDIA_TYPE => (415, lit "Unsupported Media Type")
  | RANGE_NOT_SATISFIABLE => (416, lit "Range Not Satisfiable")
  | EXPECTATION_FAILED => (417, lit "Expectation Failed")
  | MISDIRECTED_REQUEST => (421, lit "Misdirected Request")
  | UNPROCESSABLE_ENTITY => (422, lit "Unprocessable Entity")
  | LOCKED => (423, lit "Locked")
  | FAILED_DEPENDENCY => (424, lit "Failed Dependency")
  | UPGRADE_REQUIRED => (426, lit "Upgrade Required")
  | PRECONDITION_REQUIRED => (428, lit "Precondition Required")
  | TOO_MANY_REQUESTS => (429, lit "Too Many Requests")
  | REQUEST_HEADER_FIELDS_TOO_LARGE => (431, lit "Request Header Fields Too Large")
  | UNAVAILABLE_FOR_LEGAL_REASONS => (451, lit "Unavailable For Legal Reasons")
  | INTERNAL_SERVER_ERROR => (500, lit "Internal Server Error")
  | NOT_IMPLEMENTED => (501, lit "Not Implemented")
  | BAD_GATEWAY => (502, lit "Bad Gateway")
  | SERVICE_UNAVAILABLE => (503, lit "Service Unavailable")
  | GATEWAY_TIMEOUT => (504, lit "Gateway Timeout")
  | HTTP_VERSION_NOT_SUPPORTED => (505, lit "HTTP Version Not Supported")
  | VARIANT_ALSO_NEGOTIATES => (506, lit "Variant Also Negotiates")
  | INSUFFICIENT_STORAGE => (507, lit "Insufficient Storage")
  | LOOP_DETECTED => (508, lit "Loop Detected")
  | NOT_EXTENDED => (510, lit "Not Extended")
  | NETWORK_AUTHENTICATION_REQUIRED => (511, lit "Network Authentication Required")

/-! ## Requests -/

/-- `HttpRequest`, with the fields that take no part in its parameters. -/
structure Request extends HttpRequest where
  mMethod : HttpMethod
  mVersion : UInt8
  mClose : Bool
  mWebsocket : Bool
  mPath : Bytes
  mFragment : Bytes

/-- The names that `dump` writes itself. -/
def connectionName : Bytes := lit "connection"

def contentLengthName : Bytes := lit "content-length"

/-- The value of the `connection` that `dump` writes. -/
def connectionValue (close : Bool) : Bytes := if close = true then lit "close" else lit "keep-alive"

/-- The `connection` of a message. -/
def connectionLine (websocket close : Bool) : Bytes :=
  if websocket = false then lit "connection: " ++ connectionValue close ++ lit "\r\n" else []

/-- The headers of the map. The name `connection` is left out when it is written apart. -/
def headerLines (websocket : Bool) (headers : MapType) : Bytes :=
  headers.toList.flatMap fun i =>
    if websocket = false ∧ strcasecmp i.1 connectionName = .eq then []
    else i.1 ++ lit ": " ++ i.2 ++ lit "\r\n"

/-- The `content-length`, the empty line and the body. -/
def bodyPart (body : Bytes) : Bytes :=
  if body ≠ [] then
    lit "content-length: " ++ lit (toString body.length) ++ lit "\r\n\r\n" ++ body
  else lit "\r\n"

/-- The digits of a protocol version. -/
def versionText (version : UInt8) : Bytes :=
  lit "HTTP/" ++ lit (toString (version >>> 4).toNat) ++ lit "." ++
    lit (toString (version &&& 0x0F).toNat)

namespace Request

/-- The constructor. -/
def make (version : UInt8) (close : Bool) : Request :=
  { HttpRequest.init with
    mMethod := .GET
    mVersion := version
    mClose := close
    mWebsocket := false
    mPath := lit "/"
    mFragment := [] }

/-- `init`: a `connection` that was received decides about `m_close`. -/
def init (r : Request) : Request :=
  let conn := r.getHeader connectionName []
  if conn = [] then r
  else if strcasecmp conn (lit "keep-alive") = .eq then { r with mClose := false }
  else { r with mClose := true }

/-- What `dump` writes before the headers. -/
def startLine (r : Request) : Bytes :=
  r.mMethod.toText ++ lit " " ++ r.mPath
    ++ (if r.mQuery = [] then [] else lit "?") ++ r.mQuery
    ++ (if r.mFragment = [] then [] else lit "#") ++ r.mFragment
    ++ lit " " ++ versionText r.mVersion ++ lit "\r\n"

/-- `dump`. -/
def dump (r : Request) : Bytes :=
  r.startLine ++ connectionLine r.mWebsocket r.mClose ++ headerLines r.mWebsocket r.mHeaders
    ++ bodyPart r.mBody

/-- The calls that change a request. Its readers parse its texts first, if they have not been
parsed yet. -/
inductive Call where
  | setMethod (v : HttpMethod)
  | setVersion (v : UInt8)
  | setPath (v : Bytes)
  | setQuery (v : Bytes)
  | setFragment (v : Bytes)
  | setBody (v : Bytes)
  | setClose (v : Bool)
  | setWebsocket (v : Bool)
  | setHeaders (v : MapType)
  | setParams (v : MapType)
  | setCookies (v : MapType)
  | setHeader (key val : Bytes)
  | setParam (key val : Bytes)
  | setCookie (key val : Bytes)
  | delHeader (key : Bytes)
  | delParam (key : Bytes)
  | delCookie (key : Bytes)
  | init
  | initQueryParam
  | initBodyParam
  | initCookies

/-- One call. -/
def perform (r : Request) : Call → Request
  | .setMethod v => { r with mMethod := v }
  | .setVersion v => { r with mVersion := v }
  | .setPath v => { r with mPath := v }
  | .setQuery v => { r with toHttpRequest := r.toHttpRequest.setQuery v }
  | .setFragment v => { r with mFragment := v }
  | .setBody v => { r with mBody := v }
  | .setClose v => { r with mClose := v }
  | .setWebsocket v => { r with mWebsocket := v }
  | .setHeaders v => { r with mHeaders := v }
  | .setParams v => { r with mParams := v }
  | .setCookies v => { r with mCookies := v }
  | .setHeader key val => { r with toHttpRequest := r.toHttpRequest.setHeader key val }
  | .setParam key val => { r with toHttpRequest := r.toHttpRequest.setParam key val }
  | .setCookie key val => { r with toHttpRequest := r.toHttpRequest.setCookie key val }
  | .delHeader key => { r with mHeaders := r.mHeaders.erase key }
  | .delParam key => { r with toHttpRequest := r.toHttpRequest.delParam key }
  | .delCookie key => { r with toHttpRequest := r.toHttpRequest.delCookie key }
  | .init => r.init
  | .initQueryParam => { r with toHttpRequest := r.toHttpRequest.initQueryParam }
  | .initBodyParam => { r with toHttpRequest := r.toHttpRequest.initBodyParam }
  | .initCookies => { r with toHttpRequest := r.toHttpRequest.initCookies }

/-- Calls, one after another. -/
def run (r : Request) (calls : List Call) : Request := calls.foldl perform r

end Request

/-! ## Responses -/

/-- `HttpResponse`. -/
structure HttpResponse where
  mStatus : HttpStatus
  mVersion : UInt8
  mClose : Bool
  mWebsocket : Bool
  mBody : Bytes
  mReason : Bytes
  mHeaders : MapType
  mCookies : List Bytes

namespace HttpResponse

/-- The constructor. -/
def make (version : UInt8) (close : Bool) : HttpResponse :=
  { mStatus := .OK
    mVersion := version
    mClose := close
    mWebsocket := false
    mBody := []
    mReason := []
    mHeaders := ∅
    mCookies := [] }

/-- `setHeader`. -/
def setHeader (r : HttpResponse) (key val : Bytes) : HttpResponse :=
  { r with mHeaders := r.mHeaders.assign key val }

/-- `setRedirect`. -/
def setRedirect (r : HttpResponse) (uri : Bytes) : HttpResponse :=
  { r with mStatus := .FOUND }.setHeader (lit "Location") uri

/-- The text of a cookie. `expired` is not written. -/
def cookieText (key val path domain : Bytes) (secure : Bool) : Bytes :=
  key ++ lit "=" ++ val ++ (if domain ≠ [] then lit ";domain=" ++ domain else [])
    ++ (if path ≠ [] then lit ";path=" ++ path else [])
    ++ (if secure = true then lit ";secure" else [])

/-- `setCookie`. -/
def setCookie (r : HttpResponse) (key val : Bytes) (_expired : ℤ) (path domain : Bytes)
    (secure : Bool) : HttpResponse :=
  { r with mCookies := r.mCookies ++ [cookieText key val path domain secure] }

/-- What `dump` writes before the headers. -/
def startLine (r : HttpResponse) : Bytes :=
  versionText r.mVersion ++ lit " " ++ lit (toString r.mStatus.entry.1) ++ lit " "
    ++ (if r.mReason = [] then r.mStatus.entry.2 else r.mReason) ++ lit "\r\n"

/-- `dump`. -/
def dump (r : HttpResponse) : Bytes :=
  r.startLine ++ headerLines r.mWebsocket r.mHeaders
    ++ r.mCookies.flatMap (fun i => lit "Set-Cookie: " ++ i ++ lit "\r\n")
    ++ connectionLine r.mWebsocket r.mClose ++ bodyPart r.mBody

/-- The calls that change a response. -/
inductive Call where
  | setStatus (v : HttpStatus)
  | setVersion (v : UInt8)
  | setBody (v : Bytes)
  | setReason (v : Bytes)
  | setHeaders (v : MapType)
  | setClose (v : Bool)
  | setWebsocket (v : Bool)
  | setHeader (key val : Bytes)
  | delHeader (key : Bytes)
  | setRedirect (uri : Bytes)
  | setCookie (key val : Bytes) (expired : ℤ) (path domain : Bytes) (secure : Bool)

/-- One call. -/
def perform (r : HttpResponse) : Call → HttpResponse
  | .setStatus v => { r with mStatus := v }
  | .setVersion v => { r with mVersion := v }
  | .setBody v => { r with mBody := v }
  | .setReason v => { r with mReason := v }
  | .setHeaders v => { r with mHeaders := v }
  | .setClose v => { r with mClose := v }
  | .setWebsocket v => { r with mWebsocket := v }
  | .setHeader key val => r.setHeader key val
  | .delHeader key => { r with mHeaders := r.mHeaders.erase key }
  | .setRedirect uri => r.setRedirect uri
  | .setCookie key val expired path domain secure => r.setCookie key val expired path domain secure

/-- Calls, one after another. -/
def run (r : HttpResponse) (calls : List Call) : HttpResponse := calls.foldl perform r

end HttpResponse

end Sylar
