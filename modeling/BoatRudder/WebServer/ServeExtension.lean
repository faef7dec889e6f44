import BoatRudder.Extensions.Forward
import BoatRudder.WebServer.DashboardGate

/-! # The pages of an extension

`serve_extension` answers a request below `/dashboard/ext/`: behind the gate of the dashboard it
forwards the request to the extension that the decoded path names, and makes a page, a redirect or a
JSON response of what the extension answers. -/

namespace BoatRudder.WebServer

open Db
open Extensions (Extension ExtensionInfo ExtensionRequest ExtensionResponse validName)

/-! ## Addresses -/

/-- `EXTENSION_ROUTE_PREFIX`. -/
def extensionRoutePrefix : Bytes := lit "/dashboard/ext/"

/-- Where an extension is mounted. -/
def mountOf (name : Bytes) : Bytes := extensionRoutePrefix ++ name

/-- Whether `http_route` hands a request to `serve_extension`. -/
def dispatchesToExtension (req : HttpRequest) : Bool :=
  extensionRoutePrefix.isPrefixOf (decodedUrl req.url) &&
    (req.method == lit "GET" || req.method == lit "HEAD" || req.method == lit "POST")

/-- The name a decoded path has behind the prefix. -/
def extensionName (decodedUrl : Bytes) : Bytes :=
  (decodedUrl.drop extensionRoutePrefix.length).takeWhile (· ≠ 47)

/-- `target`: what stands in the URL from the length of the mount on. -/
def extensionTarget (url mount : Bytes) : Bytes :=
  let tail := url.drop mount.length
  (if tail.head? = some 47 then tail else 47 :: tail).take 2047

/-- `request_site_tag_location`, with what `request_site` returns. -/
def requestSiteTagLocation (site : Option Bytes) (location : Bytes) : Bytes :=
  match site with
  | none => location
  | some key =>
    if location.head? = some 47 ∧ (location.drop 1).head? ≠ some 47 ∧
        findSub (lit "site=") location = none then
      let base := location.takeWhile (· ≠ 35)
      base ++ (if 63 ∈ base then lit "&" else lit "?") ++ lit "site=" ++ key ++ location.drop base.length
    else location

/-! ## Answers -/

/-- `extension_status_line`. -/
def extensionStatusLine (status : Int32) : Bytes :=
  if status = 200 then lit "200 OK"
  else if status = 201 then lit "201 Created"
  else if status = 204 then lit "204 No Content"
  else if status = 400 then lit "400 Bad Request"
  else if status = 403 then lit "403 Forbidden"
  else if status = 404 then lit "404 Not Found"
  else if status = 409 then lit "409 Conflict"
  else if status = 413 then lit "413 Content Too Large"
  else if status = 422 then lit "422 Unprocessable Content"
  else if status = 503 then lit "503 Service Unavailable"
  else if 500 ≤ status then lit "500 Internal Server Error"
  else if 400 ≤ status then lit "400 Bad Request"
  else lit "200 OK"

/-- What `serve_extension` answers. -/
inductive ExtensionAnswer
  /-- The gate's answer. -/
  | refused (refusal : GateRefusal)
  | error (status : ℕ)
  /-- A redirect, with its `Location`. -/
  | redirect (location : Bytes)
  /-- The extension's HTML in a page of the site. -/
  | page (title statusLine body : Bytes)
  | json (statusLine body : Bytes)
  deriving DecidableEq, Repr

/-- Whether a redirect is let through. -/
def acceptsLocation (location : Bytes) : Bool :=
  location.head? = some 47 && (location.drop 1).head? ≠ some 47 && !location.contains 92

/-- What `serve_extension` makes of the extension's answer. -/
def extensionAnswer (site : Option Bytes) (name : Bytes) (info : ExtensionInfo) (rs : ExtensionResponse) :
    ExtensionAnswer :=
  if 300 ≤ rs.status ∧ rs.status < 400 then
    if acceptsLocation rs.location then
      .redirect (requestSiteTagLocation site (mountOf name ++ rs.location))
    else .error 502
  else if eqNoCase (rs.contentType.take 9) (lit "text/html") then
    .page ((lit "\x7b\x7bSITE_NAME\x7d\x7d - " ++ if rs.title ≠ [] then rs.title else info.title).take 192)
      (extensionStatusLine rs.status) (cstr rs.body)
  else if eqNoCase (rs.contentType.take 16) (lit "application/json") then
    .json (extensionStatusLine rs.status) (cstr rs.body)
  else .error 502

/-! ## The route -/

/-- What `serve_extension` meets. -/
structure ExtensionVisit where
  /-- `dashboard_allowed`. -/
  allowed : Bool
  genericHash : Bytes → Bytes → Bytes
  gate : GateState
  /-- The registry: `valid_name` has seen every name in it. -/
  exts : List Extension
  named : ∀ ext ∈ exts, validName ext.info.name = true
  userName : Bytes
  lang : Bytes
  theme : Bytes
  epoch : Int32
  /-- `request_site`. -/
  site : Option Bytes
  /-- `extensions_forward`. -/
  forward : Bytes → ExtensionRequest → Except ℤ ExtensionResponse

/-- `extensions_get`. -/
def extensionsGet (exts : List Extension) (name : Bytes) : Option ExtensionInfo :=
  (Extensions.find exts name).bind fun ext => if ext.present then some ext.info else none

namespace ExtensionVisit

variable (v : ExtensionVisit) (req : HttpRequest)

/-- `rq`: the request that is forwarded. -/
def extensionRequest (name user role : Bytes) : ExtensionRequest where
  method := req.method
  mount := mountOf name
  target := extensionTarget req.url (mountOf name)
  contentType := (req.headerValue (lit "Content-Type")).getD []
  body := req.body.getD []
  userId := user
  userName := v.userName
  role := role
  lang := v.lang
  theme := v.theme
  epoch := v.epoch
  requestId := []

/-- `serve_extension`. -/
def serveExtension (decodedUrl : Bytes) : ExtensionAnswer :=
  if !v.allowed then .redirect (requestSiteTagLocation v.site (lit "/dashboard"))
  else
    match requireDashboardSession v.genericHash v.gate req with
    | .error refusal => .refused refusal
    | .ok (user, role) =>
      let name := extensionName decodedUrl
      if name = [] ∨ 32 ≤ name.length then .error 404
      else
        match extensionsGet v.exts name with
        | none => .error 404
        | some info =>
          if !info.enabled then .error 404
          else
            match v.forward name (v.extensionRequest req name user role) with
            | .error rc => .error (if rc = -2 then 502 else 503)
            | .ok rs => extensionAnswer v.site name info rs

/-- The extension of this name answers the request with `rs`. -/
def AnsweredBy (name : Bytes) (info : ExtensionInfo) (rs : ExtensionResponse) : Prop :=
  v.allowed = true ∧ extensionName (decodedUrl req.url) = name ∧ extensionsGet v.exts name = some info ∧
    info.enabled = true ∧ ∃ user role, requireDashboardSession v.genericHash v.gate req = .ok (user, role) ∧
      v.forward name (v.extensionRequest req name user role) = .ok rs

variable {v req} {name : Bytes} {info : ExtensionInfo} {rs : ExtensionResponse}

/-- An extension that is found has a name that `valid_name` has seen. -/
theorem validName_of_get (h : extensionsGet v.exts name = some info) : validName name = true := by
  obtain ⟨ext, hfind, -⟩ := Option.bind_eq_some_iff.mp h
  obtain rfl : ext.info.name = name := by simpa using List.find?_some hfind
  exact v.named ext (List.mem_of_find?_eq_some hfind)

/-- **What an extension answers is what is made of it.** -/
theorem serveExtension_eq (h : v.AnsweredBy req name info rs) :
    v.serveExtension req (decodedUrl req.url) = extensionAnswer v.site name info rs := by
  obtain ⟨hallowed, rfl, hget, henabled, user, role, hgate, hanswer⟩ := h
  have hname := validName_of_get hget
  simp only [validName, Bool.and_eq_true, decide_eq_true_eq] at hname
  have hmax : (extensionName (decodedUrl req.url)).length ≤ 31 := hname.1.2
  have hlength : ¬ (extensionName (decodedUrl req.url) = [] ∨
      32 ≤ (extensionName (decodedUrl req.url)).length) := by
    rintro (hnil | hlong)
    · rw [hnil] at hname
      exact hname.1.1 rfl
    · omega
  rw [serveExtension, if_neg (by simp [hallowed]), hgate]
  dsimp only
  rw [if_neg hlength, hget]
  dsimp only
  rw [if_neg (by simp [henabled]), hanswer]

end ExtensionVisit

end BoatRudder.WebServer
