import BoatRudder.Formats.MessageHead
import BoatRudder.Text.Rewrite
import BoatRudder.Utils.DetectEpoch
import BoatRudder.WapGateway.PagedBuild

/-! # The body of an epoch

`retrofit_body_for_epoch`: the fixups a finished page goes through before it is sent to an old
browser. Allocation never fails here. -/

namespace BoatRudder.Utils

open Wbxml

/-! ## Latin-1 -/

/-- `LATIN1_FALLBACK`: `#`. -/
def latin1Fallback : UInt8 := 35

/-- A byte that goes on with a character of UTF-8; the end of the string is none. -/
def isTrail (b : Option UInt8) : Bool := b.any (fun c => c &&& 0xC0 == 0x80)

/-- The loop of `utf8_to_latin1`. -/
def foldLatin1 : Bytes → Bytes
  | [] => []
  | p :: s =>
    if p < 0x80 then p :: foldLatin1 s
    else if p &&& 0xE0 = 0xC0 ∧ isTrail s[0]? then
      let cp := (p &&& 0x1F).toNat * 64 + (s.headD 0 &&& 0x3F).toNat
      (if cp ≤ 0xFF then UInt8.ofNat cp else latin1Fallback) :: foldLatin1 (s.drop 1)
    else if p &&& 0xF0 = 0xE0 ∧ isTrail s[0]? ∧ isTrail s[1]? then
      latin1Fallback :: foldLatin1 (s.drop 2)
    else if p &&& 0xF8 = 0xF0 ∧ isTrail s[0]? ∧ isTrail s[1]? ∧ isTrail s[2]? then
      latin1Fallback :: foldLatin1 (s.drop 3)
    else latin1Fallback :: foldLatin1 s
termination_by s => s.length
decreasing_by
  all_goals simp only [List.length_cons, List.length_drop]
  all_goals omega

/-- `utf8_to_latin1`, the string it returns. -/
def utf8ToLatin1 (utf8 : Bytes) : Bytes := cstr (foldLatin1 utf8)

/-! ## Links -/

/-- `tag`: what its 64 bytes hold of the name and the equals sign. -/
def tagOf (param : Bytes) : Bytes := (param ++ lit "=").take 63

/-- A value with `param=value` in its query: that of a link within the site that does not carry the
parameter yet. -/
def tagValue (param value val : Bytes) : Bytes :=
  let base := val.takeWhile (· ≠ 35)
  let siteRelative := val.head? = some 47 ∧ (val.drop 1).head? ≠ some 47
  let alreadyTagged := (findSub (tagOf param) (val.take 2047)).isSome
  if siteRelative ∧ ¬ alreadyTagged then
    base ++ ((if 63 ∈ base then lit "&amp;" else lit "?") ++ param ++ lit "=" ++ value) ++
      val.dropWhile (· ≠ 35)
  else val

/-- What `inject_query_param_into_attr` does at a marker, whose last byte is the quote of the value
that follows. -/
def tagRule (marker param value : Bytes) : RewriteRule := fun s =>
  if marker.isPrefixOf s then
    let quote := marker.getLastD 0
    let rest := s.drop marker.length
    if quote ∈ rest then
      some (marker ++ tagValue param value (rest.takeWhile (· ≠ quote)) ++ [quote],
        afterByte quote rest)
    else some (s, [])
  else none

/-- `inject_query_param_into_attr`. -/
def injectQueryParamIntoAttr (html marker param value : Bytes) : Bytes :=
  rewrite (tagRule marker param value) html

/-- What opens the address of a link: of an `href`, of a navigation in JavaScript, of a form. -/
def linkMarkers : List Bytes := [lit "href=\"", lit "location.href='", lit "action=\""]

/-- `inject_query_param_into_links`: one kind of link after the other. -/
def injectQueryParamIntoLinks (html param value : Bytes) : Bytes :=
  linkMarkers.foldl (fun html marker => injectQueryParamIntoAttr html marker param value) html

/-! ## WML -/

/-- The rule of a loop that puts one string for another, the strings being compared by `eq`. -/
def replaceRule (eq : Bytes → Bytes → Bool) (table : List (Bytes × Bytes)) : RewriteRule := fun s =>
  (table.find? fun r => eq r.1 (s.take r.1.length)).map fun r => (r.2, s.drop r.1.length)

/-- The line break `wml_close_br` closes. -/
def breakTable : List (Bytes × Bytes) := [(lit "<br>", lit "<br/>")]

/-- `wml_close_br`. -/
def wmlCloseBr (html : Bytes) : Bytes := rewrite (replaceRule (· == ·) breakTable) html

/-- The tags of lists, and what `wml_strip_lists` puts for them. -/
def listTable : List (Bytes × Bytes) :=
  [(lit "<ul>", []), (lit "</ul>", []), (lit "<ol>", []), (lit "</ol>", []), (lit "<li>", lit "- "),
    (lit "</li>", lit "<br/>")]

/-- `wml_strip_lists`. -/
def wmlStripLists (html : Bytes) : Bytes := rewrite (replaceRule eqNoCase listTable) html

/-! ## The fixups -/

/-- `WAP_PAGE_BYTES`. -/
def wapPageBytes : ℕ := 860

/-- What the fixups read of the request. -/
structure EpochRequest where
  /-- `request_site`: the key of the site, for a request without a host. -/
  site : Option Bytes
  /-- `request_lang`. -/
  lang : Bytes
  /-- `request_theme`. -/
  theme : Bytes
  /-- `request_wml_target`. -/
  wmlTarget : Bytes
  /-- `request_wml_unpaged`: the gateway asks for the whole deck. -/
  wmlUnpaged : Bool
  /-- `request_needs_legacy_charset`. -/
  needsLegacyCharset : Bool

variable (req : EpochRequest)

/-- The tagging with the key of the site. -/
def tagSite (body : Bytes) : Bytes :=
  match req.site with
  | some site =>
    injectQueryParamIntoAttr (injectQueryParamIntoLinks body (lit "site") site) (lit "src=\"")
      (lit "site") site
  | none => body

/-- The tagging with the language. -/
def tagLang (body : Bytes) : Bytes := injectQueryParamIntoLinks body (lit "lang") req.lang

/-- The page of the deck that is sent over HTTP; the deck itself where it is one page, or where the
gateway asks for it. -/
def pageDeck (body : Bytes) : Bytes :=
  if req.wmlUnpaged then body
  else
    match wmlPaginate (utf8ToLatin1 body) true req.wmlTarget (pageParam req.wmlTarget) wapPageBytes
      (lit "ISO-8859-1") with
    | some paged => tagLang req paged
    | none => body

/-- `retrofit_body_for_epoch`, nothing where the body goes out as it is. -/
def retrofitBodyForEpoch (body : Bytes) (epoch : ℤ) : Option Bytes :=
  if epochMiddle < epoch then
    if req.site.isSome then some (tagSite req body) else none
  else
    let cur := tagSite req body
    let cur := if epoch ≤ epochEarly then tagLang req cur else cur
    let cur := if epoch = epochWml then pageDeck req cur else cur
    let cur :=
      if epoch = epochEarly ∨ epoch = epochMiddle then
        injectQueryParamIntoLinks cur (lit "theme") req.theme
      else cur
    let cur := if epoch = epochWml then wmlStripLists (wmlCloseBr cur) else cur
    if epoch = epochEarly ∨ epoch = epochWml ∨
        (epoch = epochPrestandard ∧ req.needsLegacyCharset = true) then
      some (utf8ToLatin1 cur)
    else some cur

/-- A deck as it is sent: its breaks closed, its lists gone, in Latin-1. -/
def sentDeck (deck : Bytes) : Bytes := utf8ToLatin1 (wmlStripLists (wmlCloseBr deck))

/-- The deck of a request with a host. -/
theorem retrofitBodyForEpoch_wml (hsite : req.site = none) (body : Bytes) :
    retrofitBodyForEpoch req body epochWml =
      some (sentDeck (pageDeck req (tagLang req body))) := by
  have h1 : ¬ epochMiddle < epochWml := by decide
  have h2 : epochWml ≤ epochEarly := by decide
  have h3 : ¬ (epochWml = epochEarly ∨ epochWml = epochMiddle) := by decide
  simp only [retrofitBodyForEpoch, if_neg h1, if_pos h2, if_neg h3, if_true, tagSite, hsite,
    true_or, or_true, sentDeck]

/-! ## The response -/

/-- `content_type_for_epoch`. -/
def contentTypeForEpoch (epoch : ℤ) : Bytes :=
  if epoch = epochWml then lit "text/vnd.wap.wml"
  else if epoch = epochEarly then lit "text/html"
  else if epoch = epochPrestandard ∧ req.needsLegacyCharset = true then lit "text/html"
  else lit "text/html; charset=UTF-8"

/-- `SECURITY_HEADERS`, and the header after them. -/
def closingHeaders : Bytes :=
  lit "X-Content-Type-Options: nosniff" ++ crlf ++ (lit "X-Frame-Options: SAMEORIGIN" ++ crlf) ++
    (lit "Connection: close" ++ crlf)

/-- A response of the server: `leading` are the headers before the content type. -/
def renderResponse (statusLine leading contentType extraHeaders body : Bytes) : Bytes :=
  lit "HTTP/1.1 " ++ statusLine ++ crlf ++ leading ++ (lit "Content-Type: " ++ contentType ++ crlf) ++
    (lit "Content-Length: " ++ decimal body.length ++ crlf) ++ extraHeaders ++ closingHeaders ++
      crlf ++ body

/-- `build_epoch_response_status`. -/
def buildEpochResponseStatus (body extraHeaders : Bytes) (epoch : ℤ) (statusLine : Bytes) : Bytes :=
  renderResponse statusLine [] (contentTypeForEpoch req epoch) extraHeaders
    ((retrofitBodyForEpoch req body epoch).getD body)

/-- `build_epoch_response`. -/
def buildEpochResponse (body extraHeaders : Bytes) (epoch : ℤ) : Bytes :=
  buildEpochResponseStatus req body extraHeaders epoch (lit "200 OK")

/-- `redirect_response_to`; `body` is what `build_redirect_body` makes of the location. -/
def redirectResponseTo (location body extraHeaders : Bytes) (epoch : ℤ) : Bytes :=
  renderResponse (lit "302 Found") (lit "Location: " ++ location ++ crlf) (contentTypeForEpoch req epoch)
    extraHeaders ((retrofitBodyForEpoch req body epoch).getD body)

/-- `build_json_response_status`. -/
def buildJsonResponseStatus (jsonBody statusLine : Bytes) : Bytes :=
  renderResponse statusLine [] (lit "application/json; charset=UTF-8") [] jsonBody

end BoatRudder.Utils
