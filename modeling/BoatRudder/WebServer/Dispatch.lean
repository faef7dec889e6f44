import BoatRudder.WebServer.FormFields
import BoatRudder.WebServer.HttpRequestParser

/-! # The path a request is dispatched on

`http_route` takes the route out of the URL (`url_parse`), decodes it (`url_decode`), and picks a
handler by the path that makes. A part of the URL that is written without escapes reads the same in it
(**`decodedUrl_of_plain`**). -/

namespace BoatRudder.WebServer

/-- `get_header_value`. -/
def HttpRequest.headerValue (req : HttpRequest) (key : Bytes) : Option Bytes :=
  (req.headers.find? fun h => eqNoCase h.key key).map (·.value)

/-- What stands in a URL before its fragment. -/
def beforeFragment (url : Bytes) : Bytes := url.takeWhile (· ≠ 35)

/-- The route `url_parse` copies out, into a buffer of this size. -/
def urlRoute (url : Bytes) (routeSize : ℕ) : Bytes :=
  ((beforeFragment url).takeWhile (· ≠ 63)).take (routeSize - 1)

/-- The query `url_parse` reads, with its question mark; empty when there is none. -/
def urlQuery (url : Bytes) : Bytes := (beforeFragment url).dropWhile (· ≠ 63)

/-- `decoded_url`. -/
def decodedUrl (url : Bytes) : Bytes := cstr (urlDecode (urlRoute (url.take 2047) 2048))

/-! ## Plain text -/

/-- What reads the same decoded. -/
def Plain (s : Bytes) : Prop := ∀ c ∈ s, c ≠ 37 ∧ c ≠ 43 ∧ c ≠ 0

instance (s : Bytes) : Decidable (Plain s) := inferInstanceAs (Decidable (∀ _ ∈ _, _))

theorem urlDecode_cons_of_ne {c : UInt8} (hpercent : c ≠ 37) (hplus : c ≠ 43) (s : Bytes) :
    urlDecode (c :: s) = c :: urlDecode s := by
  rw [urlDecode.eq_4]
  · rintro a b t rfl
    exact absurd rfl hpercent
  · exact hplus

/-- Plain text before the rest of a URL stays before it. -/
theorem urlDecode_append_of_plain {a : Bytes} (h : Plain a) (s : Bytes) :
    urlDecode (a ++ s) = a ++ urlDecode s := by
  induction a with
  | nil => rfl
  | cons c a ih =>
    obtain ⟨hpercent, hplus, -⟩ := h c List.mem_cons_self
    rw [List.cons_append, urlDecode_cons_of_ne hpercent hplus,
      ih fun d hd => h d (List.mem_cons_of_mem _ hd), List.cons_append]

/-- The path of a URL, as it stands in it. -/
def rawPath (url : Bytes) : Bytes := url.takeWhile fun c => c ≠ 63 ∧ c ≠ 35

theorem takeWhile_beforeFragment (url : Bytes) : (beforeFragment url).takeWhile (· ≠ 63) = rawPath url := by
  rw [beforeFragment, rawPath, List.takeWhile_takeWhile]
  congr 1
  funext c
  simp

/-- The decoded path is made of the path as it stands in the URL. -/
theorem decodedUrl_eq (url : Bytes) : decodedUrl url = cstr (urlDecode ((rawPath url).take 2047)) := by
  rw [decodedUrl, urlRoute, takeWhile_beforeFragment, rawPath, ← List.take_takeWhile, List.take_take]
  rfl

/-- **Plain text at the beginning of a path** is what the decoded path begins with. -/
theorem decodedUrl_of_plain {url a s : Bytes} (hplain : Plain a) (hlength : a.length ≤ 2047)
    (hpath : rawPath url = a ++ s) : ∃ rest, decodedUrl url = a ++ rest ∧ (s = [] → rest = []) := by
  have hnul : 0 ∉ a := fun h => (hplain 0 h).2.2 rfl
  refine ⟨cstr (urlDecode (s.take (2047 - a.length))), ?_, ?_⟩
  · rw [decodedUrl_eq, hpath, List.take_append, List.take_of_length_le hlength,
      urlDecode_append_of_plain hplain, cstr_append_of_notMem hnul]
  · rintro rfl
    simp [urlDecode, cstr]

end BoatRudder.WebServer
