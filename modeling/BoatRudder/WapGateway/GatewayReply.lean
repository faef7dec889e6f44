import BoatRudder.Utils.EpochResponse
import BoatRudder.WapGateway.CleanRequest
import BoatRudder.WapGateway.ValidBody

/-! # What the gateway answers

`fetch_page` reads the site's response, `fetch_following` goes where a redirect leads, and
`handle_request` makes the WSP Reply out of what it finds there. A phone that takes the reply apart is
shown the requested page of the site's deck, its picture, or a message. -/

namespace BoatRudder.WapGateway

open Traced Wbxml Wml BinaryXml WebServer Utils

/-! ## The response of the site -/

variable {host uri : Bytes}

/-- `HttpResponse`. -/
structure HttpResponse where
  status : Int32
  /-- `content_type`, `[]` where the site named none. -/
  contentType : Bytes
  location : Bytes
  body : Bytes
  deriving DecidableEq

/-- `MAX_FETCH_BYTES`. -/
def maxFetchBytes : ℕ := 1024 * 1024

/-- The loop of `fetch_page` over what `recv` returns: it reads on below the limit, whatever the last
read brought. -/
def received : Bytes → List Bytes → Bytes
  | input, [] => input
  | input, chunk :: chunks =>
    if input.length < maxFetchBytes then received (input ++ chunk) chunks else input

/-- `sscanf(input, "HTTP/%*s %d", &status)`. -/
def scanHttpStatus (input : Bytes) : Option Int32 :=
  let version := (input.drop 5).dropWhile isSpace
  if lit "HTTP/" <+: input ∧ version ≠ [] then
    (scanInt (version.dropWhile (!isSpace ·))).map fun r => Int32.ofInt r.1
  else none

/-- Whether a line is the header `name`. -/
def HttpResponse.isHeader (name line : Bytes) : Bool :=
  eqNoCase (line.take name.length) name && (line.drop name.length).head? == some 58

/-- `header_value`, into a buffer of `size` bytes. -/
def HttpResponse.headerValue (name : Bytes) (size : ℕ) (lines : Bytes) : Bytes :=
  match _h : findSub crlf lines with
  | none => []
  | some eol =>
    if isHeader name lines then
      (((lines.take eol).drop (name.length + 1)).dropWhile (fun b => b == 32 || b == 9)).take (size - 1)
    else headerValue name size (lines.drop (eol + 2))
termination_by lines.length
decreasing_by
  have hle := (findSub_add_le _h).resolve_right (by decide)
  have hcrlf : crlf.length = 2 := rfl
  simp only [List.length_drop]
  omega

/-- `fetch_page`, from the end of the head on: nothing where the input has no head or no status. -/
def readResponse (input : Bytes) : Option HttpResponse :=
  match findSub (crlf ++ crlf) (cstr input), scanHttpStatus (cstr input) with
  | some headEnd, some status =>
    let head := input.take (headEnd + 2)
    -- the status line is skipped
    let lines := head.drop ((findSub crlf head).getD 0 + 2)
    some ⟨status, HttpResponse.headerValue (lit "Content-Type") 128 lines,
      HttpResponse.headerValue (lit "Location") 512 lines, input.drop (headEnd + 4)⟩
  | _, _ => none

/-- `fetch_page`: `site` is what comes back for the bytes of a request, nothing where they cannot be
sent. `body` is that of the form. -/
def fetchPage (site : Bytes → Option (List Bytes)) (host path clientIp : Bytes) (post : Option WapPost)
    (body : Bytes) (room : ℕ) : Option HttpResponse := do
  let head ← fetchHead host path clientIp post room
  let chunks ← site (head ++ if post.isSome then body else [])
  readResponse (received [] chunks)

/-! ## Redirects -/

/-- `MAX_REDIRECTS`. -/
def maxRedirects : ℕ := 3

/-- Where `fetch_following` is: the `host` and the `path` it asks next, and the form it posts there. -/
structure Hop where
  host : Bytes
  path : Bytes
  post : Option WapPost
  deriving DecidableEq

/-- Whether `fetch_following` goes on from a response. -/
def HttpResponse.redirects (r : HttpResponse) : Bool :=
  300 ≤ r.status && r.status < 400 && r.location ≠ []

/-- Where a redirect leads: to the host its `Location` names, if it names one. -/
def Hop.next (hop : Hop) (r : HttpResponse) : Hop :=
  let nextHost := uriHost r.location 256
  ⟨if nextHost = [] then hop.host else nextHost, localPath r.location pathSize, none⟩

/-- What `fetch_following` did. -/
structure Followed where
  /-- The pages it asked for. -/
  hops : List Hop
  /-- What it leaves in `host` and `path`. -/
  last : Hop
  response : Option HttpResponse

/-- The loop of `fetch_following`, `left` redirects being left to follow. -/
def fetchFollowing (fetch : ℕ → Hop → Option HttpResponse) : ℕ → Hop → Followed
  | left, hop =>
    match fetch left hop with
    | none => ⟨[hop], hop, none⟩
    | some r =>
      if r.redirects then
        match left with
        | 0 => ⟨[hop], hop.next r, some r⟩
        | left + 1 =>
          let rest := fetchFollowing fetch left (hop.next r)
          ⟨hop :: rest.hops, rest.last, rest.response⟩
      else ⟨[hop], hop, some r⟩

/-! ## The reply -/

/-- `CT_WMLC`. -/
def ctWmlc : UInt8 := 0x14

/-- `CT_WBMP`. -/
def ctWbmp : UInt8 := 0x21

/-- `wsp_reply`. -/
def wspReply (contentType : UInt8) (body : Bytes) : Bytes :=
  [0x04, 0x20] ++ bytesUintvar 1 ++ [0x80 ||| contentType] ++ body

/-- `wbxml_message_card`. -/
def wbxmlMessageCard (title text : Bytes) : Bytes :=
  compileCard title [.elem (lit "p") [] [.text text]] [] none

/-- `message_reply`. -/
def messageReply (title text : Bytes) : Bytes := wspReply ctWmlc (wbxmlMessageCard title text)

/-- `contains_ci`. -/
def containsCi (haystack needle : Bytes) : Bool :=
  haystack.tails.any fun s => s ≠ [] && eqNoCase (s.take needle.length) needle

/-- Whether a response is one with this status and a content type that starts like this. -/
def HttpResponse.hasType (r : HttpResponse) (type : Bytes) : Bool :=
  r.status == 200 && eqNoCase (r.contentType.take type.length) type

/-- `reply_page`. -/
def replyPage (r : HttpResponse) (uri : Bytes) (page : ℤ) (pageBytes : ℕ) : Bytes :=
  if r.hasType (lit "text/vnd.wap.wml") then
    let utf8 := containsCi r.contentType (lit "utf-8")
    wspReply ctWmlc (wbxmlCompilePage r.body (!utf8) uri page pageBytes)
  else if r.hasType (lit "image/vnd.wap.wbmp") then wspReply ctWbmp r.body
  else if r.status = 404 then messageReply (lit "Not found") (lit "This page does not exist.")
  else messageReply (lit "Unavailable") (lit "This content is not available on WAP.")

/-- `sizeof(shown)` in `handle_request`. -/
def shownSize : ℕ := 1400

/-- The address `handle_request` shows the page under: that of the page asked for, or that of the page
a post led to. -/
def shownUri (uri : Bytes) (post : Option WapPost) (last : Hop) : Bytes :=
  (if post.isSome ∧ last.host ≠ [] then lit "http://" ++ last.host ++ last.path else uri).take
    (shownSize - 1)

/-- The page `handle_request` shows. -/
def shownPage (uri : Bytes) (post : Option WapPost) : ℤ := if post.isSome then 0 else pageParam uri

/-- Where `handle_request` asks first. -/
def firstHop (uri : Bytes) (post : Option WapPost) : Hop := ⟨requestHost uri, requestPath uri, post⟩

/-- `handle_request`; `fetch` is `fetch_page` with so many redirects left to follow. -/
def handleRequest (fetch : ℕ → Hop → Option HttpResponse) (uri : Bytes) (post : Option WapPost)
    (pageBytes : ℕ) : Bytes :=
  let followed := fetchFollowing fetch maxRedirects (firstHop uri post)
  match followed.response with
  | none => messageReply (lit "Error") (lit "The site is not responding. Try again later.")
  | some r => replyPage r (shownUri uri post followed.last) (shownPage uri post) pageBytes

/-! ## The datagram answered -/

/-- What the gateway works with while it answers a datagram. -/
structure Gateway where
  /-- What comes back for the bytes of a request, with so many redirects left to follow. -/
  site : ℕ → Bytes → Option (List Bytes)
  /-- The address of the phone. -/
  address : Bytes
  /-- What a PROXY header takes of the buffer of a request. -/
  proxyLen : ℕ
  /-- What `rate_allow` says. -/
  allowed : Bool

/-- `fetch_page`, as `fetch_following` calls it. -/
def Gateway.fetch (g : Gateway) (body : Bytes) (left : ℕ) (hop : Hop) : Option HttpResponse :=
  fetchPage (g.site left) hop.host (fetchPath hop.path) (inetNtop4 g.address) hop.post body
    (requestSize - g.proxyLen)

/-- `handle_datagram`: the datagram that answers, unless none does. The body of a form is read where it
is sent; here it is there from the start. -/
def Gateway.answer (g : Gateway) (framing : Framing) (d : Memory) (n : ℕ) : Option Bytes :=
  (handleDatagram framing d n g.allowed true).result.map fun h =>
    h.reply ++ handleRequest (g.fetch h.body) h.uri h.post wapPageBytes

/-! ## Following redirects -/

section Following

variable {fetch : ℕ → Hop → Option HttpResponse}

/-- What holds of the page asked first and of where every redirect leads holds of all the pages asked
for, and of the one left in `host` and `path`. -/
theorem fetchFollowing_invariant (fetch : ℕ → Hop → Option HttpResponse) {P : Hop → Prop}
    (hstep : ∀ left hop r, P hop → fetch left hop = some r → r.redirects → P (hop.next r)) :
    ∀ left hop, P hop →
      (∀ h ∈ (fetchFollowing fetch left hop).hops, P h) ∧ P (fetchFollowing fetch left hop).last := by
  intro left
  induction left with
  | zero =>
    intro hop hhop
    rw [fetchFollowing]
    split
    · simpa using hhop
    · next r hr =>
        split_ifs with hred
        · exact ⟨by simpa using hhop, hstep 0 hop r hhop hr hred⟩
        · simpa using hhop
  | succ left ih =>
    intro hop hhop
    rw [fetchFollowing]
    split
    · simpa using hhop
    · next r hr =>
        split_ifs with hred
        · have hnext := ih (hop.next r) (hstep (left + 1) hop r hhop hr hred)
          exact ⟨List.forall_mem_cons.mpr ⟨hhop, hnext.1⟩, hnext.2⟩
        · simpa using hhop

/-- How the loop goes on from a redirect, and that it ends with any other response. -/
theorem fetchFollowing_cases (fetch : ℕ → Hop → Option HttpResponse) (left : ℕ) (hop : Hop) :
    (∃ r, fetch left hop = some r ∧ r.redirects = true ∧
      ((left = 0 ∧ fetchFollowing fetch left hop = ⟨[hop], hop.next r, some r⟩) ∨
        ∃ left' : ℕ, left = left' + 1 ∧ fetchFollowing fetch left hop =
          ⟨hop :: (fetchFollowing fetch left' (hop.next r)).hops,
            (fetchFollowing fetch left' (hop.next r)).last,
            (fetchFollowing fetch left' (hop.next r)).response⟩)) ∨
    (∀ r, fetch left hop = some r → r.redirects = false) ∧
      fetchFollowing fetch left hop = ⟨[hop], hop, fetch left hop⟩ := by
  cases hfetch : fetch left hop with
  | none =>
    refine Or.inr ⟨nofun, ?_⟩
    rw [fetchFollowing, hfetch]
  | some r =>
    by_cases hred : r.redirects = true
    · refine Or.inl ⟨r, rfl, hred, ?_⟩
      rw [fetchFollowing, hfetch]
      simp only [hred, if_true]
      cases left with
      | zero => exact Or.inl ⟨rfl, rfl⟩
      | succ left => exact Or.inr ⟨left, rfl, rfl⟩
    · refine Or.inr ⟨?_, ?_⟩
      · rintro r' ⟨rfl⟩
        simpa using hred
      · rw [fetchFollowing, hfetch]
        simp only [hred, Bool.false_eq_true, if_false]

/-- A chain of requests, at most `left` of them made because of a redirect: each but the first is for
the page that the redirect leads to which the one before it was answered with, and the response reported is that to the last of them. It
redirects only when there were too many, and `host` and `path` are left at the page it is of, or, when it
redirects, at the one never asked for. -/
structure RedirectChain (fetch : ℕ → Hop → Option HttpResponse) (left : ℕ) (first : Hop)
    (f : Followed) : Prop where
  starts : f.hops.head? = some first
  bounded : f.hops.length ≤ left + 1
  linked : ∀ i a b, f.hops[i]? = some a → f.hops[i + 1]? = some b →
    ∃ r, fetch (left - i) a = some r ∧ r.redirects = true ∧ b = a.next r
  ends : ∃ before last, f.hops = before ++ [last] ∧ f.response = fetch (left - before.length) last ∧
    ∀ r, f.response = some r → (r.redirects = true → before.length = left) ∧
      f.last = if r.redirects then last.next r else last

/-- **Redirects are followed one after the other**, from any page and with any number of them left. -/
theorem redirectChain_fetchFollowing (left : ℕ) (hop : Hop) :
    RedirectChain fetch left hop (fetchFollowing fetch left hop) := by
  induction left generalizing hop with
  | zero =>
    rcases fetchFollowing_cases fetch 0 hop with
      ⟨r, hr, hred, ⟨-, heq⟩ | ⟨left', hleft, -⟩⟩ | ⟨hno, heq⟩
    · rw [heq]
      refine ⟨rfl, by simp, fun i a b _ hb => absurd hb (by simp), [], hop, rfl, hr.symm, fun r' hr' => ?_⟩
      obtain rfl := Option.some.inj hr'
      simp [hred]
    · cases hleft
    · rw [heq]
      refine ⟨rfl, by simp, fun i a b _ hb => absurd hb (by simp), [], hop, rfl, rfl, fun r hr => ?_⟩
      simp [hno r hr]
  | succ left ih =>
    rcases fetchFollowing_cases fetch (left + 1) hop with
      ⟨r, hr, hred, ⟨hleft, -⟩ | ⟨left', hleft, heq⟩⟩ | ⟨hno, heq⟩
    · cases hleft
    · obtain rfl : left = left' := Nat.succ.inj hleft
      have hrest := ih (hop.next r)
      obtain ⟨before, last, hhops, hresponse, hends⟩ := hrest.ends
      rw [heq]
      refine ⟨rfl, Nat.succ_le_succ hrest.bounded, ?_, hop :: before, last, ?_, ?_, fun r' hr' => ?_⟩
      · intro i a b ha hb
        cases i with
        | zero =>
          -- the request after the first is the first of the rest
          obtain rfl := Option.some.inj ha
          have hstart := hrest.starts
          rw [List.head?_eq_getElem?] at hstart
          exact ⟨r, hr, hred, Option.some.inj (hb.symm.trans hstart)⟩
        | succ i =>
          rw [Nat.add_sub_add_right]
          exact hrest.linked i a b ha hb
      · rw [List.cons_append, ← hhops]
      · rw [List.length_cons, Nat.add_sub_add_right]
        exact hresponse
      · exact ⟨fun hred' => congrArg (· + 1) ((hends r' hr').1 hred'), (hends r' hr').2⟩
    · rw [heq]
      refine ⟨rfl, by simp, fun i a b _ hb => absurd hb (by simp), [], hop, rfl, rfl, fun r hr => ?_⟩
      simp [hno r hr]

end Following

/-! ## No NUL on the way -/

theorem headerValue_subset (name : Bytes) (size : ℕ) (lines : Bytes) :
    HttpResponse.headerValue name size lines ⊆ lines := by
  fun_induction HttpResponse.headerValue name size lines with
  | case1 => simp
  | case2 lines eol h hname =>
    intro b hb
    exact List.mem_of_mem_take (List.mem_of_mem_drop
      ((List.dropWhile_suffix _).subset (List.mem_of_mem_take hb)))
  | case3 lines eol h hname ih => exact fun b hb => List.mem_of_mem_drop (ih hb)

theorem zero_notMem_decimal (n : ℕ) : 0 ∉ decimal n := fun h0 =>
  absurd (isDigit_of_mem_decimal h0) (by decide)

/-- A `Location` is read out of a C string. -/
theorem zero_notMem_location {input : Bytes} {r : HttpResponse} (h : readResponse input = some r) :
    0 ∉ r.location := by
  rw [readResponse] at h
  split at h
  · next headEnd status hend hstatus =>
      obtain rfl := Option.some.inj h
      intro h0
      have hle := (findSub_add_le hend).resolve_right (by decide)
      have hfour : (crlf ++ crlf).length = 4 := rfl
      have hpre : cstr input <+: input := List.takeWhile_prefix _
      have hhead : input.take (headEnd + 2) = (cstr input).take (headEnd + 2) := by
        obtain ⟨t, ht⟩ := hpre
        conv_lhs => rw [← ht]
        rw [List.take_append_of_le_length (by omega)]
      have hmem := List.mem_of_mem_drop (headerValue_subset _ _ _ h0)
      rw [hhead] at hmem
      exact zero_notMem_cstr input (List.mem_of_mem_take hmem)
  · cases h

theorem zero_notMem_fetchPage {site : Bytes → Option (List Bytes)} {path clientIp body : Bytes}
    {post : Option WapPost} {room : ℕ} {r : HttpResponse}
    (h : fetchPage site host path clientIp post body room = some r) : 0 ∉ r.location := by
  obtain ⟨head, -, h⟩ := Option.bind_eq_some_iff.mp h
  obtain ⟨chunks, -, h⟩ := Option.bind_eq_some_iff.mp h
  exact zero_notMem_location h

theorem zero_notMem_localPath (h : 0 ∉ uri) (size : ℕ) :
    0 ∉ localPath uri size := by
  have hslash : 0 ∉ lit "/" := by decide
  have hcut : ∀ path : Bytes, 0 ∉ path →
      0 ∉ (path.take (size - 1)).takeWhile (· ≠ 35) := fun path hpath h0 =>
    hpath (List.mem_of_mem_take ((List.takeWhile_prefix _).subset h0))
  have hor : ∀ path : Bytes, 0 ∉ path → 0 ∉ (if path = [] then lit "/" else path) := by
    intro path hpath
    split_ifs
    · exact hslash
    · exact hpath
  refine hor _ (hcut _ ?_)
  split
  · exact hor _ fun h0 => h (List.mem_of_mem_drop ((List.dropWhile_suffix _).subset h0))
  · split_ifs
    · exact h
    · exact hslash

/-- A byte of the name of a host that goes out. -/
def isHostByte (b : UInt8) : Bool := isLower b || isDigit b || b == 46 || b == 45

/-- A host as it may go out: a name of lower-case letters, digits, dots and dashes, with a port or
without. -/
def IsHostName (host : Bytes) : Prop :=
  ∃ name port, host = name ++ port ∧ name ≠ [] ∧ name.all isHostByte = true ∧
    (port = [] ∨ ∃ digits, port = 58 :: digits ∧ digits ≠ [] ∧ digits.all isDigit = true)

/-- A letter of a name in lower case. -/
theorem isHostByte_toLower {b : UInt8} (h : (isAlnum b || b == 46 || b == 45) = true) :
    isHostByte (toLower b) = true := by
  unfold toLower isHostByte
  split_ifs with hupper
  · rw [isLower_add_32 hupper]
    rfl
  · rw [isAlnum, isAlpha, Bool.eq_false_iff.mpr hupper, Bool.false_or] at h
    exact h

/-- A digit is no letter. -/
theorem toLower_of_isDigit {b : UInt8} (h : isDigit b = true) : toLower b = b := by
  have hupper : isUpper b = false := by
    unfold isDigit at h
    unfold isUpper
    grind
  simp [toLower, hupper]

/-- **Nothing but the name of a host goes out as one.** -/
theorem isHostName_uriHost (uri : Bytes) (size : ℕ) :
    uriHost uri size = [] ∨ IsHostName (uriHost uri size) := by
  have hplain : ∀ host : Bytes, plainHost host size = [] ∨ IsHostName (plainHost host size) := by
    intro host
    simp only [plainHost]
    split_ifs with hlen hname hchars hport
    · exact Or.inl rfl
    · exact Or.inl rfl
    · exact Or.inl rfl
    · exact Or.inl rfl
    simp only [Bool.or_eq_true, Bool.not_eq_true', not_or, Bool.not_eq_false, List.all_eq_true] at hchars
    obtain ⟨hletters, hdigits⟩ := hchars
    have hsplit : host = host.takeWhile (· ≠ 58) ++ host.dropWhile (· ≠ 58) :=
      List.takeWhile_append_dropWhile.symm
    have hlow : lower host = lower (host.takeWhile (· ≠ 58)) ++ lower (host.dropWhile (· ≠ 58)) := by
      conv_lhs => rw [hsplit]
      rw [lower, List.map_append]
      rfl
    refine Or.inr ⟨_, _, hlow, by simpa [lower] using hname, ?_, ?_⟩
    · refine List.all_eq_true.mpr fun b hb => ?_
      obtain ⟨c, hc, rfl⟩ := List.mem_map.mp hb
      exact isHostByte_toLower (by simpa using hletters c hc)
    · cases hdrop : host.dropWhile (· ≠ 58) with
      | nil => exact Or.inl rfl
      | cons c digits =>
        have hc : c = 58 := by
          have := List.head?_dropWhile_not (· ≠ 58) host
          rw [hdrop] at this
          simpa using this
        subst hc
        have hafter : afterByte 58 host = digits := by rw [afterByte, hdrop]; rfl
        rw [hafter] at hdigits hport
        have hmem : 58 ∈ host := by
          rw [hsplit, hdrop]
          simp
        have hlower : lower digits = digits := by
          rw [lower, List.map_congr_left fun b hb => toLower_of_isDigit (hdigits b hb), List.map_id']
        refine Or.inr ⟨digits, ?_, fun hnil => hport ⟨hmem, hnil⟩, List.all_eq_true.mpr hdigits⟩
        rw [lower, List.map_cons]
        exact congrArg (58 :: ·) hlower
  unfold uriHost
  split
  · exact Or.inl rfl
  · exact hplain _

theorem zero_notMem_of_isHostName (h : IsHostName host) : 0 ∉ host := by
  obtain ⟨name, port, rfl, -, hname, hport⟩ := h
  have hzero : isHostByte 0 = false := rfl
  have hdigit : isDigit 0 = false := rfl
  rw [List.mem_append, not_or]
  refine ⟨fun h0 => ?_, ?_⟩
  · rw [List.all_eq_true.mp hname 0 h0] at hzero
    cases hzero
  · rcases hport with rfl | ⟨digits, rfl, -, hdigits⟩
    · exact List.not_mem_nil
    · intro h0
      rcases List.mem_cons.mp h0 with h0 | h0
      · cases h0
      · rw [List.all_eq_true.mp hdigits 0 h0] at hdigit
        cases hdigit

/-- What the gateway links to has no NUL, when the address it comes from has none. -/
theorem zero_notMem_setPageParam (h : 0 ∉ uri) (page : ℤ) (size : ℕ) :
    0 ∉ setPageParam uri page size := by
  have hbase : 0 ∉ dropPageParam (withoutFragment uri) := fun h0 =>
    h (List.mem_of_mem_take ((List.takeWhile_prefix _).subset (dropPageParam_subset _ h0)))
  have hname : 0 ∉ pageParamName := by decide
  have hsep : 0 ∉ (if 63 ∈ dropPageParam (withoutFragment uri) then lit "&" else lit "?") := by
    split_ifs <;> decide
  intro h0
  have hmem := List.mem_of_mem_take h0
  by_cases hpage : page ≤ 0
  · rw [if_pos hpage] at hmem
    exact hbase hmem
  · rw [if_neg hpage, List.mem_append, List.mem_append, List.mem_append] at hmem
    rcases hmem with ((hmem | hmem) | hmem) | hmem
    · exact hbase hmem
    · exact hsep hmem
    · exact hname hmem
    · exact zero_notMem_decimal _ hmem

/-! ## The page of a deck -/

/-- The requested page of a deck, as a phone reads it. -/
def deckPage (wml : Bytes) (latin1 : Bool) (uri : Bytes) (page : ℤ) (pageBytes : ℕ) : List Decoded :=
  let pg := pagedBuild (deckSource wml latin1) uri true page pageBytes
  readCard (if pg.base = [] then none else some pg.base) pg.pageTitle (pg.pages.getD pg.page []) pg.nav

theorem clean_navOf (h : 0 ∉ uri) (k pages : ℕ) :
    Tree.AllIn (0 ∉ ·) (navOf uri k pages) := by
  have hlink : ∀ label page, 0 ∉ label →
      (navLink label (setPageParam uri page 1100)).All (0 ∉ ·) := by
    intro label page hlabel
    simp only [navLink, Tree.All, Tree.AllIn, List.not_mem_nil, IsEmpty.forall_iff, implies_true,
      List.forall_mem_singleton, and_true, true_and]
    exact ⟨zero_notMem_setPageParam h page 1100, hlabel⟩
  rw [Tree.allIn_iff]
  refine List.forall_mem_append.mpr ⟨?_, ?_⟩
  · split_ifs
    · exact List.forall_mem_singleton.mpr (hlink prevLabel _ (by decide))
    · exact List.forall_mem_nil _
  · split_ifs
    · exact List.forall_mem_singleton.mpr (hlink nextLabel _ (by decide))
    · exact List.forall_mem_nil _

theorem zero_notMem_pageTitleOf {card : Node} (h : card.All (0 ∉ ·)) (k pages : ℕ) :
    0 ∉ pageTitleOf (baseTitleOf card) k pages := by
  have hbase : 0 ∉ baseTitleOf card := by
    refine fun h0 => absurd (List.mem_of_mem_take h0) ?_
    cases card with
    | text t => exact List.not_mem_nil
    | elem name attrs kids =>
      cases hfind : nodeAttr (.elem name attrs kids) (lit "title") with
      | none => exact List.not_mem_nil
      | some v =>
        obtain ⟨a, ha, rfl⟩ := Option.map_eq_some_iff.mp hfind
        exact h.1 a (List.mem_of_find?_eq_some ha)
  have hlits : 0 ∉ lit " (" ∧ 0 ∉ lit "/" ∧ 0 ∉ lit ")" := by decide
  rw [pageTitleOf]
  split_ifs
  · simp only [List.mem_append, not_or]
    exact ⟨⟨⟨⟨⟨hbase, hlits.1⟩, zero_notMem_decimal _⟩, hlits.2.1⟩, zero_notMem_decimal _⟩, hlits.2.2⟩
  · exact hbase

/-- The blocks of a page are pieces of the deck's: no NUL comes in. -/
theorem clean_pagesOf {card : Node} (h : card.All (0 ∉ ·)) (base path : Bytes) (pageBytes k : ℕ) :
    Tree.AllIn (0 ∉ ·) ((pagesOf card base path pageBytes).getD k []) := by
  have hkept : KeptBySplits fun n => n.All (0 ∉ ·) := by
    refine keptBySplits_all fun t cut _ ht => ⟨fun h0 => ht (List.mem_of_mem_take h0), fun h0 => ht ?_⟩
    exact List.mem_of_mem_drop ((skipLeadingSeparators_suffix _).subset h0)
  have hpages := hkept.pagesOf base path pageBytes (Tree.allIn_iff.mp (blocksOf_all h))
  rw [Tree.allIn_iff, List.getD_eq_getElem?_getD]
  cases hget : (pagesOf card base path pageBytes)[k]? with
  | none => exact List.forall_mem_nil _
  | some blocks => exact hpages blocks (List.mem_of_getElem? hget)

/-- **What the gateway compiles is what a phone reads**: any page of any deck. -/
theorem decodeDocument_wbxmlCompilePage (huri : 0 ∉ uri) (wml : Bytes)
    (latin1 : Bool) (page : ℤ) (pageBytes : ℕ) :
    decodeDocument wmlTables (wbxmlCompilePage wml latin1 uri page pageBytes) =
      some (deckPage wml latin1 uri page pageBytes) := by
  have hcard : (cardOf (parseWml (cstr (deckSource wml latin1)))).All (0 ∉ ·) :=
    cardOf_all (parseWml_clean (zero_notMem_cstr _))
  refine decodeDocument_compileCard ?_ (zero_notMem_pageTitleOf hcard _ _) (clean_pagesOf hcard _ _ _ _)
    (clean_navOf huri _ _)
  intro b hb
  split_ifs at hb
  · cases hb
  · obtain rfl := Option.mem_some_iff.mp hb
    exact fun h0 => huri (uriBase_subset uri 512 h0)

/-! ## What a phone is shown -/

/-- What a phone shows for a reply. -/
inductive Screen where
  | deck (document : List Decoded)
  | picture (image : Bytes)

/-- A card with a paragraph of text. -/
def messageScreen (title text : Bytes) : Screen :=
  .deck [.elem (lit "wml") []
    [.elem (lit "card") [(lit "id", [.lit (lit "p")]), (lit "title", [.lit title])]
    [.elem (lit "p") [] [.text [.lit text]]]]]

/-- A string without a `$` is taken in as it stands. -/
theorem foldl_pieces_of_notMem {σ : Type} {f : σ → BinaryXml.Piece → σ} (hf : MergesLiterals f)
    {s : Bytes} (h : 36 ∉ s) (a : σ) : (Wbxml.pieces s).foldl f a = f a (.lit s) := by
  induction s generalizing a with
  | nil => rw [hf.lit_nil, Wbxml.pieces, List.foldl_nil]
  | cons c s ih =>
    rw [List.mem_cons, not_or] at h
    obtain ⟨hc, hs⟩ := h
    rw [Wbxml.pieces, if_pos (Ne.symm hc), List.foldl_cons, ih hs, hf.lit_lit, List.singleton_append]

/-- **A message is shown as it is**, where it has a title and a text and no `$` in either. -/
theorem decodeDocument_wbxmlMessageCard {title text : Bytes} (htitle : title ≠ []) (htext : text ≠ [])
    (hclean : 0 ∉ title ++ text) (hdollar : 36 ∉ title ++ text) :
    (decodeDocument wmlTables (wbxmlMessageCard title text)).map Screen.deck =
      some (messageScreen title text) := by
  rw [List.mem_append, not_or] at hclean hdollar
  have hp : lower (lit "p") = lit "p" := by decide
  have hcode : elementCode (lit "p") = some 0x20 := by decide
  have hblocks : Tree.AllIn (0 ∉ ·) [Tree.elem (lit "p") [] [Tree.text text]] := by
    simp [Tree.AllIn, Tree.All, hclean.2]
  have hnav : Tree.AllIn (α := Bytes) (0 ∉ ·) [] := trivial
  have hfull :
      compileNodes none [Tree.elem (lit "p") [] [Tree.text text]] ++ compileNodes none [] ≠ [] := by
    simp [compileNodes, compileNode, hcode, Wbxml.element]
  rw [wbxmlMessageCard, decodeDocument_compileCard (by simp) hclean.1 hblocks hnav, readCard,
    if_neg hfull]
  have hread : readAllInto none [] [Tree.elem (lit "p") [] [Tree.text text]] =
      [.elem (lit "p") [] [.text [.lit text]]] := by
    simp [readAllInto, readInto, hcode, hp, foldl_pieces_of_notMem mergesLiterals_snocText hdollar.2,
      snocText, snocPiece, htext]
  have hname : joinPieces (Wbxml.pieces title) = [.lit title] := by
    rw [joinPieces, foldl_pieces_of_notMem mergesLiterals_snocPiece hdollar.1]
    simp [snocPiece, htitle]
  rw [hread, hname]
  rfl

/-- What a phone takes a Reply for: the status of success, then the length of the headers, which are a
content type in a short integer, and the data. -/
def readPdu (pdu : Bytes) : Option Screen :=
  if pdu.take 2 = [0x04, 0x20] then do
    let length ← (readUintvar (.ofBytes (pdu.drop 2)) (pdu.drop 2).length 0).result
    let headers := ((pdu.drop 2).drop length.2.1).take length.1
    let data := (pdu.drop 2).drop (length.2.1 + length.1)
    if headers = [0x80 + ctWmlc] then (decodeDocument wmlTables data).map Screen.deck
    else if headers = [0x80 + ctWbmp] then some (.picture data)
    else none
  else none

/-- Whether what stands before the Reply answers the datagram `d`: a WTP Result with the other bits and
bytes of the Invoke, or its TID. -/
def answersStart (framing : Framing) (d : Memory) (start : Bytes) : Bool :=
  match framing with
  | .rover => start.head?.any (fun b => b / 8 % 16 == 2 && b % 8 == d 0 % 8) && start.tail == d.bytes 1 3
  | .wsp => start == [d 0]

/-- How much stands before the Reply. -/
def startSize : Framing → ℕ
  | .rover => 4
  | .wsp => 1

/-- What a phone that sent the datagram `d` is shown for a reply. -/
def readReply (framing : Framing) (d : Memory) (reply : Bytes) : Option Screen :=
  if answersStart framing d (reply.take (startSize framing)) then
    readPdu (reply.drop (startSize framing))
  else none

/-- A Reply is read by its content type. -/
theorem readPdu_wspReply (contentType : UInt8) (body : Bytes) :
    readPdu (wspReply contentType body) =
      if 0x80 ||| contentType = 0x80 + ctWmlc then (decodeDocument wmlTables body).map Screen.deck
      else if 0x80 ||| contentType = 0x80 + ctWbmp then some (.picture body)
      else none := by
  have hbytes : bytesUintvar 1 = [1] := by decide
  have hshape : wspReply contentType body = [0x04, 0x20] ++ 1 :: (0x80 ||| contentType) :: body := by
    rw [wspReply, hbytes]
    rfl
  have hlength : (readUintvar (.ofBytes (1 :: (0x80 ||| contentType) :: body))
      (1 :: (0x80 ||| contentType) :: body).length 0).result = some (1, ⟨1, by simp⟩) := rfl
  rw [hshape, readPdu, if_pos (by rfl)]
  change (do
    let length ← (readUintvar (.ofBytes (1 :: (0x80 ||| contentType) :: body))
      (1 :: (0x80 ||| contentType) :: body).length 0).result
    let headers := ((1 :: (0x80 ||| contentType) :: body).drop length.2.1).take length.1
    let data := (1 :: (0x80 ||| contentType) :: body).drop (length.2.1 + length.1)
    if headers = [0x80 + ctWmlc] then (decodeDocument wmlTables data).map Screen.deck
    else if headers = [0x80 + ctWbmp] then some (.picture data)
    else none) = _
  rw [hlength]
  simp

theorem readPdu_wmlc (body : Bytes) :
    readPdu (wspReply ctWmlc body) = (decodeDocument wmlTables body).map Screen.deck := by
  rw [readPdu_wspReply, if_pos (by decide)]

theorem readPdu_wbmp (body : Bytes) : readPdu (wspReply ctWbmp body) = some (.picture body) := by
  rw [readPdu_wspReply, if_neg (by decide), if_pos (by decide)]

/-- What stands before a reply answers the datagram. -/
theorem answersStart_replyStart {framing : Framing} {d : Memory} {start : Bytes}
    (h : (replyStart framing d).result = some start) :
    answersStart framing d start = true ∧ start.length = startSize framing := by
  have hall : ∀ b : UInt8, (16 + b % 8) / 8 % 16 = 2 ∧ (16 + b % 8) % 8 = b % 8 := by
    intro b
    have h8 : (8 : UInt8).toNat = 8 := rfl
    have h16 : (16 : UInt8).toNat = 16 := rfl
    have h2 : (2 : UInt8).toNat = 2 := rfl
    refine ⟨UInt8.toNat_inj.mp ?_, UInt8.toNat_inj.mp ?_⟩ <;>
      simp only [UInt8.toNat_mod, UInt8.toNat_div, UInt8.toNat_add, h2, h8, h16] <;>
      omega
  obtain ⟨b, hb, h⟩ := result_bind_eq_some.mp h
  obtain rfl : d 0 = b := Option.some.inj hb
  cases framing with
  | rover =>
    obtain ⟨rest, hrest, h⟩ := result_bind_eq_some.mp h
    obtain rfl : d.bytes 1 3 = rest := Option.some.inj hrest
    obtain rfl := Option.some.inj h
    simp [answersStart, startSize, hall]
  | wsp =>
    obtain rfl := Option.some.inj h
    simp [answersStart, startSize]

/-- What the gateway means to show for a response to `uri`. -/
def pageScreen (r : HttpResponse) (uri : Bytes) (page : ℤ) (pageBytes : ℕ) : Screen :=
  if r.hasType (lit "text/vnd.wap.wml") then
    .deck (deckPage r.body (!containsCi r.contentType (lit "utf-8")) uri page pageBytes)
  else if r.hasType (lit "image/vnd.wap.wbmp") then .picture r.body
  else if r.status = 404 then messageScreen (lit "Not found") (lit "This page does not exist.")
  else messageScreen (lit "Unavailable") (lit "This content is not available on WAP.")

theorem readPdu_messageReply {title text : Bytes} (htitle : title ≠ []) (htext : text ≠ [])
    (hclean : 0 ∉ title ++ text) (hdollar : 36 ∉ title ++ text) :
    readPdu (messageReply title text) = some (messageScreen title text) := by
  rw [messageReply, readPdu_wmlc, decodeDocument_wbxmlMessageCard htitle htext hclean hdollar]

/-- A reply is read as what it is meant to show. -/
theorem readPdu_replyPage (r : HttpResponse) (huri : 0 ∉ uri) (page : ℤ) (pageBytes : ℕ) :
    readPdu (replyPage r uri page pageBytes) = some (pageScreen r uri page pageBytes) := by
  rw [replyPage, pageScreen]
  split_ifs
  · rw [readPdu_wmlc, decodeDocument_wbxmlCompilePage huri]
    rfl
  · exact readPdu_wbmp _
  · exact readPdu_messageReply (by decide) (by decide) (by decide) (by decide)
  · exact readPdu_messageReply (by decide) (by decide) (by decide) (by decide)

/-- What the gateway found for a datagram. -/
def Gateway.followed (g : Gateway) (h : HandledDatagram) : Followed :=
  fetchFollowing (g.fetch h.body) maxRedirects (firstHop h.uri h.post)

/-- What the gateway means to show for a datagram. -/
def Gateway.screen (g : Gateway) (h : HandledDatagram) : Screen :=
  match (g.followed h).response with
  | none => messageScreen (lit "Error") (lit "The site is not responding. Try again later.")
  | some r => pageScreen r (shownUri h.uri h.post (g.followed h).last)
      (shownPage h.uri h.post) wapPageBytes

/-- The URI of a datagram is a C string. -/
theorem zero_notMem_uri {framing : Framing} {d : Memory} {n : ℕ} {allowed sent : Bool}
    {h : HandledDatagram} (hd : (handleDatagram framing d n allowed sent).result = some h) :
    0 ∉ h.uri := by
  obtain ⟨⟨uri, post⟩, hparse, hd⟩ := result_bind_eq_some.mp hd
  split at hd
  · cases hd
  · obtain ⟨start, -, hd⟩ := result_bind_eq_some.mp hd
    obtain ⟨body, -, hd⟩ := result_bind_eq_some.mp hd
    obtain rfl := Option.some.inj hd
    obtain ⟨type, block, hparsed⟩ := isParsed_of_parseDatagram hparse
    obtain ⟨u, rest, rfl, -⟩ := hparsed.request
    exact zero_notMem_cstr u

/-- The address a page is shown under is a C string. -/
theorem Gateway.zero_notMem_shownUri (g : Gateway) {h : HandledDatagram} (huri : 0 ∉ h.uri) :
    0 ∉ shownUri h.uri h.post (g.followed h).last := by
  have hlast := (fetchFollowing_invariant (g.fetch h.body)
    (P := fun hop => 0 ∉ hop.host ∧ 0 ∉ hop.path)
    (fun left hop r hhop hr _ => by
      have hlocation := zero_notMem_fetchPage hr
      refine ⟨?_, zero_notMem_localPath hlocation _⟩
      simp only [Hop.next]
      split_ifs with hnil
      · exact hhop.1
      · exact zero_notMem_of_isHostName ((isHostName_uriHost _ _).resolve_left hnil))
    maxRedirects (firstHop h.uri h.post) ?_).2
  · have hscheme : 0 ∉ lit "http://" := by decide
    refine fun h0 => absurd (List.mem_of_mem_take h0) ?_
    split_ifs
    · simp only [List.mem_append, not_or]
      exact ⟨⟨hscheme, hlast.1⟩, hlast.2⟩
    · exact huri
  · refine ⟨?_, zero_notMem_localPath (zero_notMem_setPageParam huri _ _) _⟩
    rcases isHostName_uriHost (setPageParam h.uri 0 pathSize) 256 with hnil | hname
    · change 0 ∉ uriHost (setPageParam h.uri 0 pathSize) 256
      rw [hnil]
      exact List.not_mem_nil
    · exact zero_notMem_of_isHostName hname

/-- **Whatever the site does, a phone is shown what the gateway found for it**: every datagram that
answers one is a reply to it, and what a phone reads in it is the requested page of the deck the site
sent in the end, its picture byte for byte, or the message that there is none. -/
theorem readReply_answer (g : Gateway) (framing : Framing) (d : Memory) (n : ℕ) :
    (g.answer framing d n).map (readReply framing d) =
      ((handleDatagram framing d n g.allowed true).result.map fun h => some (g.screen h)) := by
  rw [Gateway.answer, Option.map_map]
  cases hd : (handleDatagram framing d n g.allowed true).result with
  | none => rfl
  | some h =>
    have huri := zero_notMem_uri hd
    obtain ⟨request, -, hd⟩ := result_bind_eq_some.mp hd
    split at hd
    · cases hd
    obtain ⟨start, hstart, hd⟩ := result_bind_eq_some.mp hd
    obtain ⟨body, -, hd⟩ := result_bind_eq_some.mp hd
    obtain rfl : _ = h := Option.some.inj hd
    obtain ⟨hanswers, hlen⟩ := answersStart_replyStart hstart
    refine congrArg some ?_
    have hpdu : readPdu (handleRequest (g.fetch body) request.1 request.2 wapPageBytes) =
        some (g.screen ⟨request.1, request.2, body, start⟩) := by
      have hshown := g.zero_notMem_shownUri huri
      simp only [handleRequest, Gateway.screen, Gateway.followed]
      cases (fetchFollowing (g.fetch body) maxRedirects (firstHop request.1 request.2)).response with
      | none => exact readPdu_messageReply (by decide) (by decide) (by decide) (by decide)
      | some r => exact readPdu_replyPage r hshown _ _
    simp only [Function.comp, readReply]
    rw [← hlen, List.take_left, if_pos hanswers, List.drop_left, hpdu]

/-! ## What the site is asked -/

/-- The head of a request that follows a redirect is clean where the path of the `Location` is: no line
break in it, and no blank. -/
theorem cleanHead_redirect_iff {path clientIp head : Bytes} {room : ℕ} (hhost : IsLine host)
    (hip : IsLine clientIp) (hpath : path.length ≤ 1099)
    (hhead : fetchHead host (fetchPath path) clientIp none room = some head) :
    CleanHead (headNames false) head ↔ IsLine path ∧ 32 ∉ path := by
  have hlen : (headValues host clientIp none).length = (headNames false).length :=
    length_headValues host clientIp none
  have hnoForm : ∀ {P : WapPost → Prop} p, none = some p → P p := nofun
  have heq := fetchHead_eq hnoForm hhead
  have hiff := @headLines_clean_iff host (fetchPath path) clientIp none hhost hip hnoForm
  rw [Option.isSome_none] at heq hiff
  rw [heq, cleanHead_iff hlen, hiff, cleanPath_fetchPath_iff hpath]
  simp

/-- **What the gateway asks of the site, whatever it answers**: at most four pages, each the one the
redirect before it leads to; a form is posted with the first request only; no host but one that is the
name of a host; and the head of a request after a redirect is a clean one exactly when there is no blank
and no line break in the path it leads to. -/
theorem followed_asks (g : Gateway) (h : HandledDatagram) :
    RedirectChain (g.fetch h.body) maxRedirects (firstHop h.uri h.post) (g.followed h) ∧
    (∀ hop ∈ (g.followed h).hops, hop.host = [] ∨ IsHostName hop.host) ∧
    ∀ hop ∈ (g.followed h).hops.tail, hop.post = none ∧
      ∀ head, fetchHead hop.host (fetchPath hop.path) (inetNtop4 g.address) hop.post
          (requestSize - g.proxyLen) = some head →
        (CleanHead (headNames false) head ↔ IsLine hop.path ∧ 32 ∉ hop.path) := by
  have hchain : RedirectChain (g.fetch h.body) maxRedirects (firstHop h.uri h.post) (g.followed h) :=
    redirectChain_fetchFollowing _ _
  have hhosts := fetchFollowing_invariant (g.fetch h.body)
    (P := fun hop => (hop.host = [] ∨ IsHostName hop.host) ∧ IsLine hop.host)
    (fun left hop r hhop _ _ => by
      simp only [Hop.next]
      split_ifs with hnil
      · exact hhop
      · exact ⟨isHostName_uriHost _ _, isLine_uriHost _ _⟩)
    maxRedirects (firstHop h.uri h.post) ⟨isHostName_uriHost _ _, isLine_uriHost _ _⟩
  refine ⟨hchain, fun hop hmem => (hhosts.1 hop hmem).1, fun hop hmem => ?_⟩
  have hnext : hop.post = none ∧ hop.path.length ≤ 1099 := by
    obtain ⟨i, hi⟩ := List.mem_iff_getElem?.mp hmem
    rw [List.getElem?_tail] at hi
    obtain ⟨hlt, -⟩ := List.getElem?_eq_some_iff.mp hi
    obtain ⟨r, -, -, rfl⟩ := hchain.linked i _ hop (List.getElem?_eq_getElem (Nat.lt_of_succ_lt hlt)) hi
    exact ⟨rfl, length_localPath_le _⟩
  refine ⟨hnext.1, fun head hhead => ?_⟩
  rw [hnext.1] at hhead
  exact cleanHead_redirect_iff (hhosts.1 hop (List.mem_of_mem_tail hmem)).2 (isLine_inetNtop4 _) hnext.2
    hhead

end BoatRudder.WapGateway
