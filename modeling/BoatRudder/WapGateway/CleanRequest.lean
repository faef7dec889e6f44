import BoatRudder.WapGateway.DatagramFormat
import BoatRudder.WapGateway.FetchPage

/-! # What a phone gets into the request

The head of the request is the lines `fetch_page` writes exactly where the path of the URI and a
content type in words have no line break in them, and the path no blank either: everything else of a
datagram that goes into the head is filtered on its way. -/

namespace BoatRudder.WapGateway

open Traced Wbxml WebServer

/-! ## The head, line by line -/

variable {s : Bytes} {d : Memory} {headers : PostHeaders} {b : UInt8} {stop : ℕ}

/-- The lines of the head after the first, by the names they start with. -/
def headNames (isPost : Bool) : List Bytes :=
  [lit "Host: ", lit "User-Agent: ", lit "Accept: ", lit "X-Forwarded-For: "] ++
    ((if isPost then [lit "Content-Type: ", lit "Content-Length: "] else []) ++
      [lit "Connection: "])

/-- A head with one line for the request, in three parts with blanks between them, and one for each of
`names`: nothing else, and no line break in any of them. -/
def CleanHead (names : List Bytes) (head : Bytes) : Prop :=
  ∃ requestLine values, values.length = names.length ∧
    head = renderHead (requestLine :: List.zipWith (· ++ ·) names values) ∧
    (∀ line ∈ requestLine :: List.zipWith (· ++ ·) names values, IsLine line) ∧
    (requestLine.splitOnP (· == 32)).length = 3

/-- The first line of the head. -/
def requestLine (path : Bytes) (isPost : Bool) : Bytes :=
  (if isPost then lit "POST" else lit "GET") ++ lit " " ++ path ++ lit " HTTP/1.0"

/-- What the other lines say. -/
def headValues (host clientIp : Bytes) (post : Option WapPost) : List Bytes :=
  [if host = [] then lit "127.0.0.1" else host, fetchUserAgent post,
    lit "text/vnd.wap.wml, image/vnd.wap.wbmp", clientIp] ++
    ((match post with
      | some p => [p.headers.contentType, decimal p.bodyLen]
      | none => []) ++ [lit "close"])

theorem length_headValues (host clientIp : Bytes) (post : Option WapPost) :
    (headValues host clientIp post).length = (headNames post.isSome).length := by
  cases post <;> rfl

/-- The head is its lines, as long as those of a form fit their buffer. -/
theorem fetchHead_eq {host path clientIp head : Bytes} {post : Option WapPost} {room : ℕ}
    (hpost : ∀ p, post = some p → p.headers.contentType.length ≤ 127 ∧ (decimal p.bodyLen).length ≤ 4)
    (h : fetchHead host path clientIp post room = some head) :
    head = renderHead (requestLine path post.isSome ::
      List.zipWith (· ++ ·) (headNames post.isSome) (headValues host clientIp post)) := by
  obtain ⟨-, h⟩ := Option.ite_none_right_eq_some.mp h
  obtain rfl := Option.some.inj h
  have haccept : lit "Accept: text/vnd.wap.wml, image/vnd.wap.wbmp" =
      lit "Accept: " ++ lit "text/vnd.wap.wml, image/vnd.wap.wbmp" := by decide
  have hclose : lit "Connection: close" = lit "Connection: " ++ lit "close" := by decide
  rw [haccept, hclose]
  cases post with
  | none =>
    simp [renderHead, requestLine, headNames, headValues, postHeaders]
  | some p =>
    have hfit : (lit "Content-Type: " ++ p.headers.contentType ++ crlf ++
        (lit "Content-Length: " ++ decimal p.bodyLen ++ crlf)).length ≤ 511 := by
      have hct : (lit "Content-Type: ").length = 14 := by decide
      have hcl : (lit "Content-Length: ").length = 16 := by decide
      have := hpost p rfl
      simp only [List.length_append, hct, hcl, crlf, List.length_cons, List.length_nil]
      omega
    rw [postHeaders, List.take_of_length_le hfit]
    simp [renderHead, requestLine, headNames, headValues]

/-- The head is clean where its own lines are, and its first has three parts. -/
theorem cleanHead_iff {names values : List Bytes} {line : Bytes}
    (hlen : values.length = names.length) :
    CleanHead names (renderHead (line :: List.zipWith (· ++ ·) names values)) ↔
      (∀ l ∈ line :: List.zipWith (· ++ ·) names values, IsLine l) ∧ line.count 32 = 2 := by
  have hparts : ∀ l : Bytes, (l.splitOnP (· == 32)).length = 3 ↔ l.count 32 = 2 := by
    intro l
    rw [length_splitOnP, List.count]
    omega
  constructor
  · rintro ⟨line', values', hlen', hhead, hlines, hthree⟩
    have hsame : (line :: List.zipWith (· ++ ·) names values).length =
        (line' :: List.zipWith (· ++ ·) names values').length := by
      simp [hlen, hlen']
    -- as many line ends as lines: so each of the strings is a line
    have hown := isLine_of_renderHead_eq hsame hlines hhead
    have heq := renderHead_inj hsame hown hlines hhead
    rw [List.cons.injEq] at heq
    exact ⟨hown, by rw [heq.1]; exact (hparts line').mp hthree⟩
  · rintro ⟨hlines, hcount⟩
    exact ⟨line, values, hlen, rfl, hlines, (hparts line).mpr hcount⟩

/-! ## What is filtered -/

/-- Printable ASCII has no line break. -/
theorem isLine_of_printable (h : ∀ b ∈ s, 32 ≤ b) : IsLine s :=
  ⟨fun h13 => absurd (h 13 h13) (by decide), fun h10 => absurd (h 10 h10) (by decide)⟩

theorem le_printable (b : UInt8) : 32 ≤ printable b := by
  unfold printable
  split <;> grind

/-- A digit is printable. -/
theorem le_of_isDigit (h : isDigit b = true) : 32 ≤ b := by
  unfold isDigit at h
  grind

/-- What stands between the elements of a list, or one of them. -/
theorem mem_intersperse {sep : Bytes} {l : List Bytes} (h : s ∈ l.intersperse sep) :
    s = sep ∨ s ∈ l := by
  fun_induction List.intersperse sep l with
  | case1 => cases h
  | case2 a => exact Or.inr h
  | case3 a l hl ih =>
    rcases List.mem_cons.mp h with rfl | h
    · exact Or.inr (by simp)
    · rcases List.mem_cons.mp h with rfl | h
      · exact Or.inl rfl
      · exact (ih h).imp id (List.mem_cons_of_mem _)

/-- The address of a phone is a line. -/
theorem isLine_inetNtop4 (a : Bytes) : IsLine (inetNtop4 a) := by
  refine isLine_of_printable fun b hb => ?_
  rw [inetNtop4] at hb
  obtain ⟨s, hs, hb⟩ := List.mem_flatten.mp hb
  rcases mem_intersperse hs with rfl | hs
  · have hdot : b ∈ [(46 : UInt8)] := hb
    rw [List.mem_singleton.mp hdot]
    decide
  · obtain ⟨c, -, rfl⟩ := List.mem_map.mp hs
    exact le_of_isDigit (isDigit_of_mem_decimal hb)

/-- A lower case letter is as printable as the letter it comes from. -/
theorem le_toLower (h : 32 ≤ b) : 32 ≤ toLower b := by
  unfold toLower isUpper
  split
  · next hupper =>
      simp only [Bool.and_eq_true, decide_eq_true_eq, UInt8.le_iff_toNat_le] at hupper
      rw [UInt8.le_iff_toNat_le, UInt8.toNat_add]
      have h65 : (65 : UInt8).toNat = 65 := rfl
      have h90 : (90 : UInt8).toNat = 90 := rfl
      have h32 : (32 : UInt8).toNat = 32 := rfl
      omega
  · exact h

/-- What may stand in the name of a host is printable. -/
theorem le_of_hostByte (h : (isAlnum b || b == 46 || b == 45) = true) : 32 ≤ b := by
  unfold isAlnum isAlpha isUpper isLower isDigit at h
  grind

/-- A string is what stands before a byte, the byte, and what follows it. -/
theorem mem_takeWhile_or_afterByte {c : UInt8} (h : b ∈ s) :
    b ∈ s.takeWhile (· ≠ c) ∨ b = c ∨ b ∈ afterByte c s := by
  have happ := List.takeWhile_append_dropWhile (p := (· ≠ c)) (l := s)
  rw [← happ, List.mem_append] at h
  refine h.imp id fun hb => ?_
  rw [afterByte]
  cases hdrop : s.dropWhile (· ≠ c) with
  | nil => rw [hdrop] at hb; cases hb
  | cons x rest =>
    have hx : x = c := by
      have := List.head?_dropWhile_not (· ≠ c) s
      rw [hdrop] at this
      simpa using this
    rw [hdrop, List.mem_cons] at hb
    exact hb.imp (fun hbx => hbx.trans hx) id

/-- A host is a line: letters, digits, dots and dashes, and digits behind a colon. -/
theorem isLine_plainHost (host : Bytes) (size : ℕ) : IsLine (plainHost host size) := by
  refine isLine_of_printable fun b hb => ?_
  rw [plainHost] at hb
  split at hb
  · cases hb
  split at hb
  · cases hb
  split at hb
  · cases hb
  next hchars =>
    split at hb
    · cases hb
    obtain ⟨c, hc, rfl⟩ := List.mem_map.mp hb
    simp only [Bool.or_eq_true, Bool.not_eq_true', not_or, Bool.not_eq_false,
      List.all_eq_true] at hchars
    refine le_toLower ?_
    have hplace : c ∈ host.takeWhile (· ≠ 58) ∨ c = 58 ∨ c ∈ afterByte 58 host :=
      mem_takeWhile_or_afterByte hc
    rcases hplace with hname | rfl | hport
    · exact le_of_hostByte (by simpa using hchars.1 c hname)
    · decide
    · exact le_of_isDigit (hchars.2 c hport)

theorem isLine_uriHost (uri : Bytes) (size : ℕ) : IsLine (uriHost uri size) := by
  unfold uriHost
  split
  · exact isLine_of_printable (by simp)
  · exact isLine_plainHost _ _

/-- A `User-Agent` is a line: what the phone says goes out printable. -/
theorem isLine_userAgent (h : (wspPostHeaders d stop).result = some headers) :
    IsLine headers.userAgent := by
  obtain ⟨r, -, h⟩ := result_bind_eq_some.mp h
  obtain ⟨media, -, h⟩ := result_bind_eq_some.mp h
  obtain ⟨ua, -, h⟩ := result_bind_eq_some.mp h
  obtain rfl := Option.some.inj h
  refine isLine_of_printable fun b hb => ?_
  obtain ⟨c, -, rfl⟩ := List.mem_map.mp hb
  exact le_printable c

/-! ## The path -/

/-- A path fits its buffer. -/
theorem length_localPath_le (uri : Bytes) : (localPath uri pathSize).length ≤ 1099 := by
  have hcut : ∀ path : Bytes, ((path.take (pathSize - 1)).takeWhile (· ≠ 35)).length ≤ 1099 := by
    intro path
    refine (List.takeWhile_sublist _).length_le.trans ?_
    rw [List.length_take]
    exact Nat.min_le_left _ _
  have hor : ∀ path : Bytes, (if path = [] then lit "/" else path).length ≤ max 1 path.length := by
    intro path
    split
    · exact Nat.le_max_left _ _
    · exact Nat.le_max_right _ _
  exact (hor _).trans (Nat.max_le.mpr ⟨by decide, hcut _⟩)

/-- What is asked for besides the path adds nothing to it that is not printable. -/
theorem cleanPath_fetchPath_iff {path : Bytes} (hlen : path.length ≤ 1099) :
    (IsLine (fetchPath path) ∧ 32 ∉ fetchPath path) ↔ IsLine path ∧ 32 ∉ path := by
  have hquery : ∀ sep : Bytes, sep = lit "&" ∨ sep = lit "?" →
      (sep ++ lit "preview_epoch=-1&wml_pages=all").length ≤ 100 ∧
      IsLine (sep ++ lit "preview_epoch=-1&wml_pages=all") ∧
      32 ∉ sep ++ lit "preview_epoch=-1&wml_pages=all" := by
    rintro sep (rfl | rfl) <;> decide
  have hq := hquery (if 63 ∈ path then lit "&" else lit "?") (by split <;> simp)
  rw [fetchPath, List.take_of_length_le (by rw [List.length_append]; omega), isLine_append,
    List.mem_append, not_or]
  tauto

/-! ## The head of the first request -/

/-- The lines of the head are lines, and the first has three parts, where the path has no line break
and no blank, and the content type no line break. -/
theorem headLines_clean_iff {host path clientIp : Bytes} {post : Option WapPost}
    (hhost : IsLine host) (hip : IsLine clientIp)
    (hua : ∀ p, post = some p → IsLine p.headers.userAgent) :
    ((∀ l ∈ requestLine path post.isSome ::
        List.zipWith (· ++ ·) (headNames post.isSome) (headValues host clientIp post), IsLine l) ∧
      (requestLine path post.isSome).count 32 = 2) ↔
      (IsLine path ∧ 32 ∉ path) ∧ ∀ p, post = some p → IsLine p.headers.contentType := by
  have hmethod : ∀ isPost : Bool, IsLine (if isPost then lit "POST" else lit "GET") ∧
      (if isPost then lit "POST" else lit "GET").count 32 = 0 := by decide
  have hfirst : (requestLine path post.isSome).count 32 = 2 ↔ 32 ∉ path := by
    have h1 : (lit " ").count 32 = 1 := by decide
    have h2 : (lit " HTTP/1.0").count 32 = 1 := by decide
    rw [requestLine, List.count_append, List.count_append, List.count_append, h1, h2,
      (hmethod _).2, ← List.count_eq_zero]
    omega
  have hline : IsLine (requestLine path post.isSome) ↔ IsLine path := by
    have h1 : IsLine (lit " ") := by decide
    have h2 : IsLine (lit " HTTP/1.0") := by decide
    rw [requestLine, isLine_append, isLine_append, isLine_append]
    have := (hmethod post.isSome).1
    tauto
  have hdefault : IsLine (if host = [] then lit "127.0.0.1" else host) := by
    split
    · decide
    · exact hhost
  have hagent : IsLine (fetchUserAgent post) := by
    have hown : IsLine (lit "BoatRudder-WAP-Gateway") := by decide
    cases post with
    | none => exact hown
    | some p =>
      rw [fetchUserAgent]
      split
      · exact hown
      · exact hua p rfl
  have hconst : IsLine (lit "Host: ") ∧ IsLine (lit "User-Agent: ") ∧ IsLine (lit "Accept: ") ∧
      IsLine (lit "text/vnd.wap.wml, image/vnd.wap.wbmp") ∧ IsLine (lit "X-Forwarded-For: ") ∧
      IsLine (lit "Content-Type: ") ∧ IsLine (lit "Content-Length: ") ∧
      IsLine (lit "Connection: ") ∧ IsLine (lit "close") := by decide
  have hnumber : ∀ k, IsLine (decimal k) := fun k =>
    isLine_of_printable fun b hb => le_of_isDigit (isDigit_of_mem_decimal hb)
  obtain ⟨h1, h2, h3, h4, h5, h6, h7, h8, h9⟩ := hconst
  rw [List.forall_mem_cons, hfirst, hline]
  have hrest : (∀ l ∈ List.zipWith (· ++ ·) (headNames post.isSome) (headValues host clientIp post),
      IsLine l) ↔ ∀ p, post = some p → IsLine p.headers.contentType := by
    cases post with
    | none =>
      simp [headNames, headValues, isLine_append, h1, h2, h3, h4, h5, h8, h9, hdefault, hip,
        hagent]
    | some p =>
      simp [headNames, headValues, isLine_append, h1, h2, h3, h4, h5, h6, h7, h8, h9, hdefault,
        hip, hagent, hnumber]
  rw [hrest, and_right_comm]

/-! ## The datagram -/

/-- A datagram without a line break where it counts: none, and no blank, in the path of its URI, and
none in the content type of a post that is a text, as far as it is kept. -/
def NoLineBreaks (framing : Framing) (datagram : Bytes) : Prop :=
  ∀ type uri block rest, IsRequest framing datagram type uri block rest →
    (IsLine (requestPath (cstr uri)) ∧ 32 ∉ requestPath (cstr uri)) ∧
    (type = 0x60 → ∀ ct, HasTextType block ct → IsLine (ct.take (contentTypeSize - 1)))

/-- What a parsed datagram says of itself: its URI, and the header block of a post. -/
structure IsParsed (d : Memory) (n : ℕ) (framing : Framing) (uri : Bytes) (post : Option WapPost)
    (type : UInt8) (block : Bytes) : Prop where
  /-- It is a request. -/
  request : ∃ u rest, cstr u = uri ∧ IsRequest framing (d.bytes 0 n) type u block rest
  /-- It is no other request. -/
  unique : ∀ type' u block' rest, IsRequest framing (d.bytes 0 n) type' u block' rest →
    type' = type ∧ cstr u = uri ∧ block' = block
  /-- It has a form exactly if it is a post. -/
  isPost : post.isSome = true ↔ type = 0x60
  /-- The headers of the form are those of the block. -/
  headers : ∀ p, post = some p → ∃ at_, d.bytes at_ block.length = block ∧
    (wspPostHeaders (d.from at_) block.length).result = some p.headers ∧ p.bodyLen ≤ n

/-- What `handle_datagram` accepts is one request. -/
theorem isParsed_of_parseDatagram {framing : Framing} {n : ℕ} {uri : Bytes}
    {post : Option WapPost} (h : (parseDatagram framing d n).result = some (uri, post)) :
    ∃ type block, IsParsed d n framing uri post type block := by
  obtain ⟨head, hhead, h⟩ := result_bind_eq_some.mp h
  have hhead : (datagramHead framing d n).result = some head := hhead
  have hunique : ∀ type' u block' rest, IsRequest framing (d.bytes 0 n) type' u block' rest →
      type' = head.type ∧ cstr u = head.uri ∧
        block' = d.bytes head.headersAt head.headersLen := by
    intro type' u block' rest hreq
    obtain ⟨head', hhead', htype, huri, -, -, hblock⟩ := datagramHead_of_isRequest hreq
    obtain rfl : head = head' := Option.some.inj (hhead.symm.trans hhead')
    exact ⟨htype.symm, huri.symm, hblock.symm⟩
  refine ⟨head.type, d.bytes head.headersAt head.headersLen, ?_⟩
  split at h
  · next htype =>
      obtain ⟨rfl, rfl⟩ : head.uri = uri ∧ none = post := by simpa using h
      have hlen := headersLen_of_datagramHead hhead htype
      obtain ⟨-, u, hu, hreq⟩ := isRequest_of_datagramHead hhead (by omega)
      exact ⟨⟨u, _, hu.symm, hreq⟩, hunique, by simp [htype], by simp⟩
  · next htype =>
      split at h
      · cases h
      · next hfit =>
          obtain ⟨headers, hheaders, h⟩ := result_bind_eq_some.mp h
          obtain ⟨rfl, rfl⟩ : head.uri = uri ∧ some _ = post := by simpa using h
          obtain ⟨-, u, hu, hreq⟩ := isRequest_of_datagramHead hhead (by omega)
          refine ⟨⟨u, _, hu.symm, hreq⟩, hunique, by simpa using htype, ?_⟩
          intro p hp
          obtain rfl := Option.some.inj hp
          refine ⟨head.headersAt, by rw [Memory.length_bytes], ?_, Nat.sub_le _ _⟩
          rw [Memory.length_bytes]
          exact hheaders

/-- The content type of a form fits its buffer. -/
theorem length_contentType_le (h : (wspPostHeaders d stop).result = some headers) :
    headers.contentType.length ≤ 127 := by
  have hknown : ∀ t ∈ knownTypes, t.length ≤ 127 := by decide
  rcases contentType_of_wspPostHeaders h with ht | ⟨ct, -, ht⟩
  · exact hknown _ ht
  · rw [ht, List.length_take]
    exact Nat.min_le_left _ _

/-- The content type of a form is a line exactly where a text that the phone gave is. -/
theorem isLine_contentType_iff (h : (wspPostHeaders d stop).result = some headers) :
    IsLine headers.contentType ↔
      ∀ ct, HasTextType (d.bytes 0 stop) ct → IsLine (ct.take (contentTypeSize - 1)) := by
  have hknown : ∀ t ∈ knownTypes, IsLine t := by decide
  constructor
  · intro hline ct hct
    rwa [← contentType_of_hasTextType h hct]
  · intro hall
    rcases contentType_of_wspPostHeaders h with ht | ⟨ct, hct, ht⟩
    · exact hknown _ ht
    · rw [ht]
      exact hall ct hct

/-- **A phone cannot inject lines into the request the gateway makes** exactly as long as the datagram
has no line break in the path of its URI or in a content type in words, and no blank in that path. -/
theorem firstRequest_clean_iff {framing : Framing} {d : Memory} {n : ℕ} {uri head address : Bytes}
    {post : Option WapPost} {proxyLen : ℕ} (hn : n ≤ maxDatagram)
    (hparse : (parseDatagram framing d n).result = some (uri, post))
    (hhead : firstRequest uri post address proxyLen = some head) :
    CleanHead (headNames post.isSome) head ↔ NoLineBreaks framing (d.bytes 0 n) := by
  obtain ⟨type, block, hparsed⟩ := isParsed_of_parseDatagram hparse
  obtain ⟨u, rest, rfl, hreq⟩ := hparsed.request
  have hfit : ∀ p, post = some p →
      p.headers.contentType.length ≤ 127 ∧ (decimal p.bodyLen).length ≤ 4 := by
    intro p hp
    obtain ⟨at_, -, hheaders, hbody⟩ := hparsed.headers p hp
    have hmax : maxDatagram = 4096 := rfl
    exact ⟨length_contentType_le hheaders, (length_decimal_le_iff (by decide)).mpr (by omega)⟩
  have hua : ∀ p, post = some p → IsLine p.headers.userAgent := by
    intro p hp
    obtain ⟨at_, -, hheaders, -⟩ := hparsed.headers p hp
    exact isLine_userAgent hheaders
  have hhost : IsLine (requestHost (cstr u)) := isLine_uriHost _ _
  rw [fetchHead_eq hfit hhead, cleanHead_iff (length_headValues _ _ _),
    headLines_clean_iff hhost (isLine_inetNtop4 _) hua,
    @cleanPath_fetchPath_iff (requestPath (cstr u)) (length_localPath_le _)]
  -- the content type of the form against that of the header block
  have htype : (∀ p, post = some p → IsLine p.headers.contentType) ↔
      (type = 0x60 → ∀ ct, HasTextType block ct → IsLine (ct.take (contentTypeSize - 1))) := by
    have hsome := hparsed.isPost
    cases hp : post with
    | none =>
      rw [hp] at hsome
      have hno : type ≠ 0x60 := fun h => by simpa using hsome.mpr h
      simp [hno]
    | some p =>
      rw [hp] at hsome
      obtain ⟨at_, hblock, hheaders, -⟩ := hparsed.headers p hp
      have hiff := isLine_contentType_iff hheaders
      rw [Memory.bytes_from, Nat.add_zero, hblock] at hiff
      simpa [hsome.mp rfl] using hiff
  rw [htype, NoLineBreaks]
  constructor
  · intro h type' u' block' rest' hreq'
    obtain ⟨rfl, hu, rfl⟩ := hparsed.unique type' u' block' rest' hreq'
    rw [hu]
    exact h
  · intro h
    exact h type u block rest hreq

/-- A form of one byte with the content type `t/p`, posted to `/`. -/
theorem firstRequest_textPost :
    CleanHead (headNames true) ((firstRequest (lit "/")
        (some ⟨⟨lit "t/p", []⟩, 9, 1⟩) [10, 0, 0, 1] 0).getD []) ↔
      NoLineBreaks .wsp
        (Memory.bytes (.ofBytes [1, 0x60, 1, 4, 0x2F, 116, 47, 112, 0, 97]) 0 10) := by
  have hparse : (parseDatagram .wsp (.ofBytes [1, 0x60, 1, 4, 0x2F, 116, 47, 112, 0, 97]) 10).result =
      some (lit "/", some ⟨⟨lit "t/p", []⟩, 9, 1⟩) := by decide +kernel
  have hhead : firstRequest (lit "/") (some ⟨⟨lit "t/p", []⟩, 9, 1⟩) [10, 0, 0, 1] 0 =
      some ((firstRequest (lit "/") (some ⟨⟨lit "t/p", []⟩, 9, 1⟩) [10, 0, 0, 1] 0).getD []) := by
    decide +kernel
  exact firstRequest_clean_iff (by decide) hparse hhead

/-- A request for a path with a line break in it. -/
theorem brokenPath_not_clean :
    ∃ head, (parseDatagram .wsp (.ofBytes ([1, 0x40, 8] ++ lit "/a\r\nX: y")) 11).result =
        some (lit "/a\r\nX: y", none) ∧
      firstRequest (lit "/a\r\nX: y") none [10, 0, 0, 1] 0 = some head ∧
      ¬ CleanHead (headNames false) head := by
  have hfetch : (firstRequest (lit "/a\r\nX: y") none [10, 0, 0, 1] 0).isSome = true := by
    decide +kernel
  obtain ⟨head, hhead⟩ := Option.isSome_iff_exists.mp hfetch
  refine ⟨head, by decide, hhead, ?_⟩
  have heq := fetchHead_eq (by simp) hhead
  have hlen : (headValues (requestHost (lit "/a\r\nX: y")) (inetNtop4 [10, 0, 0, 1]) none).length =
      (headNames false).length := length_headValues _ _ none
  rw [Option.isSome_none] at heq
  rw [heq, cleanHead_iff hlen]
  decide

end BoatRudder.WapGateway
