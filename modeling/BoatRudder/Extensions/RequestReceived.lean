import BoatRudder.Extensions.Forward
import BoatRudder.Sdk.Brext

/-! # What an extension receives

The head that `extensions_forward` writes is as many lines as it has headers, whatever their values,
so that `read_request` finds its end, the request line and each header, in whatever pieces it
arrives. A value comes without the blanks at its beginning, but with those at its end. -/

namespace BoatRudder.Extensions

open Sdk

open WebServer (Socket isBlankByte isLineEnd emptyLine scanField readRest_eq)

/-! ## What is received -/

/-- A value as it is received: what fits the field, its control characters as blanks, without the
blanks at its beginning. -/
def carried (size : ℕ) (v : Bytes) : Bytes :=
  (((cstr v).take (size - 1)).map spaceControl).dropWhile (· == 32)

/-- A target as it is received: what fits the field, its blanks and control characters as plus
signs. -/
def carriedTarget (target : Bytes) : Bytes :=
  ((cstr target).take 2047).map fun c => if c ≤ 32 ∨ c = 127 then 43 else c

/-- A request within the limits of the SDK; its id, which is sent as it is, is a line. -/
structure ExtensionRequest.WithinLimits (req : ExtensionRequest) : Prop where
  method_ne : req.method ≠ []
  method_word : ∀ c ∈ req.method, isSpace c = false ∧ c ≠ 0
  method_le : req.method.length ≤ 15
  path_lt : ((carriedTarget req.target).takeWhile (· ≠ 63)).length < 1024
  body_le : req.body.length ≤ brextMaxBody
  id_line : IsLine req.requestId

/-- The SDK's request is the one that was forwarded, and has no headers but those that were
written. -/
structure Received (req : ExtensionRequest) (id : Bytes) (r : BrextRequest) : Prop where
  method : r.method = req.method
  path : r.path = if (carriedTarget req.target).takeWhile (· ≠ 63) = [] then lit "/"
    else (carriedTarget req.target).takeWhile (· ≠ 63)
  query : r.query = afterByte 63 (carriedTarget req.target)
  mount : brextMount r = carried 128 req.mount
  userId : brextUserId r = carried 64 req.userId
  userName : brextUserName r = carried 256 req.userName
  role : brextRole r = carried 32 req.role
  lang : brextLang r = carried 32 req.lang
  theme : brextHeader r (lit "X-BR-Theme") = carried 64 req.theme
  epoch : brextEpoch r = req.epoch
  contentType : brextHeader r (lit "Content-Type") = carried 256 req.contentType
  body : r.body = req.body
  headers : r.headers =
    (forwardHeaders req id).map fun h => ⟨h.1, h.2.dropWhile isBlankByte⟩

variable {req : ExtensionRequest} {id : Bytes}

/-! ## The lines of the head -/

/-- A line of text, without a NUL in it. -/
def PlainLine (s : Bytes) : Prop := IsLine s ∧ 0 ∉ s

theorem PlainLine.append {a b : Bytes} (ha : PlainLine a) (hb : PlainLine b) : PlainLine (a ++ b) :=
  ⟨isLine_append.mpr ⟨ha.1, hb.1⟩, by simp [ha.2, hb.2]⟩

/-- No line end, nor a NUL, is among bytes of 32 or more. -/
theorem plainLine_of_le {s : Bytes} (h : ∀ c ∈ s, 32 ≤ c) : PlainLine s := by
  have hno : ∀ d : UInt8, d < 32 → d ∉ s := fun d hd hmem => absurd (h d hmem) (UInt8.not_le.mpr hd)
  exact ⟨⟨hno 13 (by decide), hno 10 (by decide)⟩, hno 0 (by decide)⟩

theorem plainLine_headerValue (size : ℕ) (v : Bytes) : PlainLine (headerValue size v) :=
  plainLine_of_le fun _ hc => (le_of_mem_headerValue hc).1

theorem plainLine_of_digit {s : Bytes} (h : ∀ c ∈ s, c = 45 ∨ isXDigit c = true) : PlainLine s := by
  refine plainLine_of_le fun c hc => ?_
  rcases h c hc with rfl | hd
  · decide
  · simp only [isXDigit, isDigit, Bool.or_eq_true, Bool.and_eq_true, decide_eq_true_eq] at hd
    grind

theorem isXDigit_of_isDigit {c : UInt8} (h : isDigit c = true) : isXDigit c = true := by
  simp [isXDigit, h]

theorem plainLine_decimal (n : ℕ) : PlainLine (decimal n) :=
  plainLine_of_digit fun _ hc => Or.inr (isXDigit_of_isDigit (isDigit_of_mem_decimal hc))

theorem plainLine_signed (n : ℤ) : PlainLine (signed n) :=
  plainLine_of_digit fun _ hc => (isDigit_of_mem_signed hc).imp_right isXDigit_of_isDigit

/-- The id that is sent is a line if the one given is. -/
theorem plainLine_forwardId (h : IsLine req.requestId) (now seq : ℕ) :
    PlainLine (forwardId req now seq) := by
  have hwhole : PlainLine (if cstr req.requestId ≠ [] then cstr req.requestId
      else hexNumber now ++ lit "-" ++ hexNumber seq) := by
    split_ifs
    · have hsub : cstr req.requestId ⊆ req.requestId := (List.takeWhile_prefix _).subset
      exact ⟨⟨fun hc => h.1 (hsub hc), fun hc => h.2 (hsub hc)⟩, zero_notMem_cstr _⟩
    · refine plainLine_of_digit fun c hc => ?_
      rcases List.mem_append.mp hc with hc | hc
      · rcases List.mem_append.mp hc with hc | hc
        · exact Or.inr (isXDigit_of_mem_hexNumber hc)
        · exact Or.inl (List.mem_singleton.mp hc)
      · exact Or.inr (isXDigit_of_mem_hexNumber hc)
  exact ⟨⟨fun hc => hwhole.1.1 (List.mem_of_mem_take hc), fun hc => hwhole.1.2 (List.mem_of_mem_take hc)⟩,
    fun hc => hwhole.2 (List.mem_of_mem_take hc)⟩

/-- The names of the headers that are sent, with or without a type of the body. -/
def forwardNames (typed : Bool) : List Bytes :=
  [lit "Host", lit "X-BR-Protocol", lit "X-BR-Request-Id", lit "X-BR-Mount", lit "X-BR-User-Id",
    lit "X-BR-User-Name", lit "X-BR-Role", lit "X-BR-Lang", lit "X-BR-Theme", lit "X-BR-Epoch"] ++
  (if typed then [lit "Content-Type"] else []) ++ [lit "Content-Length", lit "Connection"]

theorem map_fst_forwardHeaders (req : ExtensionRequest) (id : Bytes) :
    (forwardHeaders req id).map Prod.fst = forwardNames (headerValue 256 req.contentType != []) := by
  by_cases h : headerValue 256 req.contentType = [] <;> simp [forwardHeaders, forwardNames, h]

/-- The names of the headers sent are different. -/
theorem forwardNames_pairwise (typed : Bool) :
    (forwardNames typed).Pairwise fun a b => eqNoCase a b = false := by
  cases typed <;> decide

/-- The names of the headers sent hold no colon, and are lines. -/
theorem forwardNames_plain (typed : Bool) :
    ∀ n ∈ forwardNames typed, 58 ∉ n ∧ n ≠ [] ∧ IsLine n ∧ 0 ∉ n := by
  cases typed <;> decide

theorem mem_forwardNames {h : Bytes × Bytes} (hmem : h ∈ forwardHeaders req id) :
    h.1 ∈ forwardNames (headerValue 256 req.contentType != []) :=
  map_fst_forwardHeaders req id ▸ List.mem_map_of_mem hmem

/-- The values of the headers sent are lines. -/
theorem plainLine_forwardHeaders (hid : PlainLine id) :
    ∀ h ∈ forwardHeaders req id, PlainLine h.2 := by
  have hvalue := plainLine_headerValue
  have htype : ∀ h ∈ (if headerValue 256 req.contentType ≠ [] then
      [(lit "Content-Type", headerValue 256 req.contentType)] else []), PlainLine h.2 := by
    intro h hmem
    split_ifs at hmem
    · obtain rfl := List.mem_singleton.mp hmem
      exact hvalue _ _
    · cases hmem
  simp only [forwardHeaders, List.forall_mem_append, List.forall_mem_cons]
  exact ⟨⟨⟨⟨by decide, by decide⟩, plainLine_signed _, hid, hvalue _ _, hvalue _ _, hvalue _ _,
    hvalue _ _, hvalue _ _, hvalue _ _, plainLine_signed _, nofun⟩, htype⟩, plainLine_decimal _,
    ⟨by decide, by decide⟩, nofun⟩

theorem length_forwardTarget_le (target : Bytes) : (forwardTarget target).length ≤ 2047 := by
  simp only [forwardTarget]
  split_ifs
  · decide
  · exact (List.length_map _).trans_le (length_headerValue_le 2048 target)

/-- The values of the headers take no more bytes than their fields. -/
theorem sum_length_forwardHeaders_le (hbody : req.body.length ≤ brextMaxBody) (hid : id.length ≤ 31) :
    ((forwardHeaders req id).map fun h => h.2.length).sum ≤ 1000 := by
  have hvalue := length_headerValue_le
  have h1 := hvalue 128 req.mount
  have h2 := hvalue 64 req.userId
  have h3 := hvalue 256 req.userName
  have h4 := hvalue 32 req.role
  have h5 := hvalue 32 req.lang
  have h6 := hvalue 64 req.theme
  have h7 := hvalue 256 req.contentType
  have hepoch : (signed req.epoch.toInt).length ≤ 20 :=
    length_signed_le ⟨by have := req.epoch.le_toInt; omega, by have := req.epoch.toInt_lt; omega⟩
  have hlength : (decimal req.body.length).length ≤ 7 :=
    (length_decimal_le_iff (by decide)).mpr (lt_of_le_of_lt hbody (by decide))
  have hconst : (lit "boat-rudder").length = 11 ∧ (signed extensionProtocol).length = 1 ∧
      (lit "close").length = 5 := by decide
  have htype : ((if headerValue 256 req.contentType ≠ [] then
      [(lit "Content-Type", headerValue 256 req.contentType)] else []).map
        fun h : Bytes × Bytes => h.2.length).sum ≤ 255 := by
    split_ifs
    · simpa using h7
    · decide
  simp only [forwardHeaders, List.map_append, List.sum_append, List.map_cons, List.map_nil, List.sum_cons,
    List.sum_nil]
  omega

/-- The head fits the buffer it is written into. -/
theorem length_forwardHead_lt (hmethod : req.method.length ≤ 15) (hbody : req.body.length ≤ brextMaxBody)
    (hid : id.length ≤ 31) : (forwardHead req id).length < 4096 := by
  have hverb : (cstr req.method).length ≤ 15 := (List.takeWhile_prefix _).length_le.trans hmethod
  have htarget := length_forwardTarget_le req.target
  have hvalues := sum_length_forwardHeaders_le hbody hid
  have hnames : (((forwardHeaders req id).map Prod.fst).map List.length).sum ≤ 200 ∧
      ((forwardHeaders req id).map Prod.fst).length ≤ 13 := by
    rw [map_fst_forwardHeaders]
    cases headerValue 256 req.contentType != [] <;> decide
  have hlines : (((forwardHeaders req id).map headerLine).map List.length).sum =
      (((forwardHeaders req id).map Prod.fst).map List.length).sum +
        ((forwardHeaders req id).map fun h => h.2.length).sum + 2 * (forwardHeaders req id).length := by
    generalize forwardHeaders req id = headers
    induction headers with
    | nil => rfl
    | cons h headers ih =>
      have hline : (headerLine h).length = h.1.length + 2 + h.2.length := by
        simp [headerLine, lit]
        omega
      simp only [List.map_cons, List.sum_cons, List.length_cons] at ih ⊢
      omega
  have hconst : (lit " ").length = 1 ∧ (lit " HTTP/1.1").length = 9 := by decide
  rw [List.length_map] at hnames
  rw [forwardHead, length_renderHead]
  simp only [List.map_cons, List.sum_cons, List.length_cons, List.length_append, hlines, List.length_map]
  omega

/-! ## Reading the lines back -/

/-- A word before a blank is a field, with what space there is before it. -/
theorem scanField_word {width : ℕ} {w : Bytes} (hne : w ≠ []) (hword : ∀ c ∈ w, isSpace c = false)
    (hle : w.length ≤ width) (blanks : ℕ) (t : Bytes) :
    scanField width (List.replicate blanks 32 ++ (w ++ 32 :: t)) = some (w, 32 :: t) := by
  obtain ⟨c, v, rfl⟩ := List.exists_cons_of_ne_nil hne
  have hdrop : (List.replicate blanks 32 ++ (c :: v ++ 32 :: t)).dropWhile isSpace = c :: v ++ 32 :: t := by
    rw [List.dropWhile_append_of_pos fun b hb => by rw [List.eq_of_mem_replicate hb]; rfl,
      List.cons_append, List.dropWhile_cons_of_neg (by simp [hword c (by simp)])]
  have htake : (c :: v ++ 32 :: t).takeWhile (fun b => !isSpace b) = c :: v := by
    rw [List.takeWhile_append_of_pos fun b hb => by simp [hword b hb],
      List.takeWhile_cons_of_neg (by decide), List.append_nil]
  simp only [scanField, hdrop, htake, List.take_of_length_le hle]
  rw [if_neg (by simp), List.drop_left]

theorem isSpace_of_mem_forwardTarget {target : Bytes} {c : UInt8} (h : c ∈ forwardTarget target) :
    isSpace c = false := by
  have := (lt_of_mem_forwardTarget h).1
  simp only [isSpace]
  grind

theorem forwardTarget_ne_nil (target : Bytes) : forwardTarget target ≠ [] := by
  simp only [forwardTarget]
  split_ifs with h
  · decide
  · exact h

/-- The request line is read. -/
theorem scanTarget_forward (h : req.WithinLimits) :
    scanTarget (cstr req.method ++ lit " " ++ forwardTarget req.target ++ lit " HTTP/1.1") =
      some (req.method, forwardTarget req.target) := by
  have hmethod : cstr req.method = req.method := cstr_eq_self fun hmem => (h.method_word 0 hmem).2 rfl
  have hverb := scanField_word h.method_ne (fun c hc => (h.method_word c hc).1) h.method_le 0
    (forwardTarget req.target ++ lit " HTTP/1.1")
  have htarget := scanField_word (forwardTarget_ne_nil req.target)
    (fun c hc => isSpace_of_mem_forwardTarget hc)
    ((length_forwardTarget_le req.target).trans (by decide : 2047 ≤ 3071)) 1 (lit "HTTP/1.1")
  have hline : req.method ++ lit " " ++ forwardTarget req.target ++ lit " HTTP/1.1" =
      List.replicate 0 32 ++ (req.method ++ 32 :: (forwardTarget req.target ++ lit " HTTP/1.1")) := by
    simp [lit]
  have hrest : (32 : UInt8) :: (forwardTarget req.target ++ lit " HTTP/1.1") =
      List.replicate 1 32 ++ (forwardTarget req.target ++ 32 :: lit "HTTP/1.1") := rfl
  rw [hmethod, hline, scanTarget, hverb]
  simp only [hrest, htarget, Option.map_some]

/-- Lines with room for their headers all make one. -/
theorem headerLoop_eq {headers : List BrextHeader} {lines : List Bytes}
    (h : headers.length + lines.length ≤ brextMaxHeaders) :
    headerLoop headers lines = headers ++ lines.filterMap headerOf := by
  induction lines generalizing headers with
  | nil => simp [headerLoop]
  | cons line lines ih =>
    rw [List.length_cons] at h
    rw [headerLoop, if_neg (by omega)]
    cases hline : headerOf line with
    | none =>
      rw [List.filterMap_cons_none hline]
      exact ih (by omega)
    | some header =>
      rw [List.filterMap_cons_some hline]
      have hroom : (headers ++ [header]).length + lines.length ≤ brextMaxHeaders := by
        simp
        omega
      simp only [ih hroom, List.append_assoc, List.singleton_append]

/-- A header's line makes the header. -/
theorem headerOf_headerLine {header : Bytes × Bytes} (h : 58 ∉ header.1) :
    headerOf (headerLine header) = some ⟨header.1, header.2.dropWhile isBlankByte⟩ := by
  have hsplit : headerLine header = header.1 ++ 58 :: (32 :: header.2) := by simp [headerLine, lit]
  rw [hsplit, headerOf, if_pos (by simp), takeWhile_ne_append h, afterByte_append h]
  rfl

/-- The headers as they are received. -/
def receivedHeaders (req : ExtensionRequest) (id : Bytes) : List BrextHeader :=
  (forwardHeaders req id).map fun h => ⟨h.1, h.2.dropWhile isBlankByte⟩

/-- The headers are read. -/
theorem headerLoop_forward (req : ExtensionRequest) (id : Bytes) :
    headerLoop [] ((forwardHeaders req id).map headerLine) = receivedHeaders req id := by
  have hlen : ((forwardHeaders req id).map Prod.fst).length ≤ 13 := by
    rw [map_fst_forwardHeaders]
    cases headerValue 256 req.contentType != [] <;> decide
  rw [List.length_map] at hlen
  rw [headerLoop_eq (by simp [brextMaxHeaders]; omega), List.nil_append, List.filterMap_map,
    receivedHeaders, ← List.filterMap_eq_map]
  refine List.filterMap_congr fun h hmem => ?_
  exact headerOf_headerLine (forwardNames_plain _ _ (mem_forwardNames hmem)).1

/-- The value of a header whose name no other one has. -/
theorem headerIn_of_mem {headers : List BrextHeader} {name value : Bytes}
    (hnames : (headers.map BrextHeader.name).Pairwise fun a b => eqNoCase a b = false)
    (h : ⟨name, value⟩ ∈ headers) : headerIn headers name = value := by
  induction headers with
  | nil => cases h
  | cons header headers ih =>
    rw [List.map_cons, List.pairwise_cons] at hnames
    rcases List.mem_cons.mp h with rfl | h
    · simp [headerIn]
    · have hne := hnames.1 name (List.mem_map_of_mem (f := BrextHeader.name) h)
      have := ih hnames.2 h
      simpa [headerIn, List.find?_cons, hne] using this

/-- The value received of a header that was sent. -/
theorem headerIn_received {name value : Bytes} (h : (name, value) ∈ forwardHeaders req id) :
    headerIn (receivedHeaders req id) name = value.dropWhile isBlankByte := by
  refine headerIn_of_mem ?_ (List.mem_map_of_mem (f := fun h : Bytes × Bytes =>
    (⟨h.1, h.2.dropWhile isBlankByte⟩ : BrextHeader)) h)
  have hmap : (receivedHeaders req id).map BrextHeader.name = (forwardHeaders req id).map Prod.fst := by
    simp [receivedHeaders]
  rw [hmap, map_fst_forwardHeaders]
  exact forwardNames_pairwise _

/-! ## The values -/

/-- What is dropped from the beginning depends on the bytes that are there. -/
theorem dropWhile_congr {p q : UInt8 → Bool} {s : Bytes} (h : ∀ c ∈ s, p c = q c) :
    s.dropWhile p = s.dropWhile q := by
  induction s with
  | nil => rfl
  | cons c s ih =>
    have hc := h c (by simp)
    rw [List.dropWhile_cons, List.dropWhile_cons, hc, ih fun d hd => h d (by simp [hd])]

/-- There are no tabs among the blanks at the beginning of a value. -/
theorem dropWhile_headerValue (size : ℕ) (v : Bytes) :
    (headerValue size v).dropWhile isBlankByte = carried size v := by
  have hblank : ∀ c ∈ headerValue size v, isBlankByte c = (c == 32) := by
    intro c hc
    have hne : c ≠ 9 := by
      rintro rfl
      exact absurd (le_of_mem_headerValue hc).1 (by decide)
    simp [isBlankByte, hne]
  rw [dropWhile_congr hblank, carried, headerValue_eq]

/-- The target in the request line is the one that is to be received. -/
theorem forwardTarget_eq (target : Bytes) :
    forwardTarget target = if carriedTarget target = [] then lit "/" else carriedTarget target := by
  have hbyte : ∀ c : UInt8, (if spaceControl c = 32 then 43 else spaceControl c) =
      if c ≤ 32 ∨ c = 127 then 43 else c := by
    intro c
    simp only [spaceControl, Bool.or_eq_true, decide_eq_true_eq, beq_iff_eq]
    grind
  have hmap : (headerValue 2048 target).map (fun c => if c = 32 then 43 else c) = carriedTarget target := by
    rw [headerValue_eq, List.map_map, carriedTarget]
    exact List.map_congr_left fun c _ => hbyte c
  rw [forwardTarget, hmap]

/-- A number without a sign is not a blank. -/
theorem dropWhile_of_digit {s : Bytes} (h : ∀ c ∈ s, c = 45 ∨ isXDigit c = true) :
    s.dropWhile isBlankByte = s := by
  cases s with
  | nil => rfl
  | cons c s =>
    refine List.dropWhile_cons_of_neg ?_
    rcases h c (by simp) with rfl | hc
    · decide
    · simp only [isXDigit, isDigit, Bool.or_eq_true, Bool.and_eq_true, decide_eq_true_eq] at hc
      simp only [isBlankByte]
      grind

/-- What is received of a value that was sent. -/
theorem headerIn_value (id name : Bytes) (size : ℕ) (v : Bytes)
    (h : (name, headerValue size v) ∈ forwardHeaders req id) :
    headerIn (receivedHeaders req id) name = carried size v :=
  (headerIn_received h).trans (dropWhile_headerValue size v)

/-- The length of the body is read. -/
theorem headerIn_contentLength (req : ExtensionRequest) (id : Bytes) :
    headerIn (receivedHeaders req id) (lit "Content-Length") = decimal req.body.length := by
  rw [headerIn_received (show (lit "Content-Length", decimal req.body.length) ∈ forwardHeaders req id by
    simp [forwardHeaders])]
  exact dropWhile_of_digit fun c hc => Or.inr (isXDigit_of_isDigit (isDigit_of_mem_decimal hc))

/-- The type of the body is received, empty when there is none. -/
theorem headerIn_contentType (req : ExtensionRequest) (id : Bytes) :
    headerIn (receivedHeaders req id) (lit "Content-Type") = carried 256 req.contentType := by
  by_cases htype : headerValue 256 req.contentType = []
  · -- no header has that name
    have hnone : (receivedHeaders req id).find? (fun header => eqNoCase header.name (lit "Content-Type")) =
        none := by
      rw [List.find?_eq_none]
      intro header hmem
      obtain ⟨h, hsent, rfl⟩ := List.mem_map.mp hmem
      have hname := mem_forwardNames hsent
      rw [htype] at hname
      have hall : ∀ n ∈ forwardNames false, ¬ eqNoCase n (lit "Content-Type") = true := by decide
      exact hall _ hname
    rw [headerIn, hnone, ← dropWhile_headerValue, htype]
    rfl
  · exact headerIn_value id (lit "Content-Type") 256 req.contentType (by simp [forwardHeaders, htype])

/-! ## The request received -/

/-- The request is written, if it is within the limits. -/
theorem forwardBytes_eq (h : req.WithinLimits) (now seq : ℕ) :
    forwardBytes req now seq = some (forwardHead req (forwardId req now seq) ++ req.body) := by
  have hid : (forwardId req now seq).length ≤ 31 := by
    rw [forwardId, List.length_take]
    exact min_le_left _ _
  have hlt := length_forwardHead_lt h.method_le h.body_le hid
  simp only [forwardBytes, if_neg (Nat.not_le.mpr hlt)]

/-- The path that is received. -/
def receivedPath (req : ExtensionRequest) : Bytes :=
  if (carriedTarget req.target).takeWhile (· ≠ 63) = [] then lit "/"
  else (carriedTarget req.target).takeWhile (· ≠ 63)

/-- The path and the query in the request line are those that are to be received, and fit. -/
theorem forwardTarget_parts (h : req.WithinLimits) :
    (if (forwardTarget req.target).takeWhile (· ≠ 63) = [] then lit "/"
      else (forwardTarget req.target).takeWhile (· ≠ 63)) = receivedPath req ∧
      afterByte 63 (forwardTarget req.target) = afterByte 63 (carriedTarget req.target) ∧
        ((forwardTarget req.target).takeWhile (· ≠ 63)).length < 1024 ∧
          (afterByte 63 (forwardTarget req.target)).length < 2048 := by
  have hlen := (length_afterByte_le 63 _).trans (length_forwardTarget_le req.target)
  have hpath := h.path_lt
  rw [receivedPath]
  by_cases htarget : carriedTarget req.target = []
  · rw [forwardTarget_eq, if_pos htarget, htarget]
    decide
  · rw [forwardTarget_eq, if_neg htarget] at hlen ⊢
    exact ⟨rfl, rfl, hpath, Nat.lt_succ_of_le hlen⟩

/-- The lines of the request's head. -/
def forwardLines (req : ExtensionRequest) (id : Bytes) : List Bytes :=
  (cstr req.method ++ lit " " ++ forwardTarget req.target ++ lit " HTTP/1.1") ::
    (forwardHeaders req id).map headerLine

/-- They are lines, and none is empty. -/
theorem forwardLines_plain (h : req.WithinLimits) (hid : PlainLine id) :
    ∀ l ∈ forwardLines req id, l ≠ [] ∧ PlainLine l := by
  intro l hl
  rcases List.mem_cons.mp hl with rfl | hl
  · refine ⟨by simp [lit], ?_⟩
    have hmethod : PlainLine (cstr req.method) := by
      refine ⟨⟨fun hc => ?_, fun hc => ?_⟩, zero_notMem_cstr _⟩
      · exact absurd (h.method_word 13 ((List.takeWhile_prefix _).subset hc)).1 (by decide)
      · exact absurd (h.method_word 10 ((List.takeWhile_prefix _).subset hc)).1 (by decide)
    have htarget : PlainLine (forwardTarget req.target) :=
      plainLine_of_le fun c hc => UInt8.le_of_lt (lt_of_mem_forwardTarget hc).1
    exact ((hmethod.append ⟨by decide, by decide⟩).append htarget).append ⟨by decide, by decide⟩
  · obtain ⟨header, hmem, rfl⟩ := List.mem_map.mp hl
    obtain ⟨-, hne, hname⟩ := forwardNames_plain _ _ (mem_forwardNames hmem)
    refine ⟨by simp [headerLine, hne], ?_⟩
    exact (PlainLine.append hname ⟨by decide, by decide⟩).append (plainLine_forwardHeaders hid header hmem)

/-- **A request is received as it was forwarded**, in whatever pieces it arrives. -/
theorem readRequest_forward (h : req.WithinLimits) (hid : PlainLine id) (hlen : id.length ≤ 31)
    {sock : Socket} (hleft : sock.left = forwardHead req id ++ req.body) :
    ∃ r, readRequest sock = some r ∧ Received req id r := by
  have hlines := forwardLines_plain h hid
  have hhead : forwardHead req id = renderHead (forwardLines req id) := rfl
  have hnul : 0 ∉ forwardHead req id :=
    notMem_renderHead (by decide) fun l hl => (hlines l hl).2.2
  have hstop : ∀ t, findSub emptyLine (forwardHead req id ++ t) = some ((forwardHead req id).length - 4) :=
    findSub_renderHead (List.cons_ne_nil _ _) (fun l hl => (hlines l hl).2.1)
      fun l hl => (hlines l (List.mem_of_mem_tail hl)).1
  have hend : findSub emptyLine (forwardHead req id) = some ((forwardHead req id).length - 4) := by
    simpa using hstop []
  have hlong : (forwardHead req id).length = (forwardHead req id).length - 4 + 4 := by
    have hle := (findSub_add_le hend).resolve_right (by decide)
    have h4 : emptyLine.length = 4 := rfl
    omega
  have hfits := length_forwardHead_lt h.method_le h.body_le hlen
  obtain ⟨arrived, sock', hread, hrest⟩ := @readHead_eq [] sock _ _ _ hleft hnul hend hlong
    (hfits.le.trans (by decide)) (by rw [List.length_nil]; omega)
  -- the tokens before the empty line are the lines
  have htokens : strtok isLineEnd ((cstr (forwardHead req id ++ arrived)).take
      ((forwardHead req id).length - 4)) = forwardLines req id := by
    have hcstr : cstr (forwardHead req id ++ arrived) = forwardHead req id ++ cstr arrived := by
      rw [cstr, List.takeWhile_append_of_pos fun b hb => by simpa using ne_of_mem_of_not_mem hb hnul]
      rfl
    rw [hcstr]
    refine strtok_take_renderHead rfl rfl (List.cons_ne_nil _ _) (fun l hl => ⟨(hlines l hl).1, ?_⟩) _
    intro c hc
    have hline := (hlines l hl).2.1
    simp only [isLineEnd, Bool.or_eq_false_iff, beq_eq_false_iff_ne]
    exact ⟨ne_of_mem_of_not_mem hc hline.1, ne_of_mem_of_not_mem hc hline.2⟩
  have hbody : readBody (receivedHeaders req id) arrived sock' = some req.body := by
    have hnumber : (strtoll (decimal req.body.length)).1 = req.body.length := by
      have hsmall : req.body.length ≤ 8388608 := h.body_le
      rw [← signed_natCast, strtoll_signed (by omega) (by omega)]
    have hcount := congrArg List.length hrest
    rw [List.length_append] at hcount
    have hle := h.body_le
    rw [Sdk.readBody, headerIn_contentLength, hnumber, if_neg (by omega), readRest_eq,
      Int.toNat_natCast, if_pos (by omega), ← hrest, List.length_append, List.take_of_length_le (by omega),
      List.take_of_length_le (by omega)]
  have hcut : (forwardHead req id ++ arrived).drop ((forwardHead req id).length - 4 + 4) = arrived := by
    rw [← hlong, List.drop_left]
  refine ⟨⟨req.method, receivedPath req, afterByte 63 (carriedTarget req.target),
    receivedHeaders req id, req.body⟩, ?_, ?_⟩
  · obtain ⟨hpath, hquery, hpathlt, hquerylt⟩ := forwardTarget_parts h
    rw [readRequest, hread]
    dsimp only
    rw [htokens, forwardLines]
    simp only [scanTarget_forward h]
    rw [if_neg (by omega), headerLoop_forward, hcut, hbody, Option.map_some, hpath, hquery]
  · have hepoch : brextEpoch ⟨req.method, receivedPath req, afterByte 63 (carriedTarget req.target),
        receivedHeaders req id, req.body⟩ = req.epoch := by
      have hlo := req.epoch.le_toInt
      have hhi := req.epoch.toInt_lt
      rw [brextEpoch, brextHeader, headerIn_received
          (show (lit "X-BR-Epoch", signed req.epoch.toInt) ∈ forwardHeaders req id by simp [forwardHeaders]),
        dropWhile_of_digit fun c hc => (isDigit_of_mem_signed hc).imp_right isXDigit_of_isDigit,
        strtoll_signed (by omega) (by omega), Int32.ofInt_toInt]
    refine ⟨rfl, rfl, rfl, ?_, ?_, ?_, ?_, ?_, ?_, hepoch, headerIn_contentType req id, rfl, rfl⟩
    · exact headerIn_value id (lit "X-BR-Mount") 128 req.mount (by simp [forwardHeaders])
    · exact headerIn_value id (lit "X-BR-User-Id") 64 req.userId (by simp [forwardHeaders])
    · exact headerIn_value id (lit "X-BR-User-Name") 256 req.userName (by simp [forwardHeaders])
    · exact headerIn_value id (lit "X-BR-Role") 32 req.role (by simp [forwardHeaders])
    · exact headerIn_value id (lit "X-BR-Lang") 32 req.lang (by simp [forwardHeaders])
    · exact headerIn_value id (lit "X-BR-Theme") 64 req.theme (by simp [forwardHeaders])

end BoatRudder.Extensions
