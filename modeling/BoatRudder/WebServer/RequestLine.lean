import BoatRudder.WebServer.HttpRequestParser

/-! # Taking the request line

`parse_http_request` reads the request line with `sscanf`, whose widths cut a field that is longer
and leave the rest of it to the next one. The line is taken exactly, or refused, when its fields are
as many as a request line has and fit the widths. -/

namespace BoatRudder.WebServer

/-! ## The whole line -/

variable {line method url : Bytes}

/-- The fields of a request line: what its white space separates. -/
def lineFields (line : Bytes) : List Bytes := strtok isSpace line

/-- The fields are those of a request line and fit the widths: a method, a URL and, from HTTP/1.0
on, a protocol. -/
def FieldsFit : List Bytes → Prop
  | [method, url] => method.length ≤ 15 ∧ url.length ≤ 1023
  | [method, url, protocol] => method.length ≤ 15 ∧ url.length ≤ 1023 ∧ protocol.length ≤ 15
  | _ => False

/-- What was scanned is the fields of the line, all of them and whole. -/
def Scanned (line : Bytes) (scanned : Bytes × Bytes × Bytes) : Prop :=
  lineFields line = [scanned.1, scanned.2.1, scanned.2.2] ∨
    lineFields line = [scanned.1, scanned.2.1] ∧ scanned.2.2 = []

/-- A line of fewer than two fields that fit is refused. -/
def Refused (fields : List Bytes) : Prop := fields.length < 2 ∧ ∀ field ∈ fields, field.length ≤ 15

/-- What `sscanf` makes of the last field. -/
theorem scanField_last (rest : Bytes) : ((scanField 15 rest).map (·.1)).getD [] =
    ((lineFields rest).head?.map (List.take 15)).getD [] := by
  rw [lineFields]
  cases h : strtok isSpace rest with
  | nil => rw [scanField_of_nil h]; rfl
  | cons field fields =>
    obtain ⟨after, hscan, -⟩ := scanField_of_cons (show 0 < 15 by decide) h
    rw [hscan]
    rfl

theorem scanRequestLine_of_refused (h : Refused (lineFields line)) :
    scanRequestLine line = none := by
  obtain ⟨hlen, hfit⟩ := h
  rw [lineFields] at hlen hfit
  cases hfields : strtok isSpace line with
  | nil => rw [scanRequestLine, scanField_of_nil hfields]
  | cons method fields =>
    rw [hfields] at hlen hfit
    obtain ⟨rest, hscan, hrest⟩ := scanField_of_cons (show 0 < 15 by decide) hfields
    rw [if_pos (hfit method (by simp))] at hrest
    obtain rfl : fields = [] := by
      rw [List.length_cons] at hlen
      exact List.length_eq_zero_iff.mp (by omega)
    rw [scanRequestLine, hscan]
    simp only [scanField_of_nil hrest]

/-- The method and the URL, when the method fits: what is scanned of two fields or more. -/
theorem scanRequestLine_of_method {fields : List Bytes}
    (h : lineFields line = method :: url :: fields) (hmethod : method.length ≤ 15) :
    scanRequestLine line = some (method, url.take 1023,
      ((if url.length ≤ 1023 then fields else url.drop 1023 :: fields).head?.map
        (List.take 15)).getD []) := by
  obtain ⟨rest, hscan, hrest⟩ := scanField_of_cons (show 0 < 15 by decide) h
  rw [if_pos hmethod] at hrest
  obtain ⟨last, hscan', hlast⟩ := scanField_of_cons (show 0 < 1023 by decide) hrest
  rw [scanRequestLine, hscan, List.take_of_length_le hmethod]
  simp only [hscan', scanField_last, lineFields, hlast]

/-- A method that does not fit is cut, and what is cut off is taken for the URL. -/
theorem scanRequestLine_of_long {fields : List Bytes}
    (h : lineFields line = method :: fields) (hmethod : 15 < method.length) :
    ∃ url protocol, scanRequestLine line = some (method.take 15, url, protocol) := by
  obtain ⟨rest, hscan, hrest⟩ := scanField_of_cons (show 0 < 15 by decide) h
  rw [if_neg (by omega)] at hrest
  obtain ⟨last, hscan', -⟩ := scanField_of_cons (show 0 < 1023 by decide) hrest
  rw [scanRequestLine, hscan]
  simp only [hscan']
  exact ⟨_, _, rfl⟩

/-- **A line is refused exactly where it has fewer than two fields, that fit.** -/
theorem scanRequestLine_eq_none_iff : scanRequestLine line = none ↔ Refused (lineFields line) := by
  refine ⟨fun hnone => ?_, scanRequestLine_of_refused⟩
  cases hfields : lineFields line with
  | nil => exact ⟨by simp, by simp⟩
  | cons method fields =>
    by_cases hmethod : method.length ≤ 15
    · cases fields with
      | nil => exact ⟨by simp, by simpa using hmethod⟩
      | cons url fields =>
        rw [scanRequestLine_of_method hfields hmethod] at hnone
        cases hnone
    · obtain ⟨url, protocol, hlong⟩ := scanRequestLine_of_long hfields (by omega)
      rw [hlong] at hnone
      cases hnone

theorem length_le_of_eq_take {s : Bytes} {n : ℕ} (h : s = s.take n) : s.length ≤ n := by
  rw [h]
  exact List.length_take_le _ _

/-- **Any other line is taken exactly where its fields fit.** -/
theorem scanned_iff {scanned : Bytes × Bytes × Bytes} (h : scanRequestLine line = some scanned) :
    Scanned line scanned ↔ FieldsFit (lineFields line) := by
  obtain ⟨method, url, protocol⟩ := scanned
  constructor
  · -- the fields that were scanned are cut at their widths
    have hmethod {fields : List Bytes} (hfields : lineFields line = method :: fields) :
        method.length ≤ 15 := by
      by_contra hlt
      obtain ⟨url', protocol', hlong⟩ := scanRequestLine_of_long hfields (by omega)
      rw [h] at hlong
      obtain ⟨hcut, -⟩ := by simpa only [Option.some.injEq, Prod.mk.injEq] using hlong
      exact hlt (length_le_of_eq_take hcut)
    rintro (hthree | ⟨htwo, -⟩)
    · have hscan := scanRequestLine_of_method hthree (hmethod hthree)
      rw [h] at hscan
      obtain ⟨-, hurl, hlast⟩ := by simpa only [Option.some.injEq, Prod.mk.injEq] using hscan
      have hle := length_le_of_eq_take hurl
      rw [if_pos hle] at hlast
      rw [hthree]
      exact ⟨hmethod hthree, hle, length_le_of_eq_take hlast⟩
    · have hscan := scanRequestLine_of_method htwo (hmethod htwo)
      rw [h] at hscan
      obtain ⟨-, hurl, -⟩ := by simpa only [Option.some.injEq, Prod.mk.injEq] using hscan
      rw [htwo]
      exact ⟨hmethod htwo, length_le_of_eq_take hurl⟩
  · intro hfit
    match hfields : lineFields line, hfit with
    | [method', url'], ⟨hmethod, hurl⟩ =>
      rw [scanRequestLine_of_method hfields hmethod, if_pos hurl,
        List.take_of_length_le hurl] at h
      cases h
      exact Or.inr ⟨hfields, rfl⟩
    | [method', url', protocol'], ⟨hmethod, hurl, hprotocol⟩ =>
      rw [scanRequestLine_of_method hfields hmethod, if_pos hurl,
        List.take_of_length_le hurl] at h
      cases h
      refine Or.inl ?_
      rw [hfields]
      simp [List.take_of_length_le hprotocol]

/-- What is scanned is made of bytes of the line. -/
theorem mem_of_scanField {width : ℕ} {s field rest : Bytes}
    (h : scanField width s = some (field, rest)) : field ⊆ s ∧ rest ⊆ s := by
  simp only [scanField] at h
  split at h
  · cases h
  · cases h
    have hsub : s.dropWhile isSpace ⊆ s := (List.dropWhile_suffix _).subset
    have hword :=
      (List.take_prefix width ((s.dropWhile isSpace).takeWhile fun b => !isSpace b)).trans
        (List.takeWhile_prefix _)
    exact ⟨List.Subset.trans hword.subset hsub,
      List.Subset.trans (List.drop_suffix _ _).subset hsub⟩

theorem subset_of_scanRequestLine {protocol : Bytes}
    (h : scanRequestLine line = some (method, url, protocol)) :
    method ⊆ line ∧ url ⊆ line ∧ protocol ⊆ line := by
  simp only [scanRequestLine] at h
  split at h
  · cases h
  · next method' rest hmethod =>
      obtain ⟨hm, hrest⟩ := mem_of_scanField hmethod
      split at h
      · cases h
      · next url' rest' hurl =>
          obtain ⟨hu, hrest'⟩ := mem_of_scanField hurl
          cases h
          refine ⟨hm, List.Subset.trans hu hrest, ?_⟩
          cases hlast : scanField 15 rest' with
          | none => simp
          | some last =>
            have hp := (mem_of_scanField
              (show scanField 15 rest' = some (last.1, last.2) from hlast)).1
            exact List.Subset.trans (List.Subset.trans hp hrest') hrest

/-! ## The first line of a request -/

/-- The first line of a request, whatever bytes it holds. -/
def firstLine (raw : Bytes) : Option Bytes := (strtok isLineEnd raw).head?

/-- `parse_http_request` sees of the first line what stands before its first NUL. -/
theorem requestLines_head? (raw : Bytes) :
    (requestLines raw).head? = (firstLine raw).bind fun line =>
      if cstr line = [] then none else some (cstr line) := by
  have hzero : isLineEnd 0 = false := rfl
  have hleading : 0 ∉ raw.takeWhile isLineEnd :=
    fun h => absurd (List.mem_takeWhile_imp h) (by decide)
  have hcstr : requestLines raw = strtok isLineEnd (cstr (raw.dropWhile isLineEnd)) := by
    have hsplit := cstr_append_of_notMem hleading (raw.dropWhile isLineEnd)
    rw [List.takeWhile_append_dropWhile] at hsplit
    rw [requestLines, hsplit, ← strtok_dropWhile, List.dropWhile_append_of_pos, strtok_dropWhile]
    exact fun c hc => List.mem_takeWhile_imp hc
  rw [hcstr, firstLine]
  cases hlines : strtok isLineEnd raw with
  | nil =>
    rw [strtok_eq_nil_iff.mp hlines]
    rfl
  | cons line lines =>
    obtain ⟨t, hline, hne, hplain, hstop, -⟩ := of_strtok_eq_cons hlines
    rw [hline, List.head?_cons, Option.bind_some]
    by_cases hnul : 0 ∈ line
    · rw [cstr_append_of_mem hnul]
      split_ifs with hnil
      · rw [hnil, strtok_nil]
        rfl
      · have hbytes : ∀ c ∈ cstr line, isLineEnd c = false :=
          fun c hc => hplain c ((List.takeWhile_prefix _).subset hc)
        rw [strtok_of_forall hbytes hnil]
        rfl
    · rw [cstr_append_of_notMem hnul, cstr_eq_self hnul, if_neg hne,
        strtok_append_of_forall hplain hne]
      · rfl
      · intro c hc
        cases t with
        | nil => simp [cstr] at hc
        | cons b t =>
          have hb : isLineEnd b = true := hstop b (by simp)
          have hb0 : b ≠ 0 := by
            rintro rfl
            cases hb
          rw [cstr, List.takeWhile_cons_of_pos (by simpa using hb0)] at hc
          obtain rfl : b = c := by simpa using hc
          exact hb

/-! ## Origin form -/

/-- `url` with its scheme and authority taken off, if it has them. -/
inductive OriginForm (url : Bytes) : Bytes → Prop
  /-- The URL is in origin form. -/
  | origin (h : ¬ (eqNoCase (url.take 7) (lit "http://") = true ∨
      eqNoCase (url.take 8) (lit "https://") = true)) : OriginForm url url
  /-- The path follows the authority. -/
  | path {scheme authority path : Bytes}
      (hscheme : eqNoCase scheme (lit "http://") = true ∨ eqNoCase scheme (lit "https://") = true)
      (hauthority : ∀ c ∈ authority, c ≠ 47 ∧ c ≠ 63 ∧ c ≠ 35)
      (hurl : url = scheme ++ (authority ++ 47 :: path)) : OriginForm url (47 :: path)
  /-- A query or a fragment follows it, or nothing: the path is the root. -/
  | root {scheme authority rest : Bytes}
      (hscheme : eqNoCase scheme (lit "http://") = true ∨ eqNoCase scheme (lit "https://") = true)
      (hauthority : ∀ c ∈ authority, c ≠ 47 ∧ c ≠ 63 ∧ c ≠ 35)
      (hrest : ∀ c ∈ rest.head?, c = 63 ∨ c = 35)
      (hurl : url = scheme ++ (authority ++ rest)) : OriginForm url (47 :: rest)

/-- **`split_absolute_form` leaves the origin form.** -/
theorem originForm_splitAbsoluteForm (url : Bytes) : OriginForm url (splitAbsoluteForm url).1 := by
  -- behind a scheme of `n` bytes
  have habsolute {n : ℕ} (hscheme : eqNoCase (url.take n) (lit "http://") = true ∨
      eqNoCase (url.take n) (lit "https://") = true) (hn : n ≠ 0)
      (hsplit : (if eqNoCase (url.take 7) (lit "http://") then 7
        else if eqNoCase (url.take 8) (lit "https://") then 8 else 0) = n) :
      OriginForm url (splitAbsoluteForm url).1 := by
    let host := (url.drop n).takeWhile fun b => b != 47 && b != 63 && b != 35
    let rest := (url.drop n).dropWhile fun b => b != 47 && b != 63 && b != 35
    have hurl : url = url.take n ++ (host ++ rest) := by
      rw [List.takeWhile_append_dropWhile, List.take_append_drop]
    have hdrop : (url.drop n).drop host.length = rest := by
      rw [← List.takeWhile_append_dropWhile (p := fun b => b != 47 && b != 63 && b != 35)
        (l := url.drop n), List.drop_left]
    have hhost : ∀ c ∈ host, c ≠ 47 ∧ c ≠ 63 ∧ c ≠ 35 := by
      intro c hc
      simpa [and_assoc] using List.mem_takeWhile_imp hc
    have hresult : (splitAbsoluteForm url).1 =
        if rest.head? = some 47 then rest else 47 :: rest := by
      rw [splitAbsoluteForm, hsplit, if_neg hn, ← hdrop]
    rw [hresult]
    cases hrest : rest with
    | nil => exact .root hscheme hhost (by simp) (hrest ▸ hurl)
    | cons c path =>
      by_cases hc : c = 47
      · subst hc
        exact .path hscheme hhost (hrest ▸ hurl)
      · have hhead := List.head?_dropWhile_not (fun b : UInt8 => b != 47 && b != 63 && b != 35)
          (url.drop n)
        rw [show (url.drop n).dropWhile (fun b => b != 47 && b != 63 && b != 35) = c :: path
          from hrest] at hhead
        have hmark : c = 63 ∨ c = 35 := by
          simpa [hc, or_iff_not_imp_left] using hhead
        rw [if_neg (by simpa using hc)]
        exact .root hscheme hhost (by simpa using hmark) (hrest ▸ hurl)
  by_cases hhttp : eqNoCase (url.take 7) (lit "http://") = true
  · exact habsolute (Or.inl hhttp) (by decide) (if_pos hhttp)
  by_cases hhttps : eqNoCase (url.take 8) (lit "https://") = true
  · exact habsolute (Or.inr hhttps) (by decide) (by rw [if_neg hhttp, if_pos hhttps])
  · rw [splitAbsoluteForm, if_neg hhttp, if_neg hhttps]
    exact .origin (not_or.mpr ⟨hhttp, hhttps⟩)

/-! ## The request line of a request -/

/-- A request has what was scanned of its first line, the URL reduced. -/
theorem of_parseHttpRequest {raw : Bytes} {req : HttpRequest}
    (h : parseHttpRequest raw = some req) : ∃ line ∈ (requestLines raw).head?, ∃ url,
      scanRequestLine line = some (req.method, url, req.protocol) ∧
        req.url = (splitAbsoluteForm url).1 := by
  cases hlines : requestLines raw with
  | nil =>
    rw [parseHttpRequest, hlines] at h
    cases h
  | cons line lines =>
    rw [parseHttpRequest, hlines] at h
    cases hscan : scanRequestLine line with
    | none =>
      simp only [hscan] at h
      cases h
    | some scanned =>
      simp only [hscan, Option.some.injEq] at h
      subst h
      exact ⟨line, rfl, scanned.2.1, hscan, rfl⟩

/-- A request is parsed where its first line is scanned. -/
theorem parseHttpRequest_of_scan {raw protocol : Bytes} (hline : line ∈ (requestLines raw).head?)
    (hscan : scanRequestLine line = some (method, url, protocol)) :
    ∃ req, parseHttpRequest raw = some req ∧ req.method = method ∧ req.protocol = protocol := by
  cases hlines : requestLines raw with
  | nil =>
    rw [hlines] at hline
    cases hline
  | cons first lines =>
    obtain rfl : first = line := by simpa [hlines] using hline
    rw [parseHttpRequest, hlines]
    simp only [hscan]
    exact ⟨_, rfl, rfl, rfl⟩

/-- The request line is taken exactly or refused: what `sscanf` read of the first line is all its
fields, and the request has them, the URL in origin form. -/
def TakenExactly (raw : Bytes) : Prop :=
  ∀ req, parseHttpRequest raw = some req → ∃ line ∈ firstLine raw, ∃ url,
    scanRequestLine (cstr line) = some (req.method, url, req.protocol) ∧ OriginForm url req.url ∧
      Scanned line (req.method, url, req.protocol)

/-- The fields of the first line are as many as a request line has and fit, and it holds no NUL; or
what stands before its first NUL has fewer than two fields, that fit. -/
def LineFits (raw : Bytes) : Prop :=
  ∀ line ∈ firstLine raw,
    Refused (lineFields (cstr line)) ∨ 0 ∉ line ∧ FieldsFit (lineFields line)

/-- A line of which all the fields were scanned holds no NUL. -/
theorem Scanned.zero_notMem {scanned : Bytes × Bytes × Bytes}
    (h : Scanned line scanned) (hscan : scanRequestLine (cstr line) = some scanned) :
    0 ∉ line := by
  obtain ⟨method, url, protocol⟩ := scanned
  obtain ⟨hm, hu, hp⟩ := subset_of_scanRequestLine hscan
  intro hnul
  have hfield : 0 ∈ (lineFields line).flatten := by
    rw [lineFields, flatten_strtok, List.mem_filter]
    exact ⟨hnul, rfl⟩
  have hbytes : (lineFields line).flatten ⊆ cstr line := by
    intro c hc
    rcases h with hthree | ⟨htwo, -⟩
    · rw [hthree] at hc
      simp only [List.flatten_cons, List.flatten_nil, List.append_nil, List.mem_append] at hc
      rcases hc with hc | hc | hc
      · exact hm hc
      · exact hu hc
      · exact hp hc
    · rw [htwo] at hc
      simp only [List.flatten_cons, List.flatten_nil, List.append_nil, List.mem_append] at hc
      rcases hc with hc | hc
      · exact hm hc
      · exact hu hc
  exact zero_notMem_cstr line (hbytes hfield)

/-- **The request line is taken exactly or refused exactly when its fields fit.** -/
theorem takenExactly_iff (raw : Bytes) : TakenExactly raw ↔ LineFits raw := by
  have hhead := requestLines_head? raw
  constructor
  · intro h line hline
    rw [Option.mem_def.mp hline, Option.bind_some] at hhead
    by_cases hnil : cstr line = []
    · refine Or.inl ?_
      rw [hnil]
      exact ⟨by decide, by simp [lineFields]⟩
    rw [if_neg hnil] at hhead
    cases hscan : scanRequestLine (cstr line) with
    | none => exact Or.inl (scanRequestLine_eq_none_iff.mp hscan)
    | some scanned =>
      obtain ⟨method, url, protocol⟩ := scanned
      obtain ⟨req, hreq, rfl, rfl⟩ := parseHttpRequest_of_scan hhead hscan
      obtain ⟨line', hline', url', hscan', -, hscanned⟩ := h req hreq
      obtain rfl : line = line' := Option.mem_unique hline hline'
      have hnul := hscanned.zero_notMem hscan'
      rw [cstr_eq_self hnul] at hscan'
      exact Or.inr ⟨hnul, (scanned_iff hscan').mp hscanned⟩
  · intro h req hreq
    obtain ⟨seen, hseen, url, hscan, hurl⟩ := of_parseHttpRequest hreq
    rw [hhead] at hseen
    obtain ⟨line, hline, hcut⟩ := Option.bind_eq_some_iff.mp hseen
    have hsame : cstr line = seen := by
      split_ifs at hcut
      exact Option.some.inj hcut
    subst hsame
    refine ⟨line, hline, url, hscan, hurl ▸ originForm_splitAbsoluteForm url, ?_⟩
    rcases h line hline with hrefused | ⟨hnul, hfit⟩
    · rw [scanRequestLine_eq_none_iff.mpr hrefused] at hscan
      cases hscan
    · rw [cstr_eq_self hnul] at hscan
      exact (scanned_iff hscan).mpr hfit

/-- A URL of 1031 bytes that ends with a protocol: the first 1023 are taken for the URL, and the
rest for the protocol. -/
theorem not_takenExactly_longUrl : ¬ TakenExactly
    (lit "GET" ++ 32 :: (47 :: (List.replicate 1022 97 ++ lit "HTTP/1.1")) ++ [13, 10]) := by
  have hbyte : ∀ c ∈ (47 : UInt8) :: (List.replicate 1022 97 ++ lit "HTTP/1.1"),
      isSpace c = false ∧ c ≠ 0 := by
    intro c hc
    simp only [List.mem_cons, List.mem_append, List.mem_replicate] at hc
    have hlast : ∀ c ∈ lit "HTTP/1.1", isSpace c = false ∧ c ≠ 0 := by decide
    rcases hc with rfl | ⟨-, rfl⟩ | hc
    · decide
    · decide
    · exact hlast c hc
  have hlen : ((47 : UInt8) :: (List.replicate 1022 97 ++ lit "HTTP/1.1")).length = 1031 := by
    rw [List.length_cons, List.length_append, List.length_replicate]
    rfl
  generalize (47 : UInt8) :: (List.replicate 1022 97 ++ lit "HTTP/1.1") = url at hbyte hlen ⊢
  have hne : url ≠ [] := List.length_pos_iff.mp (by omega)
  have hword : ∀ c ∈ lit "GET", isSpace c = false ∧ c ≠ 0 := by decide
  have hend {c : UInt8} (hc : isSpace c = false) : isLineEnd c = false := by
    rw [← Bool.not_eq_true]
    intro hline
    have hmark : c = 13 ∨ c = 10 := by simpa [isLineEnd] using hline
    rcases hmark with rfl | rfl
    · exact absurd hc (by decide)
    · exact absurd hc (by decide)
  have hfields : lineFields (lit "GET" ++ 32 :: url) = [lit "GET", url] := by
    rw [lineFields, strtok_append rfl,
      strtok_of_forall (fun c hc => (hword c hc).1) (by decide),
      strtok_of_forall (fun c hc => (hbyte c hc).1) hne]
    rfl
  have hnul : 0 ∉ lit "GET" ++ 32 :: url := by
    intro hmem
    simp only [List.mem_append, List.mem_cons] at hmem
    rcases hmem with hmem | hmem | hmem
    · exact (hword 0 hmem).2 rfl
    · cases hmem
    · exact (hbyte 0 hmem).2 rfl
  have hfirst : firstLine (lit "GET" ++ 32 :: url ++ [13, 10]) = some (lit "GET" ++ 32 :: url) := by
    rw [firstLine, strtok_append_of_forall _ (by simp) (by decide +kernel)]
    · rfl
    · intro c hc
      simp only [List.mem_append, List.mem_cons] at hc
      rcases hc with hc | rfl | hc
      · exact hend (hword c hc).1
      · rfl
      · exact hend (hbyte c hc).1
  rw [takenExactly_iff]
  intro h
  rcases h _ hfirst with ⟨hshort, -⟩ | ⟨-, hfit⟩
  · rw [cstr_eq_self hnul, hfields] at hshort
    exact absurd hshort (by simp)
  · rw [hfields] at hfit
    exact absurd hfit.2 (by omega)

end BoatRudder.WebServer
