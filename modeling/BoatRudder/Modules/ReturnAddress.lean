import BoatRudder.Formats.References
import BoatRudder.Utils.HttpUtils
import BoatRudder.Utils.Latin1Map
import BoatRudder.Utils.TaggedOnce
import BoatRudder.WebServer.ExtensionTarget

/-! # Return addresses

A link may carry the address that the reader is to come back to. It is checked as a path of the site and
then goes into a Location header or, as it is, into the links of a page, with a parameter behind it and
through the fixups of the page. A browser undoes character references in those, and the fold to Latin-1
makes any character of ASCII of its long forms: the check knows of neither. -/

namespace BoatRudder.Modules

open Utils WebServer

/-! ## The check -/

variable {key param scheme value : Bytes}

/-- What `language_sanitize_return` refuses. -/
def returnRefused (raw : Bytes) : Bool :=
  raw.head? != some 47 || raw[1]? == some 47 || raw[1]? == some 92 ||
    raw.any fun b => b < 0x20 || b == 34 || b == 60 || b == 62

/-- `language_sanitize_return`. -/
def languageSanitizeReturn (raw : Bytes) (outSize : ℕ) : Bytes :=
  if returnRefused raw then (lit "/").take (outSize - 1) else raw.take (outSize - 1)

/-- The value of a parameter as the routes decode it. -/
def returnRaw (value : Bytes) : Bytes := cstr (urlDecode value)

/-- `safe_return`. -/
def safeReturn (value : Bytes) : Bytes := languageSanitizeReturn (returnRaw value) 512

/-! ## Where it goes -/

/-- The name of a host. -/
structure SiteHost where
  name : Bytes
  ne_nil : name ≠ []
  plain : ∀ b ∈ name, isHostByte b = true

/-- `absolute_location`, or the path where the request has no host. -/
def absoluteLocation (scheme : Bytes) (host : Option SiteHost) (path : Bytes) : Bytes :=
  match host with
  | some h => scheme ++ lit "://" ++ h.name ++ path
  | none => path

/-- The Location of `/language/set` and `/theme/set`. -/
def returnLocation (scheme : Bytes) (host : Option SiteHost) (site : Option Bytes) (path : Bytes) : Bytes :=
  requestSiteTagLocation site (absoluteLocation scheme host path)

/-- The links of pages that are made of it. -/
inductive ReturnLink where
  /-- The link back, of `/menu`, `/blog/categories` and the pages of QR codes. -/
  | back
  /-- A link of `/language` or `/theme` that sets a parameter. -/
  | choice (param key : Bytes)
  /-- A link of `/language` or `/theme` to the route that sets a cookie. -/
  | route (path key : Bytes)

namespace ReturnLink

/-- The epochs for which there is such a link. -/
def ShownAt : ReturnLink → ℤ → Prop
  | back, epoch => epoch ≤ epochPrestandard
  | choice _ _, epoch => epoch ≤ epochEarly
  | route _ _, epoch => epochEarly < epoch

/-- The link as the page has it. -/
def href (addr : Bytes) : ReturnLink → Bytes
  | back => addr
  | choice param key =>
    (addr ++ ((if 63 ∈ addr then lit "&amp;" else lit "?") ++ param ++ lit "=" ++ key)).take 599
  | route path key => path ++ key ++ lit "&amp;return=" ++ urlEncode addr 1024

end ReturnLink

/-- What `retrofit_body_for_epoch` makes of the address of a link. -/
def fixedHref (req : EpochRequest) (epoch : ℤ) (href : Bytes) : Bytes :=
  let cur := match req.site with
    | some key => tagValue (lit "site") key href
    | none => href
  if epochMiddle < epoch then cur
  else
    let cur := if epoch ≤ epochEarly then tagValue (lit "lang") req.lang cur else cur
    let cur := if epoch = epochEarly ∨ epoch = epochMiddle then tagValue (lit "theme") req.theme cur
      else cur
    if epoch = epochEarly ∨ epoch = epochWml ∨
        (epoch = epochPrestandard ∧ req.needsLegacyCharset = true) then utf8ToLatin1 cur
    else cur

/-! ## What is wanted -/

/-- The keys of languages, themes and sites. -/
def IsKey (s : Bytes) : Prop := ∀ b ∈ s, isAlnum b = true ∨ b = 45 ∨ b = 95

/-- The keys of a request have been checked. -/
structure CheckedRequest (req : EpochRequest) : Prop where
  site : ∀ key ∈ req.site, IsKey key
  lang : IsKey req.lang
  theme : IsKey req.theme

/-- The links there are. -/
def ReturnLink.Made : ReturnLink → Prop
  | .back => True
  | .choice param key => (param = lit "lang" ∨ param = lit "theme") ∧ IsKey key
  | .route path key => (path = lit "/language/set?code=" ∨ path = lit "/theme/set?key=") ∧ IsKey key

/-- The address of a link stays in its attribute, and leads to a host. -/
structure LeadsTo (refs : CharReferences) (base host : SiteHost) (text : Bytes) : Prop where
  inside : ∀ b ∈ text, b ≠ 34 ∧ b ≠ 60 ∧ b ≠ 62
  lands : authorityOf base.name (refs.unref text) = some host.name

/-- A return address stays on the site. -/
structure ReturnStays (refs : CharReferences) (value : Bytes) : Prop where
  /-- The header stays one line. -/
  line : ∀ (scheme : Bytes) (host : Option SiteHost) (site : Option Bytes),
    scheme = lit "http" ∨ scheme = lit "https" → (∀ key ∈ site, IsKey key) →
    ∀ b ∈ returnLocation scheme host site (safeReturn value), b ≠ 13 ∧ b ≠ 10
  header : ∀ (scheme : Bytes) (host : Option SiteHost) (site : Option Bytes) (base : SiteHost),
    scheme = lit "http" ∨ scheme = lit "https" → (∀ key ∈ site, IsKey key) →
    authorityOf base.name (returnLocation scheme host site (safeReturn value)) =
      some (host.getD base).name
  /-- The same for the link in the page of a redirect. -/
  redirect : ∀ (scheme : Bytes) (host : Option SiteHost) (site : Option Bytes) (base : SiteHost)
    (req : EpochRequest) (epoch : ℤ), scheme = lit "http" ∨ scheme = lit "https" →
    (∀ key ∈ site, IsKey key) → CheckedRequest req →
    LeadsTo refs base (host.getD base)
      (fixedHref req epoch (returnLocation scheme host site (safeReturn value)))
  link : ∀ (l : ReturnLink) (base : SiteHost) (req : EpochRequest) (epoch : ℤ), l.Made →
    l.ShownAt epoch → CheckedRequest req →
    LeadsTo refs base base (fixedHref req epoch (l.href (safeReturn value)))

/-- An address with no slash for its second byte, read as it is or folded to Latin-1, and with none of
the characters of markup once it is folded. -/
structure StaysPut (refs : CharReferences) (s : Bytes) : Prop where
  plain : (secondByte (refs.unref s)).any isSlash = false
  latin1 : (secondByte (refs.unref (utf8ToLatin1 s))).any isSlash = false
  inside : ∀ b ∈ utf8ToLatin1 s, b ≠ 34 ∧ b ≠ 60 ∧ b ≠ 62

/-! ## Parameters -/

/-- The bytes of a key are plain. -/
theorem IsKey.plain {s : Bytes} (h : IsKey s) : ∀ b ∈ s, b < 128 ∧ b ∉ markup := by
  have hclass : ∀ b, (isAlnum b = true ∨ b = 45 ∨ b = 95) → b < 128 ∧ b ∉ markup := by decide +kernel
  intro b hb
  exact hclass b (h b hb)

/-- The parameters that are put in. -/
def IsParam (param : Bytes) : Prop :=
  param = lit "lang" ∨ param = lit "theme" ∨ param = lit "site"

/-- **A parameter may be put in.** -/
theorem insert_param {amp : Bytes} (hamp : amp = lit "&" ∨ amp = lit "&amp;")
    (hparam : IsParam param) (hkey : IsKey key) (before : Bytes) :
    Insert before (sepOf amp before ++ param ++ lit "=" ++ key) where
  plain := by
    have hsep : ∀ b ∈ sepOf amp before, b < 128 ∧ b ∉ markup := by
      rw [sepOf]
      split_ifs
      · rcases hamp with rfl | rfl <;> decide
      · decide
    have hname : ∀ b ∈ param, b < 128 ∧ b ∉ markup := by
      rcases hparam with rfl | rfl | rfl <;> decide
    exact List.forall_mem_append.mpr ⟨List.forall_mem_append.mpr ⟨List.forall_mem_append.mpr
      ⟨hsep, hname⟩, by decide⟩, hkey.plain⟩
  head c hc := by
    rw [sepOf] at hc
    split_ifs at hc with hmark
    · refine Or.inr ⟨?_, hmark⟩
      rcases hamp with rfl | rfl <;> exact (Option.some.inj hc).symm
    · exact Or.inl (Option.some.inj hc).symm

/-- An address grows by a parameter. -/
theorem grows_putParam {amp : Bytes} (hamp : amp = lit "&" ∨ amp = lit "&amp;")
    (hparam : IsParam param) (hkey : IsKey key) {s v : Bytes} (h : Grows s v) :
    Grows s (putParam amp param key v) := by
  refine Grows.put (f := v.dropWhile (· ≠ 35)) ?_ ?_ (insert_param hamp hparam hkey _)
  · rwa [beforeFragment_append]
  · intro c hc
    rcases fragment_cases v with hf | ⟨f, hf⟩ <;> rw [hf] at hc
    · cases hc
    · exact (Option.some.inj hc).symm

/-- Tagging makes an address grow. -/
theorem grows_tagValue (hparam : IsParam param) (hkey : IsKey key) {s v : Bytes}
    (h : Grows s v) : Grows s (tagValue param key v) := by
  rw [tagValue_eq]
  split_ifs
  · exact grows_putParam (Or.inr rfl) hparam hkey h
  · exact h

/-- So does the tagging of a location. -/
theorem grows_requestSiteTagLocation {site : Option Bytes} (hsite : ∀ key ∈ site, IsKey key)
    (s : Bytes) : Grows s (requestSiteTagLocation site s) := by
  cases site with
  | none => exact Grows.refl s
  | some key =>
    rw [requestSiteTagLocation_eq]
    split_ifs
    · exact grows_putParam (Or.inl rfl) (Or.inr (Or.inr rfl)) (hsite key rfl) (Grows.refl s)
    · exact Grows.refl s

/-! ## Latin-1 -/

/-- A fragment begins with no byte that continues a character. -/
theorem isTrail_fragment {f : Bytes} (hf : ∀ c ∈ f.head?, c = 35) : isTrail f.head? = false := by
  cases f with
  | nil => rfl
  | cons c f =>
    obtain rfl := hf c rfl
    exact (by decide : isTrail (some 35) = false)

/-- What is put in begins with none either. -/
theorem isTrail_insert {before t f : Bytes} (ht : Insert before t) (hf : ∀ c ∈ f.head?, c = 35) :
    isTrail (t ++ f).head? = false := by
  cases t with
  | nil => exact isTrail_fragment hf
  | cons c t =>
    rcases ht.head c rfl with rfl | ⟨rfl, -⟩
    · exact (by decide : isTrail (some 63) = false)
    · exact (by decide : isTrail (some 38) = false)

/-- What is put in is folded to itself. -/
theorem utf8ToLatin1_insert {before t f : Bytes} (ht : Insert before t)
    (hf : ∀ c ∈ f.head?, c = 35) : utf8ToLatin1 (t ++ f) = t ++ utf8ToLatin1 f := by
  have hnul : 0 ∉ t := fun hmem => (ht.plain 0 hmem).2 (by decide)
  have hfold := foldLatin1_ascii fun b hb => (ht.plain b hb).1
  rw [utf8ToLatin1_append (isTrail_fragment hf), hfold, if_neg hnul]

/-- **Growing goes with the fold to Latin-1.** -/
theorem grows_utf8ToLatin1 {s v : Bytes} (h : Grows s v) :
    Grows (utf8ToLatin1 s) (utf8ToLatin1 v) := by
  induction h with
  | refl => exact Grows.refl _
  | @put q t f h hf ht ih =>
    rw [utf8ToLatin1_append (isTrail_fragment hf)] at ih
    rw [List.append_assoc, utf8ToLatin1_append (isTrail_insert ht hf)]
    split_ifs at ih ⊢ with hnul
    · -- the string ends in front of what is put in
      exact ih
    · rw [utf8ToLatin1_insert ht hf, ← List.append_assoc]
      refine Grows.put ih ?_ ⟨ht.plain, fun c hc => ?_⟩
      · cases f with
        | nil => simp [utf8ToLatin1, foldLatin1, cstr]
        | cons c f =>
          obtain rfl := hf c rfl
          rw [utf8ToLatin1, foldLatin1_cons (by decide)]
          rintro d hd
          exact (Option.some.inj hd).symm
      · exact (ht.head c hc).imp id (And.imp_right (mem_foldLatin1 (by decide)))

/-- A slash in front is kept. -/
theorem head_utf8ToLatin1 {s : Bytes} (h : s.head? = some 47) : (utf8ToLatin1 s).head? = some 47 := by
  cases s with
  | nil => cases h
  | cons c s =>
    obtain rfl := Option.some.inj h
    rw [utf8ToLatin1, foldLatin1_cons (by decide)]
    rfl

/-! ## Links that stay -/

/-- An address of the site that stays there. -/
structure Stays (refs : CharReferences) (s : Bytes) : Prop where
  head : s.head? = some 47
  settled : HostSettled refs s
  inside : ∀ b ∈ s, b ≠ 34 ∧ b ≠ 60 ∧ b ≠ 62

section Stays

variable {refs : CharReferences} {s v : Bytes}

/-- Such an address leads to its own host. -/
theorem Stays.leadsTo (h : Stays refs s) (base : SiteHost) : LeadsTo refs base base s where
  inside := h.inside
  lands := by
    have hhead : (refs.unref s).head? = some 47 := by
      cases s with
      | nil => cases h.head
      | cons c s =>
        obtain rfl := Option.some.inj h.head
        rw [refs.unref_cons (by decide)]
        rfl
    have hset : (secondByte (refs.unref s)).any isSlash = false := h.settled
    rw [authorityOf_slash _ hhead, hset]
    rfl

/-- It may grow. -/
theorem Stays.of_grows (h : Stays refs s) (hv : Grows s v) : Stays refs v where
  head := hv.head_slash h.head
  settled := hv.settled h.head h.settled
  inside b hb := by
    rcases hv.mem hb with hs | ⟨-, hplain⟩
    · exact h.inside b hs
    · refine ⟨?_, ?_, ?_⟩ <;> rintro rfl <;> exact hplain (by decide)

/-- **The fixups of a page keep it**, if the fold to Latin-1 does. -/
theorem stays_fixedHref {req : EpochRequest} (hreq : CheckedRequest req) {href : Bytes}
    (hplain : Stays refs href) (hlatin1 : Stays refs (utf8ToLatin1 href)) (epoch : ℤ) :
    Stays refs (fixedHref req epoch href) := by
  have hsite : Grows href (match req.site with
      | some key => tagValue (lit "site") key href
      | none => href) := by
    cases hkey : req.site with
    | none => exact Grows.refl href
    | some key =>
      exact grows_tagValue (Or.inr (Or.inr rfl)) (hreq.site key hkey) (Grows.refl href)
  have htag : ∀ {p : Prop} [Decidable p] {param key cur : Bytes}, IsParam param → IsKey key →
      Grows href cur → Grows href (if p then tagValue param key cur else cur) := by
    intro p _ param key cur hparam hkey hcur
    split_ifs
    · exact grows_tagValue hparam hkey hcur
    · exact hcur
  rw [fixedHref]
  by_cases hmodern : epochMiddle < epoch
  · rw [if_pos hmodern]
    exact hplain.of_grows hsite
  · rw [if_neg hmodern]
    have htagged := @htag (epoch = epochEarly ∨ epoch = epochMiddle) _ _ _ _ (Or.inr (Or.inl rfl))
      hreq.theme (@htag (epoch ≤ epochEarly) _ _ _ _ (Or.inl rfl) hreq.lang hsite)
    simp only
    by_cases hfold : epoch = epochEarly ∨ epoch = epochWml ∨
        (epoch = epochPrestandard ∧ req.needsLegacyCharset = true)
    · rw [if_pos hfold]
      exact hlatin1.of_grows (grows_utf8ToLatin1 htagged)
    · rw [if_neg hfold]
      exact hplain.of_grows htagged

/-- An address that leads to its own host from everywhere is settled. -/
theorem settled_of_leadsTo (hhead : v.head? = some 47) (h : ∀ base, LeadsTo refs base base v) :
    HostSettled refs v := by
  have hslash : (refs.unref v).head? = some 47 := by
    cases v with
    | nil => cases hhead
    | cons c v =>
      obtain rfl := Option.some.inj hhead
      rw [refs.unref_cons (by decide)]
      rfl
  by_contra hunsettled
  rw [HostSettled, Bool.not_eq_false] at hunsettled
  have hfound : ∀ base : SiteHost, hostPart ((refs.unref v).filter (!isDropped ·)) = base.name := by
    intro base
    have := (h base).lands
    rw [authorityOf_slash _ hslash, if_pos hunsettled] at this
    exact Option.some.inj this
  have htwo := (hfound ⟨lit "a", by decide, by decide⟩).symm.trans (hfound ⟨lit "b", by decide, by decide⟩)
  exact absurd htwo (by decide)

end Stays

/-! ## Addresses with a host -/

/-- The scheme and the host of an address are plain, and hold no reference. -/
theorem SiteHost.origin_plain (h : SiteHost)
    (hscheme : scheme = lit "http" ∨ scheme = lit "https") :
    ∀ b ∈ scheme ++ lit "://" ++ h.name, b < 128 ∧ b ∉ markup ∧ b ≠ 38 := by
  have hclass : ∀ b, isHostByte b = true → b < 128 ∧ b ∉ markup ∧ b ≠ 38 := by decide +kernel
  refine List.forall_mem_append.mpr ⟨List.forall_mem_append.mpr ⟨?_, by decide⟩, fun b hb => ?_⟩
  · rcases hscheme with rfl | rfl <;> decide
  · exact hclass b (h.plain b hb)

/-- An address with a host is no path. -/
theorem not_siteRelative_origin (hscheme : scheme = lit "http" ∨ scheme = lit "https")
    (rest : Bytes) : ¬ SiteRelative (scheme ++ rest) := by
  rintro ⟨hhead, -⟩
  have hletter : (scheme ++ rest).head? = some 104 := by
    rcases hscheme with rfl | rfl <;> rfl
  rw [hletter] at hhead
  exact absurd hhead (by decide)

/-- A Location with a host is not tagged. -/
theorem returnLocation_host (hscheme : scheme = lit "http" ∨ scheme = lit "https")
    (h : SiteHost) (site : Option Bytes) (s : Bytes) :
    returnLocation scheme (some h) site s = scheme ++ lit "://" ++ h.name ++ s := by
  cases site with
  | none => rfl
  | some key =>
    rw [returnLocation, requestSiteTagLocation_eq, absoluteLocation, if_neg]
    rintro ⟨hrel, -⟩
    rw [List.append_assoc, List.append_assoc] at hrel
    exact not_siteRelative_origin hscheme _ hrel

/-- The fixups leave what is no path of the site as it is, but for the fold to Latin-1. -/
theorem fixedHref_of_not {href : Bytes} (h : ¬ SiteRelative href) (req : EpochRequest) (epoch : ℤ) :
    fixedHref req epoch href = href ∨ fixedHref req epoch href = utf8ToLatin1 href := by
  have hsite : (match req.site with
      | some key => tagValue (lit "site") key href
      | none => href) = href := by
    cases req.site with
    | none => rfl
    | some key => exact tagValue_of_not h
  rw [fixedHref, hsite]
  simp only [tagValue_of_not h, ite_self]
  split_ifs
  · exact Or.inl rfl
  · exact Or.inr rfl
  · exact Or.inl rfl

/-- **An address with a host leads there**, folded or not. -/
theorem leadsTo_origin {refs : CharReferences} (h : SiteHost)
    (hscheme : scheme = lit "http" ∨ scheme = lit "https") {s : Bytes} (hs : Stays refs s)
    (hlatin1 : Stays refs (utf8ToLatin1 s)) (base : SiteHost) (req : EpochRequest) (epoch : ℤ) :
    LeadsTo refs base h (fixedHref req epoch (scheme ++ lit "://" ++ h.name ++ s)) := by
  have hplain := h.origin_plain hscheme
  have hleads : ∀ {s : Bytes}, Stays refs s → LeadsTo refs base h (scheme ++ lit "://" ++ h.name ++ s) := by
    intro s hs
    constructor
    · refine List.forall_mem_append.mpr ⟨fun b hb => ?_, hs.inside⟩
      obtain ⟨-, hmarkup, -⟩ := hplain b hb
      refine ⟨?_, ?_, ?_⟩ <;> rintro rfl <;> exact hmarkup (by decide)
    · obtain ⟨u, rfl⟩ : ∃ u, s = 47 :: u := by
        cases s with
        | nil => cases hs.head
        | cons c u => exact ⟨u, by rw [Option.some.inj hs.head]⟩
      rw [refs.unref_plain_append fun hmem => (hplain 38 hmem).2.2 rfl, refs.unref_cons (by decide)]
      exact authorityOf_host base.name hscheme h.ne_nil h.plain _
  have hfold : utf8ToLatin1 (scheme ++ lit "://" ++ h.name ++ s) =
      scheme ++ lit "://" ++ h.name ++ utf8ToLatin1 s := by
    have hhead : isTrail s.head? = false := by
      rw [hs.head]
      decide
    have hnul : 0 ∉ scheme ++ lit "://" ++ h.name := fun hmem =>
      (hplain 0 hmem).2.1 (by decide)
    rw [utf8ToLatin1_append hhead, foldLatin1_ascii fun b hb => (hplain b hb).1, if_neg hnul]
  have hnot : ¬ SiteRelative (scheme ++ lit "://" ++ h.name ++ s) := by
    rw [List.append_assoc, List.append_assoc]
    exact not_siteRelative_origin hscheme _
  rcases fixedHref_of_not hnot req epoch with heq | heq <;> rw [heq]
  · exact hleads hs
  · rw [hfold]
    exact hleads hlatin1

/-! ## What the check leaves -/

/-- What the check lets pass. -/
theorem returnRefused_eq_false {raw : Bytes} (h : returnRefused raw = false) :
    raw.head? = some 47 ∧ raw[1]? ≠ some 47 ∧ raw[1]? ≠ some 92 ∧
      ∀ b ∈ raw, ¬ b < 0x20 ∧ b ≠ 34 ∧ b ≠ 60 ∧ b ≠ 62 := by
  simpa [returnRefused, not_or, and_assoc] using h

theorem safeReturn_eq (hvalue : value.length ≤ 255) : safeReturn value =
    if returnRefused (returnRaw value) then lit "/" else returnRaw value := by
  have hraw : (returnRaw value).length ≤ 255 :=
    ((List.takeWhile_prefix _).length_le.trans (length_urlDecode_le value)).trans hvalue
  rw [safeReturn, languageSanitizeReturn, List.take_of_length_le (by decide),
    List.take_of_length_le (by omega)]

/-- The check lets nothing pass that counts for another host, or for another line, as it is. -/
theorem stays_none {s : Bytes} (h : returnRefused s = false) : Stays CharReferences.none s := by
  obtain ⟨hhead, hslash, hback, hbytes⟩ := returnRefused_eq_false h
  refine ⟨hhead, ?_, fun b hb => (hbytes b hb).2⟩
  have hkept : s.filter (!isDropped ·) = s := by
    rw [List.filter_eq_self]
    intro b hb
    have hlarge := (hbytes b hb).1
    rw [Bool.not_eq_true', ← Bool.not_eq_true]
    intro hdropped
    simp only [isDropped, Bool.or_eq_true, beq_iff_eq] at hdropped
    rcases hdropped with (rfl | rfl) | rfl <;> exact hlarge (by decide)
  rw [HostSettled, CharReferences.unref_none, secondByte, hkept]
  cases hsecond : s[1]? with
  | none => rfl
  | some c =>
    rw [hsecond] at hslash hback
    simpa [isSlash] using And.intro hslash hback

/-- The byte of a link that is kept. -/
theorem urlEncode_plain (s : Bytes) (n : ℕ) : ∀ b ∈ urlEncode s n, b < 128 ∧ b ∉ markup := by
  have hall : ∀ c, ∀ b ∈ encodeByte urlEscape c, b < 128 ∧ b ∉ markup := by decide +kernel
  obtain ⟨p, -, heq⟩ := @exists_prefix_encodeInto urlEscape (n - 1) s
  intro b hb
  rw [urlEncode, heq, encodeAll, List.mem_flatMap] at hb
  obtain ⟨c, -, hb⟩ := hb
  exact hall c b hb

section Checked

variable {refs : CharReferences} {s : Bytes}

/-- A checked address that stays put is an address that stays, as it is and folded. -/
theorem StaysPut.stays (hs : returnRefused s = false) (h : StaysPut refs s) :
    Stays refs s ∧ Stays refs (utf8ToLatin1 s) := by
  obtain ⟨hhead, -, -, hbytes⟩ := returnRefused_eq_false hs
  exact ⟨⟨hhead, h.plain, fun b hb => (hbytes b hb).2⟩,
    ⟨head_utf8ToLatin1 hhead, h.latin1, h.inside⟩⟩

/-- **Every link to an address that stays put stays on the site.** -/
theorem link_stays (hs : returnRefused s = false) (hlen : s.length ≤ 511) (h : StaysPut refs s)
    {l : ReturnLink} (hl : l.Made) {req : EpochRequest} (hreq : CheckedRequest req) (epoch : ℤ) :
    Stays refs (fixedHref req epoch (l.href s)) := by
  obtain ⟨hplain, hlatin1⟩ := h.stays hs
  cases l with
  | back => exact stays_fixedHref hreq hplain hlatin1 epoch
  | choice param key =>
    have hparam : IsParam param := hl.1.imp id Or.inl
    have hgrows : Grows s ((ReturnLink.choice param key).href s) := by
      rw [ReturnLink.href, List.take_append, List.take_of_length_le (by omega)]
      exact grows_append ((insert_param (Or.inr rfl) hparam hl.2 s).take _)
    exact stays_fixedHref hreq (hplain.of_grows hgrows)
      (hlatin1.of_grows (grows_utf8ToLatin1 hgrows)) epoch
  | route path key =>
    -- the address is in the query, and the link leads to a route of the site
    have hbytes : ∀ b ∈ (ReturnLink.route path key).href s, b < 128 ∧ b ∉ markup := by
      refine List.forall_mem_append.mpr ⟨List.forall_mem_append.mpr ⟨List.forall_mem_append.mpr
        ⟨?_, hl.2.plain⟩, by decide⟩, urlEncode_plain s 1024⟩
      rcases hl.1 with rfl | rfl <;> decide
    have hself : utf8ToLatin1 ((ReturnLink.route path key).href s) =
        (ReturnLink.route path key).href s := by
      rw [utf8ToLatin1, foldLatin1_ascii fun b hb => (hbytes b hb).1,
        cstr_eq_self fun hmem => (hbytes 0 hmem).2 (by decide)]
    have hroute : Stays refs ((ReturnLink.route path key).href s) := by
      refine ⟨?_, ?_, fun b hb => ?_⟩
      · rcases hl.1 with rfl | rfl <;> rfl
      · rcases hl.1 with rfl | rfl
        · exact (settled_slash _).mpr rfl
        · exact (settled_slash _).mpr rfl
      · refine ⟨?_, ?_, ?_⟩ <;> rintro rfl <;> exact (hbytes _ hb).2 (by decide)
    refine stays_fixedHref hreq hroute ?_ epoch
    rw [hself]
    exact hroute

/-- **A Location of a checked address** is one line, and leads to the host of the request. -/
theorem location_stays (hs : returnRefused s = false) {scheme : Bytes}
    (hscheme : scheme = lit "http" ∨ scheme = lit "https") (host : Option SiteHost)
    {site : Option Bytes} (hsite : ∀ key ∈ site, IsKey key) :
    (∀ b ∈ returnLocation scheme host site s, b ≠ 13 ∧ b ≠ 10) ∧ ∀ base : SiteHost,
      authorityOf base.name (returnLocation scheme host site s) = some (host.getD base).name := by
  obtain ⟨hhead, -, -, hbytes⟩ := returnRefused_eq_false hs
  have hline : ∀ b ∈ s, b ≠ 13 ∧ b ≠ 10 := by
    intro b hb
    refine ⟨?_, ?_⟩ <;> rintro rfl <;> exact (hbytes _ hb).1 (by decide)
  have hmarkup : ∀ {b : UInt8}, b ∉ markup → b ≠ 13 ∧ b ≠ 10 := by
    intro b hb
    refine ⟨?_, ?_⟩ <;> rintro rfl <;> exact hb (by decide)
  cases host with
  | none =>
    have hgrows := grows_requestSiteTagLocation hsite s
    refine ⟨fun b hb => (hgrows.mem hb).elim (hline b) fun h => hmarkup h.2, fun base => ?_⟩
    have := (((stays_none hs).of_grows hgrows).leadsTo base).lands
    rwa [CharReferences.unref_none] at this
  | some h =>
    have hplain := h.origin_plain hscheme
    rw [returnLocation_host hscheme]
    refine ⟨List.forall_mem_append.mpr ⟨fun b hb => hmarkup (hplain b hb).2.1, hline⟩, fun base => ?_⟩
    obtain ⟨u, rfl⟩ : ∃ u, s = 47 :: u := by
      cases s with
      | nil => cases hhead
      | cons c u => exact ⟨u, by rw [Option.some.inj hhead]⟩
    exact authorityOf_host base.name hscheme h.ne_nil h.plain _

/-- A settled address with something put behind it was settled before. -/
theorem settled_of_append {t : Bytes} (hhead : s.head? = some 47) (ht : Insert s t) (hne : t ≠ [])
    (h : HostSettled refs (s ++ t)) : HostSettled refs s := by
  obtain ⟨u, rfl⟩ : ∃ u, s = 47 :: u := by
    cases s with
    | nil => cases hhead
    | cons c u => exact ⟨u, by rw [Option.some.inj hhead]⟩
  have hends := ht.endsReference u.getLast? [] hne
  rw [List.append_nil] at hends
  exact HostSettled.of_append hends h

/-- **An address stays put** if it does so with something put behind it. -/
theorem staysPut_of_append {t : Bytes} (hs : returnRefused s = false) (ht : Insert s t) (hne : t ≠ [])
    (hplain : HostSettled refs (s ++ t)) (hlatin1 : HostSettled refs (utf8ToLatin1 (s ++ t)))
    (hinside : ∀ b ∈ utf8ToLatin1 (s ++ t), b ≠ 34 ∧ b ≠ 60 ∧ b ≠ 62) : StaysPut refs s := by
  have hhead := (returnRefused_eq_false hs).1
  have hfold : utf8ToLatin1 (s ++ t) = utf8ToLatin1 s ∨
      utf8ToLatin1 (s ++ t) = utf8ToLatin1 s ++ t ∧ Insert (utf8ToLatin1 s) t := by
    have htrail := @isTrail_insert _ _ [] ht (by simp)
    have hself := @utf8ToLatin1_insert _ _ [] ht (by simp)
    have hnil : utf8ToLatin1 [] = [] := by
      rw [utf8ToLatin1, foldLatin1]
      rfl
    rw [List.append_nil] at htrail hself
    rw [utf8ToLatin1_append htrail, hself, hnil, List.append_nil]
    split_ifs with hnul
    · exact Or.inl rfl
    · rw [utf8ToLatin1, cstr_eq_self hnul]
      exact Or.inr ⟨rfl, ht.plain, fun c hc => (ht.head c hc).imp id
        (And.imp_right (mem_foldLatin1 (by decide)))⟩
  refine ⟨settled_of_append hhead ht hne hplain, ?_, ?_⟩
  · rcases hfold with heq | ⟨heq, hinsert⟩ <;> rw [heq] at hlatin1
    · exact hlatin1
    · exact settled_of_append (head_utf8ToLatin1 hhead) hinsert hne hlatin1
  · rcases hfold with heq | ⟨heq, -⟩ <;> rw [heq] at hinside
    · exact hinside
    · exact fun b hb => hinside b (List.mem_append_left _ hb)

/-- The request of a browser that knows no character set but its own, or of another one. -/
def plainRequest (legacy : Bool) : EpochRequest := ⟨none, lit "en", lit "flat", [], false, legacy⟩

theorem checked_plainRequest (legacy : Bool) : CheckedRequest (plainRequest legacy) where
  site _ h := by cases h
  lang := (by decide : ∀ b ∈ lit "en", isAlnum b = true ∨ b = 45 ∨ b = 95)
  theme := (by decide : ∀ b ∈ lit "flat", isAlnum b = true ∨ b = 45 ∨ b = 95)

/-- **What the links that set a language tell of the address.** -/
theorem staysPut_of_links (hs : returnRefused s = false) (hlen : s.length ≤ 255)
    (h : ∀ (base : SiteHost) (legacy : Bool), LeadsTo refs base base
      (fixedHref (plainRequest legacy) epochPrestandard
        ((ReturnLink.choice (lit "lang") (lit "en")).href s))) : StaysPut refs s := by
  obtain ⟨hhead, -, -, hbytes⟩ := returnRefused_eq_false hs
  have hkey : IsKey (lit "en") := (checked_plainRequest false).lang
  set t := sepOf (lit "&amp;") s ++ lit "lang" ++ lit "=" ++ lit "en" with ht
  have hinsert : Insert s t := insert_param (Or.inr rfl) (Or.inl rfl) hkey s
  have hshort : t.length ≤ 12 := by
    rw [ht, sepOf]
    split_ifs <;> decide
  have hne : t ≠ [] := by
    rw [ht, sepOf]
    split_ifs <;> decide
  have hall : (s ++ t).length ≤ 599 := by
    rw [List.length_append]
    omega
  have hhref : (ReturnLink.choice (lit "lang") (lit "en")).href s = s ++ t := List.take_of_length_le hall
  -- the link has its language already
  have htagged : tagValue (lit "lang") (lit "en") (s ++ t) = s ++ t := by
    rw [tagValue_eq, if_neg]
    rintro ⟨-, hnot⟩
    refine hnot ?_
    rw [List.take_of_length_le (by omega)]
    have htag : tagOf (lit "lang") = lit "lang" ++ lit "=" := by decide
    refine ⟨s ++ sepOf (lit "&amp;") s, lit "en", ?_⟩
    rw [htag, ht]
    simp only [List.append_assoc]
  have hfixed : ∀ legacy, fixedHref (plainRequest legacy) epochPrestandard (s ++ t) =
      if legacy then utf8ToLatin1 (s ++ t) else s ++ t := by
    intro legacy
    have hlang : (plainRequest legacy).lang = lit "en" := rfl
    have hsite : (plainRequest legacy).site = none := rfl
    have hlegacy : (plainRequest legacy).needsLegacyCharset = legacy := rfl
    rw [fixedHref, hsite, hlang, hlegacy]
    simp only [htagged]
    cases legacy <;> rfl
  simp only [hhref, hfixed] at h
  have hgrows : Grows s (s ++ t) := grows_append hinsert
  have hslash := hgrows.head_slash hhead
  have hslash' := (grows_utf8ToLatin1 hgrows).head_slash (head_utf8ToLatin1 hhead)
  exact staysPut_of_append hs hinsert hne (settled_of_leadsTo hslash fun base => h base false)
    (settled_of_leadsTo hslash' fun base => h base true) (h ⟨lit "a", by decide, by decide⟩ true).inside

end Checked

/-- "/" stays put. -/
theorem staysPut_slash (refs : CharReferences) : StaysPut refs (lit "/") := by
  have hself : utf8ToLatin1 (lit "/") = lit "/" := by
    rw [utf8ToLatin1, foldLatin1_ascii (by decide)]
    rfl
  have hsettled : HostSettled refs (lit "/") := (settled_slash []).mpr rfl
  exact ⟨hsettled, by rw [hself]; exact hsettled, by rw [hself]; decide⟩

/-- What the check makes of an address stays put exactly where it is refused or stays put. -/
theorem staysPut_safeReturn_iff {refs : CharReferences} (hvalue : value.length ≤ 255) :
    StaysPut refs (safeReturn value) ↔
      returnRefused (returnRaw value) = true ∨ StaysPut refs (returnRaw value) := by
  rw [safeReturn_eq hvalue]
  split_ifs with hrefused
  · exact iff_of_true (staysPut_slash refs) (Or.inl hrefused)
  · exact (or_iff_right hrefused).symm

theorem returnRefused_safeReturn (hvalue : value.length ≤ 255) :
    returnRefused (safeReturn value) = false ∧ (safeReturn value).length ≤ 255 := by
  rw [safeReturn_eq hvalue]
  split_ifs with hrefused
  · exact ⟨by decide, by decide⟩
  · exact ⟨Bool.eq_false_iff.mpr hrefused,
      ((List.takeWhile_prefix _).length_le.trans (length_urlDecode_le value)).trans hvalue⟩

/-- **A return address stays on the site exactly where it is refused or stays put.** -/
theorem returnStays_iff (refs : CharReferences) {value : Bytes} (hvalue : value.length ≤ 255) :
    ReturnStays refs value ↔
      returnRefused (returnRaw value) = true ∨ StaysPut refs (returnRaw value) := by
  obtain ⟨hs, hlen⟩ := returnRefused_safeReturn hvalue
  rw [← staysPut_safeReturn_iff hvalue]
  constructor
  · intro h
    exact staysPut_of_links hs hlen fun base legacy =>
      h.link (.choice (lit "lang") (lit "en")) base _ _ ⟨Or.inl rfl, (checked_plainRequest false).lang⟩
        (show epochPrestandard ≤ epochEarly by decide) (checked_plainRequest legacy)
  · intro h
    obtain ⟨hplain, hlatin1⟩ := h.stays hs
    refine ⟨fun scheme host site hscheme hsite => (location_stays hs hscheme host hsite).1,
      fun scheme host site base hscheme hsite => (location_stays hs hscheme host hsite).2 base, ?_, ?_⟩
    · intro scheme host site base req epoch hscheme hsite hreq
      cases host with
      | none =>
        have hgrows := grows_requestSiteTagLocation hsite (safeReturn value)
        exact (stays_fixedHref hreq (hplain.of_grows hgrows)
          (hlatin1.of_grows (grows_utf8ToLatin1 hgrows)) epoch).leadsTo base
      | some host =>
        rw [returnLocation_host hscheme]
        exact leadsTo_origin host hscheme hplain hlatin1 base req epoch
    · intro l base req epoch hl _ hreq
      exact (link_stays hs (by omega) h hl hreq epoch).leadsTo base

/-- A path with its slash escaped comes back. -/
theorem returnStays_blog : returnRaw (lit "%2Fblog") = lit "/blog" ∧
    ReturnStays CharReferences.none (lit "%2Fblog") := by
  have hraw : returnRaw (lit "%2Fblog") = lit "/blog" := by decide
  have hself : utf8ToLatin1 (lit "/blog") = lit "/blog" := by
    rw [utf8ToLatin1, foldLatin1_ascii (by decide)]
    rfl
  have hsecond : (secondByte (CharReferences.none.unref (lit "/blog"))).any isSlash = false := by
    rw [CharReferences.unref_none]
    decide
  refine ⟨hraw, (returnStays_iff CharReferences.none (by decide)).mpr (Or.inr ?_)⟩
  rw [hraw]
  exact ⟨hsecond, by rw [hself]; exact hsecond, by rw [hself]; decide⟩

/-- The reference to a slash by its number. -/
def slashReference : CharReferences where
  read s := if lit "#47;" <+: s then some (lit "/", 4) else none
  pos h := by
    split_ifs at h
    cases h
    decide
  within h := by
    split_ifs at h with hpre
    cases h
    exact hpre.length_le
  bytes h := by
    split_ifs at h with hpre
    cases h
    obtain ⟨t, rfl⟩ := hpre
    intro b hb
    have hfour : (lit "#47;" ++ t).take 4 = lit "#47;" := rfl
    rw [hfour] at hb
    revert b
    decide
  ends := by
    intro a b hb
    refine if_congr ⟨fun h => ?_, fun h => h.trans (List.prefix_append a b)⟩ rfl rfl
    have hlit : lit "#47;" = [35, 52, 55, 59] := by decide
    rw [hlit] at h ⊢
    -- where the text ends within the reference, the next one goes on with a byte of it
    rcases a with _ | ⟨c, _ | ⟨d, _ | ⟨e, _ | ⟨g, a⟩⟩⟩⟩
    · obtain ⟨u, rfl⟩ := h
      exact absurd rfl ((hb 35 rfl).2.2.2 rfl)
    · obtain ⟨-, u, rfl⟩ := List.cons_prefix_cons.mp h
      exact absurd (hb 52 rfl).1 (by decide)
    · obtain ⟨-, h⟩ := List.cons_prefix_cons.mp h
      obtain ⟨-, u, rfl⟩ := List.cons_prefix_cons.mp h
      exact absurd (hb 55 rfl).1 (by decide)
    · obtain ⟨-, h⟩ := List.cons_prefix_cons.mp h
      obtain ⟨-, h⟩ := List.cons_prefix_cons.mp h
      obtain ⟨-, u, rfl⟩ := List.cons_prefix_cons.mp h
      exact absurd rfl (hb 59 rfl).2.1
    · simpa [List.cons_prefix_cons] using h

/-- **The reference to a slash leads away**: what is a path for the check is an address with a host in
the page. -/
theorem not_returnStays_reference : ¬ ReturnStays slashReference (lit "/%26%2347;evil.example") := by
  intro h
  have hsafe : safeReturn (lit "/%26%2347;evil.example") = lit "/&#47;evil.example" := by decide
  have hput : StaysPut slashReference (lit "/&#47;evil.example") := by
    refine staysPut_of_links (by decide) (by decide) fun base legacy => ?_
    rw [← hsafe]
    exact h.link (.choice (lit "lang") (lit "en")) base _ _
      ⟨Or.inl rfl, (checked_plainRequest false).lang⟩ (show epochPrestandard ≤ epochEarly by decide)
      (checked_plainRequest legacy)
  exact absurd hput.plain (by decide)

end BoatRudder.Modules
