import BoatRudder.Text.Utf8
import BoatRudder.Utils.PageLinks
import BoatRudder.WebServer.ServeExtension
import BoatRudder.WebServer.UrlParser

/-! # Links tagged once

What is asked of the tagging of links: every address of the site carries the parameter once, in its
query; what carried it already, and every other byte, stays as it is. Whether an address carries it is
told by the parameters of its query, and the code tells it by a search for the name in the whole
address, or in as much of it as its buffer holds (`tagsOnce_iff`). -/

namespace BoatRudder.Utils

open PagePiece WebServer

/-! ## The code -/

/-- `link_count`. -/
def linkCount (marker : Bytes) : Bytes → ℕ
  | [] => 0
  | c :: s =>
    if marker <+: c :: s then 1 + linkCount marker (s.drop (marker.length - 1)) else linkCount marker s
termination_by s => s.length
decreasing_by
  all_goals simp only [List.length_cons, List.length_drop]
  all_goals omega

/-- The size `inject_query_param_into_attr` allocates, the terminator included. -/
def attrSize (html marker param value : Bytes) : ℕ :=
  html.length + linkCount marker html * (5 + param.length + 1 + value.length) + 1

/-- `request_site_key_is_valid`. -/
def requestSiteKeyIsValid (key : Bytes) : Bool :=
  key ≠ [] && decide (key.length ≤ 32) && key.all fun c => isLower c || isDigit c || c == 95 || c == 45

/-- `request_site`, of a request without a host or with one. -/
def requestSite (hostless : Bool) (siteKey : Bytes) : Option Bytes :=
  if hostless && requestSiteKeyIsValid siteKey then some siteKey else none

/-- The size `request_site_tag_location` allocates, the terminator included. -/
def locationSize (key location : Bytes) : ℕ :=
  location.length + (if 63 ∈ location.takeWhile (· ≠ 35) then lit "&" else lit "?").length + 5 +
    key.length + 1

/-! ## The law -/

/-- The parameters of a name that an address carries. -/
def named (param v : Bytes) : List QueryParam :=
  ((queryPieces (queryOf v)).filterMap paramOf).filter fun p => p.key = param

/-- What is asked of an address `v` and of what becomes of it. -/
def Tagged (seps : List Bytes) (param value v v' : Bytes) : Prop :=
  if SiteRelative v ∧ named param v = [] then
    (∃ sep ∈ seps, v' = beforeFragment v ++ (sep ++ param ++ lit "=" ++ value) ++
      v.dropWhile (· ≠ 35)) ∧ named param v' = [⟨param, value⟩]
  else v' = v

/-- What is asked of a piece of a page: of a link that it is tagged, of the other pieces that they stay
as they are. -/
def PieceTagged (param value : Bytes) : PagePiece → PagePiece → Prop
  | .link m v, p => ∃ v', p = .link m v' ∧ Tagged [lit "?", lit "&amp;"] param value v v'
  | p, p' => p' = p

/-- What is asked of the tagging of a page. -/
structure LinksTaggedOnce (html param value : Bytes) : Prop where
  tagged : List.Forall₂ (PieceTagged param value) (pieces [] html)
    (pieces [] (injectQueryParamIntoLinks html param value))
  /-- Twice is as once. -/
  twice : injectQueryParamIntoLinks (injectQueryParamIntoLinks html param value) param value =
    injectQueryParamIntoLinks html param value
  /-- Each pass stays within its buffer. -/
  fits : ∀ m ∈ linkMarkers, ∀ s,
    (injectQueryParamIntoAttr s m param value).length < attrSize s m param value

/-- What is asked of the tagging of one address. -/
structure LocationTaggedOnce (site : Option Bytes) (location : Bytes) : Prop where
  tagged : ∀ key ∈ site, Tagged [lit "?", lit "&"] (lit "site") key location
    (requestSiteTagLocation site location)
  untagged : site = none → requestSiteTagLocation site location = location
  twice : requestSiteTagLocation site (requestSiteTagLocation site location) =
    requestSiteTagLocation site location
  fits : ∀ key ∈ site, (requestSiteTagLocation site location).length < locationSize key location

/-! ## Where the law holds -/

/-- A name and a value that neither end an address nor divide it. -/
structure PlainTag (param value : Bytes) : Prop where
  name : ∀ c ∈ param, c ∉ [34, 35, 38, 39, 59, 61, 63]
  bytes : ∀ c ∈ value, c ∉ [34, 35, 38, 39]

/-- The addresses of the site in a page. -/
def siteLinks (html : Bytes) : List Bytes := (pieces [] html).filterMap fun
  | .link _ v => some v
  | _ => none

theorem mem_siteLinks_iff {html v : Bytes} :
    v ∈ siteLinks html ↔ ∃ m, PagePiece.link m v ∈ pieces [] html := by
  rw [siteLinks, List.mem_filterMap]
  constructor
  · rintro ⟨p, hp, hv⟩
    cases p with
    | link m w => exact ⟨m, by rwa [← Option.some.inj hv]⟩
    | byte c => cases hv
    | other m => cases hv
  · rintro ⟨m, hlink⟩
    exact ⟨_, hlink, rfl⟩

/-- The search for the name finds it exactly where the address carries the parameter, and finds the
parameter that is put in. -/
def Agrees (param v : Bytes) : Prop :=
  named param v = [] ∧ ¬ tagOf param <:+: v.take 2047 ∧ (beforeFragment v).length +
    (if 63 ∈ beforeFragment v then lit "&amp;" else lit "?").length + (tagOf param).length ≤ 2047 ∨
  named param v ≠ [] ∧ tagOf param <:+: v.take 2047

instance (param v : Bytes) : Decidable (Agrees param v) := inferInstanceAs (Decidable (_ ∨ _))

/-! ## An address with a parameter put in -/

/-- The separator in front of a parameter that is put in, with `amp` for an ampersand. -/
def sepOf (amp base : Bytes) : Bytes := if 63 ∈ base then amp else lit "?"

/-- An address with a parameter put into its query. -/
def putParam (amp param value v : Bytes) : Bytes :=
  beforeFragment v ++ (sepOf amp (beforeFragment v) ++ param ++ lit "=" ++ value) ++
    v.dropWhile (· ≠ 35)

theorem fragment_notMem (v : Bytes) : 35 ∉ beforeFragment v := notMem_takeWhile_ne _ _

theorem beforeFragment_append (v : Bytes) : beforeFragment v ++ v.dropWhile (· ≠ 35) = v :=
  List.takeWhile_append_dropWhile

/-- A fragment begins with its mark. -/
theorem fragment_cases (v : Bytes) :
    v.dropWhile (· ≠ 35) = [] ∨ ∃ f, v.dropWhile (· ≠ 35) = 35 :: f := by
  cases hfragment : v.dropWhile (· ≠ 35) with
  | nil => exact Or.inl rfl
  | cons c f =>
    refine Or.inr ⟨f, ?_⟩
    have hstop := List.head?_dropWhile_not (fun c => decide (c ≠ 35)) v
    rw [hfragment] at hstop
    have hc : c = 35 := by simpa using hstop
    rw [hc]

theorem length_putParam (amp param value v : Bytes) : (putParam amp param value v).length =
    v.length + (sepOf amp (beforeFragment v)).length + param.length + 1 + value.length := by
  have hone : (lit "=").length = 1 := rfl
  have hlen := congrArg List.length (beforeFragment_append v)
  simp only [putParam, List.length_append, hone] at hlen ⊢
  omega

theorem beforeFragment_putParam {amp param value : Bytes} (hamp : 35 ∉ amp) (hparam : 35 ∉ param)
    (hvalue : 35 ∉ value) (v : Bytes) : beforeFragment (putParam amp param value v) =
      beforeFragment v ++ (sepOf amp (beforeFragment v) ++ param ++ lit "=" ++ value) := by
  have hsep : 35 ∉ sepOf amp (beforeFragment v) := by
    rw [sepOf]
    split_ifs
    · exact hamp
    · decide
  have heq : 35 ∉ lit "=" := by decide
  have hall : (35 : UInt8) ∉
      beforeFragment v ++ (sepOf amp (beforeFragment v) ++ param ++ lit "=" ++ value) := by
    simp [fragment_notMem, hsep, hparam, heq, hvalue]
  rw [putParam, beforeFragment]
  rcases fragment_cases v with hf | ⟨f, hf⟩ <;> rw [hf]
  · rw [List.append_nil]
    exact List.takeWhile_eq_self_iff.mpr fun c hc => decide_eq_true fun h => hall (h ▸ hc)
  · exact takeWhile_ne_append hall f

/-- A query with a parameter behind its separator. -/
theorem queryPieces_put {amp : Bytes} (hamp : amp = lit "&" ∨ amp = lit "&amp;") {tag : Bytes}
    (htag : 38 ∉ tag) (hplain : ¬ lit "amp;" <+: tag) (query : Bytes) :
    queryPieces (query ++ (amp ++ tag)) = queryPieces query ++ [tag] := by
  obtain ⟨a, hcons, ha, hstrip⟩ : ∃ a, amp = 38 :: a ∧ 38 ∉ a ∧ stripAmp (a ++ tag) = tag := by
    rcases hamp with rfl | rfl
    · exact ⟨[], by decide, by decide, stripAmp_of_not hplain⟩
    · exact ⟨lit "amp;", by decide, by decide, stripAmp_amp tag⟩
  obtain ⟨p, ps, hsplit, -⟩ := exists_head_splitOn query
  rw [queryPieces, queryPieces, hcons, List.cons_append, List.splitOn_append_cons_self, hsplit,
    List.splitOn_eq_singleton (by simp [ha, htag])]
  simp [hstrip]

section Put

variable {amp param value : Bytes}

/-- **A parameter that is put in is the only one of its name**, where there was none. -/
theorem named_putParam (hamp : amp = lit "&" ∨ amp = lit "&amp;")
    (hparam : ∀ c ∈ param, c ∉ [34, 35, 38, 39, 59, 61, 63]) (hvalue : ∀ c ∈ value, c ∉ [34, 35, 38, 39])
    {v : Bytes} (hnone : named param v = []) :
    named param (putParam amp param value v) = [⟨param, value⟩] := by
  have hname : ∀ {c : UInt8}, c ∈ [34, 35, 38, 39, 59, 61, 63] → c ∉ param :=
    fun hc hmem => hparam _ hmem hc
  have hbytes : ∀ {c : UInt8}, c ∈ [34, 35, 38, 39] → c ∉ value := fun hc hmem => hvalue _ hmem hc
  have hequals : lit "=" = [61] := by decide
  set tag := param ++ lit "=" ++ value with htag
  have hcons : tag = param ++ 61 :: value := by
    rw [htag, hequals, List.append_assoc]
    rfl
  have htag38 : 38 ∉ tag := by
    rw [hcons]
    simp [hname (show 38 ∈ _ by decide), hbytes (show 38 ∈ _ by decide)]
  have hplain : ¬ lit "amp;" <+: tag := by
    intro hpre
    rw [hcons] at hpre
    have hshort := prefix_of_prefix_append_cons (by decide) hpre
    exact hname (show 59 ∈ _ by decide) (hshort.subset (by decide))
  have hone : [tag].filterMap paramOf = [⟨param, value⟩] := by
    rw [List.filterMap_cons, hcons, paramOf_append_cons (hname (by decide))]
    rfl
  have hbefore := @beforeFragment_putParam amp param value
    (by rcases hamp with rfl | rfl <;> decide) (hname (by decide)) (hbytes (by decide)) v
  have hassoc : sepOf amp (beforeFragment v) ++ param ++ lit "=" ++ value =
      sepOf amp (beforeFragment v) ++ tag := by
    rw [htag]
    simp only [List.append_assoc]
  rw [hassoc] at hbefore
  have hpieces : (queryPieces (queryOf (putParam amp param value v))).filterMap paramOf =
      (queryPieces (queryOf v)).filterMap paramOf ++ [⟨param, value⟩] := by
    rw [queryOf, queryOf, urlQuery, urlQuery, hbefore, sepOf]
    split_ifs with hmark
    · obtain ⟨q, hq⟩ : ∃ q, (beforeFragment v).dropWhile (· ≠ 63) = 63 :: q := by
        obtain ⟨a, q, hsplit, ha⟩ := List.eq_append_cons_of_mem hmark
        exact ⟨q, by rw [hsplit, dropWhile_ne_append ha]⟩
      have hdrop : (beforeFragment v ++ (amp ++ tag)).dropWhile (· ≠ 63) = 63 :: (q ++ (amp ++ tag)) := by
        rw [List.dropWhile_append, hq]
        rfl
      rw [hdrop, hq, List.tail_cons, List.tail_cons, queryPieces_put hamp htag38 hplain,
        List.filterMap_append, hone]
    · have hnil : (beforeFragment v).dropWhile (· ≠ 63) = [] :=
        List.dropWhile_eq_nil_iff.mpr fun c hc => decide_eq_true fun h => hmark (h ▸ hc)
      have hdrop : (beforeFragment v ++ (lit "?" ++ tag)).dropWhile (· ≠ 63) = 63 :: tag :=
        dropWhile_ne_append hmark tag
      rw [hdrop, hnil, List.tail_cons, List.tail_nil, queryPieces, List.splitOn_eq_singleton htag38]
      exact hone
  rw [named] at hnone ⊢
  rw [hpieces, List.filter_append, hnone, List.nil_append, List.filter_cons_of_pos (by simp),
    List.filter_nil]

/-- An address of the site stays one. -/
theorem siteRelative_putParam {v : Bytes} (h : SiteRelative v) : SiteRelative (putParam amp param value v) := by
  obtain ⟨hhead, hnext⟩ := h
  obtain ⟨t, rfl⟩ : ∃ t, v = 47 :: t := by
    cases v with
    | nil => cases hhead
    | cons c t => exact ⟨t, by simpa using hhead⟩
  have hbefore : beforeFragment (47 :: t) = 47 :: beforeFragment t :=
    List.takeWhile_cons_of_pos (by decide)
  rw [putParam, hbefore]
  refine ⟨rfl, ?_⟩
  simp only [List.cons_append, List.drop_succ_cons, List.drop_zero]
  cases hrest : beforeFragment t with
  | nil =>
    have hsep : sepOf amp [47] = lit "?" := if_neg (by decide)
    rw [hsep, show lit "?" = [63] by decide]
    simp
  | cons c r =>
    have hc : t.head? = some c := by
      rw [beforeFragment] at hrest
      have hpre := @List.takeWhile_prefix _ t fun c => decide (c ≠ 35)
      rw [hrest] at hpre
      obtain ⟨u, hu⟩ := hpre
      rw [← hu]
      rfl
    simpa [hc] using hnext

end Put

/-! ## The search for the name -/

/-- What stands in the beginning of a string with the byte `c`, and does not hold it, stands in front of
it or behind it. -/
theorem infix_take_append_cons {pat a z : Bytes} {c : UInt8} {n : ℕ} (hc : c ∉ pat)
    (h : pat <:+: (a ++ c :: z).take n) : pat <:+: a.take n ∨ pat <:+: z.take (n - a.length - 1) := by
  rw [List.take_append] at h
  cases hk : n - a.length with
  | zero =>
    rw [hk, List.take_zero, List.append_nil] at h
    exact Or.inl h
  | succ k =>
    rw [hk, List.take_succ_cons, infix_append_cons_iff hc] at h
    rwa [Nat.add_sub_cancel]

section Search

variable {param value : Bytes}

theorem tagValue_eq (v : Bytes) : tagValue param value v =
    if SiteRelative v ∧ ¬ tagOf param <:+: v.take 2047 then putParam (lit "&amp;") param value v
    else v := by
  have hfind : (findSub (tagOf param) (v.take 2047)).isSome = true ↔ tagOf param <:+: v.take 2047 := by
    rw [← Option.ne_none_iff_isSome, Ne, findSub_eq_none_iff, not_not]
  simp only [tagValue, hfind]
  rfl

/-- An address of the site stays as it is where the name is found. -/
theorem tagValue_eq_self_iff {v : Bytes} (h : SiteRelative v) :
    tagValue param value v = v ↔ tagOf param <:+: v.take 2047 := by
  rw [tagValue_eq]
  split_ifs with htag
  · refine iff_of_false (fun heq => ?_) htag.2
    have hlen := congrArg List.length heq
    rw [length_putParam] at hlen
    omega
  · exact iff_of_true rfl (not_not.mp fun hnot => htag ⟨h, hnot⟩)

/-- **The parameter that was put in is found** as far as the buffer reaches. -/
theorem infix_putParam_iff (hparam : ∀ c ∈ param, c ∉ [34, 35, 38, 39, 59, 61, 63]) {v : Bytes}
    (habsent : ¬ tagOf param <:+: v.take 2047) :
    tagOf param <:+: (putParam (lit "&amp;") param value v).take 2047 ↔
      (beforeFragment v).length + (sepOf (lit "&amp;") (beforeFragment v)).length +
        (tagOf param).length ≤ 2047 := by
  have hequals : lit "=" = [61] := by decide
  have hname : ∀ {c : UInt8}, c ∈ [38, 59, 63] → c ∉ tagOf param := by
    intro c hc hmem
    have hmem := List.mem_of_mem_take hmem
    rw [List.mem_append, hequals, List.mem_singleton] at hmem
    rcases hmem with hmem | rfl
    · refine hparam c hmem ?_
      revert hc
      simp only [List.mem_cons, List.not_mem_nil, or_false]
      rintro (rfl | rfl | rfl) <;> decide
    · revert hc
      decide
  have hbefore : ¬ tagOf param <:+: (beforeFragment v).take 2047 := fun hin =>
    habsent (hin.trans ((List.takeWhile_prefix _).take 2047).isInfix)
  obtain ⟨rest, hput⟩ : ∃ rest, putParam (lit "&amp;") param value v =
      (beforeFragment v ++ sepOf (lit "&amp;") (beforeFragment v)) ++ (tagOf param ++ rest) := by
    obtain ⟨d, hd⟩ : ∃ d, param ++ lit "=" = tagOf param ++ d :=
      ⟨_, (List.take_append_drop 63 (param ++ lit "=")).symm⟩
    refine ⟨d ++ value ++ v.dropWhile (· ≠ 35), ?_⟩
    rw [putParam, List.append_assoc (sepOf _ _) param, hd]
    simp only [List.append_assoc]
  have hpos : 0 < (tagOf param).length := by
    rw [tagOf, List.length_take, List.length_append, hequals, List.length_singleton]
    omega
  rw [hput]
  constructor
  · intro hin
    by_contra hlong
    -- the bytes that are looked at hold no whole name behind the separator
    have hshort : ∀ {k : ℕ} {z : Bytes}, k < (tagOf param).length → ¬ tagOf param <:+: z.take k := by
      intro k z hk hz
      have hle := hz.length_le
      rw [List.length_take] at hle
      omega
    rw [sepOf] at hin hlong
    split_ifs at hin hlong with hmark
    · have hshape : beforeFragment v ++ lit "&amp;" ++ (tagOf param ++ rest) =
          beforeFragment v ++ 38 :: ([97, 109, 112] ++ 59 :: (tagOf param ++ rest)) := by
        rw [show lit "&amp;" = [38, 97, 109, 112, 59] by decide]
        simp
      have hfive : (lit "&amp;").length = 5 := by decide
      rw [hshape] at hin
      rw [hfive] at hlong
      rcases infix_take_append_cons (hname (by decide)) hin with hin | hin
      · exact hbefore hin
      rcases infix_take_append_cons (hname (by decide)) hin with hin | hin
      · -- a name of three bytes ends with its equals sign
        have hthree := hin.trans (List.take_prefix _ _).isInfix
        have hle := hthree.length_le
        have hwhole : tagOf param = param ++ lit "=" := by
          refine List.take_of_length_le ?_
          rw [tagOf, List.length_take] at hle
          simp only [List.length_cons, List.length_nil] at hle
          omega
        have hmem : (61 : UInt8) ∈ [97, 109, 112] :=
          hthree.subset (hwhole ▸ List.mem_append_right _ (by decide))
        exact absurd hmem (by decide)
      · refine hshort ?_ hin
        simp only [List.length_cons, List.length_nil]
        omega
    · have hshape : beforeFragment v ++ lit "?" ++ (tagOf param ++ rest) =
          beforeFragment v ++ 63 :: (tagOf param ++ rest) := by
        rw [show lit "?" = [63] by decide]
        simp
      have hone : (lit "?").length = 1 := by decide
      rw [hshape] at hin
      rw [hone] at hlong
      rcases infix_take_append_cons (hname (by decide)) hin with hin | hin
      · exact hbefore hin
      · exact hshort (by omega) hin
  · intro hle
    rw [← List.append_assoc, List.take_append, List.take_of_length_le
      (by simpa only [List.length_append] using hle)]
    exact ⟨_, _, rfl⟩

/-- **What the search tells.** -/
theorem agrees_iff (hplain : PlainTag param value) {v : Bytes} (hsite : SiteRelative v) :
    Tagged [lit "?", lit "&amp;"] param value v (tagValue param value v) ∧
      tagValue param value (tagValue param value v) = tagValue param value v ↔ Agrees param v := by
  rw [Tagged, Agrees]
  by_cases hnone : named param v = []
  · rw [if_pos ⟨hsite, hnone⟩, and_iff_right hnone, or_iff_left fun h => h.1 hnone]
    constructor
    · rintro ⟨⟨⟨sep, -, hput⟩, -⟩, htwice⟩
      have habsent : ¬ tagOf param <:+: v.take 2047 := by
        intro hfound
        rw [(tagValue_eq_self_iff hsite).mpr hfound] at hput
        have hlen := congrArg List.length hput
        have hparts := congrArg List.length (beforeFragment_append v)
        have hone : (lit "=").length = 1 := rfl
        simp only [List.length_append, hone] at hlen hparts
        omega
      refine ⟨habsent, ?_⟩
      rw [tagValue_eq v, if_pos ⟨hsite, habsent⟩, tagValue_eq_self_iff (siteRelative_putParam hsite)]
        at htwice
      exact (infix_putParam_iff hplain.name habsent).mp htwice
    · rintro ⟨habsent, hle⟩
      rw [tagValue_eq v, if_pos ⟨hsite, habsent⟩, tagValue_eq_self_iff (siteRelative_putParam hsite)]
      refine ⟨⟨⟨sepOf (lit "&amp;") (beforeFragment v), ?_, rfl⟩,
        named_putParam (Or.inr rfl) hplain.name hplain.bytes hnone⟩,
        (infix_putParam_iff hplain.name habsent).mpr hle⟩
      rw [sepOf]
      split_ifs <;> simp
  · rw [if_neg fun h => hnone h.2, or_iff_right fun h => hnone h.1, and_iff_right hnone,
      tagValue_eq_self_iff hsite]
    refine ⟨fun h => h.1, fun hfound => ⟨hfound, ?_⟩⟩
    have hsame := (@tagValue_eq_self_iff param value v hsite).mpr hfound
    rw [hsame, hsame]

end Search

/-! ## A page -/

section Page

variable {m param value html : Bytes}

/-- An address is closed by a quote or an apostrophe. -/
theorem quoteOf_cases : ∀ m ∈ linkMarkers, quoteOf m = 34 ∨ quoteOf m = 39 := by decide

/-- A parameter holds no quote. -/
theorem PlainTag.quote_notMem (hplain : PlainTag param value) (hm : m ∈ linkMarkers) :
    quoteOf m ∉ param ++ lit "=" ++ value := by
  have hequals : lit "=" = [61] := by decide
  rw [hequals, List.mem_append, List.mem_append, List.mem_singleton]
  rcases quoteOf_cases m hm with hq | hq <;> rw [hq]
  · rintro ((h | h) | h)
    · exact hplain.name _ h (by decide)
    · cases h
    · exact hplain.bytes _ h (by decide)
  · rintro ((h | h) | h)
    · exact hplain.name _ h (by decide)
    · cases h
    · exact hplain.bytes _ h (by decide)

/-- **A parameter that is put in leaves the pieces of the page as they are.** -/
theorem harmless_tagValue (hplain : PlainTag param value) (m v : Bytes) :
    Harmless (fun _ => tagValue param value) m v where
  site h := by
    rw [tagValue_eq]
    split_ifs
    · exact siteRelative_putParam h
    · exact h
  count m' hm' := by
    rw [tagValue_eq]
    split_ifs
    · have hquote : (param ++ lit "=" ++ value).count (quoteOf m') = 0 :=
        List.count_eq_zero.mpr (hplain.quote_notMem hm')
      have hsep : (sepOf (lit "&amp;") (beforeFragment v)).count (quoteOf m') = 0 := by
        rw [List.count_eq_zero, sepOf]
        rcases quoteOf_cases m' hm' with hq | hq <;> rw [hq] <;> split_ifs <;> decide
      have hall := congrArg (List.count (quoteOf m')) (beforeFragment_append v)
      simp only [putParam, List.count_append] at hquote hall ⊢
      omega
    · rfl

/-! ## The buffers -/

/-- Behind a marker there is none up to its end. -/
theorem linkCount_append (hm : m ∈ linkMarkers) {x : Bytes} (hx : x <:+ m) (hne : x ≠ m) (t : Bytes) :
    linkCount m (x ++ t) = linkCount m t := by
  induction x with
  | nil => rfl
  | cons c x ih =>
    have hno : ¬ m <+: c :: (x ++ t) := by
      rintro ⟨s, hs⟩
      exact hne (eq_of_prefix_append hm hm hx (List.cons_ne_nil c x) hs).1
    have hlen := ((List.suffix_cons c x).trans hx).length_le
    rw [List.cons_append, linkCount, if_neg hno]
    refine ih ((List.suffix_cons c x).trans hx) ?_
    rintro rfl
    have hlong := hx.length_le
    rw [List.length_cons] at hlong
    omega

theorem linkCount_marker (hm : m ∈ linkMarkers) (t : Bytes) :
    linkCount m (m ++ t) = 1 + linkCount m t := by
  obtain ⟨c, s, hcons⟩ := List.exists_cons_of_ne_nil (not_nil_mem_linkMarkers hm)
  have hpre : m <+: c :: (s ++ t) := by
    rw [← List.cons_append, ← hcons]
    exact List.prefix_append m t
  have hdrop : (s ++ t).drop (m.length - 1) = t := by
    rw [hcons, List.length_cons, Nat.add_sub_cancel, List.drop_left]
  conv_lhs => rw [hcons, List.cons_append, ← hcons]
  rw [linkCount, if_pos hpre, hdrop]

theorem linkCount_cons (hm : m ∈ linkMarkers) (c : UInt8) (s : Bytes) :
    linkCount m (c :: s) = (if m <+: c :: s then 1 else 0) + linkCount m s := by
  split_ifs with hpre
  · obtain ⟨t, ht⟩ := hpre
    obtain ⟨d, r, hcons⟩ := List.exists_cons_of_ne_nil (not_nil_mem_linkMarkers hm)
    have htail : s = r ++ t := by
      rw [hcons, List.cons_append] at ht
      exact (List.cons.inj ht).2.symm
    have hne : r ≠ m := fun h => absurd (congrArg List.length (h.trans hcons)) (by simp)
    rw [← ht, linkCount_marker hm, htail, linkCount_append hm (hcons ▸ List.suffix_cons d r) hne]
  · rw [linkCount, if_neg hpre, Nat.zero_add]

theorem linkCount_le_append (hm : m ∈ linkMarkers) (a t : Bytes) :
    linkCount m t ≤ linkCount m (a ++ t) := by
  induction a with
  | nil => exact le_rfl
  | cons c a ih =>
    rw [List.cons_append, linkCount_cons hm]
    omega

theorem length_tagValue_le (v : Bytes) :
    (tagValue param value v).length ≤ v.length + (5 + param.length + 1 + value.length) := by
  rw [tagValue_eq]
  split_ifs
  · have hsep : (sepOf (lit "&amp;") (beforeFragment v)).length ≤ 5 := by
      rw [sepOf]
      split_ifs <;> decide
    rw [length_putParam]
    omega
  · exact Nat.le_add_right _ _

/-- **Each link has room for its parameter.** -/
theorem length_injectQueryParamIntoAttr_le (hm : m ∈ linkMarkers) (s : Bytes) :
    (injectQueryParamIntoAttr s m param value).length < attrSize s m param value := by
  rw [attrSize, Nat.lt_succ_iff, injectQueryParamIntoAttr_eq]
  fun_induction attrPieces m s with
  | case1 => exact Nat.zero_le _
  | case2 c s hpre rest hquote v ih =>
    obtain ⟨t, ht⟩ := hpre
    have hrest : rest = t := by
      show (c :: s).drop m.length = t
      rw [← ht, List.drop_left]
    have hsplit := takeWhile_afterByte hquote
    have hcount : linkCount m (afterByte (quoteOf m) rest) ≤ linkCount m t := by
      conv_rhs => rw [← hrest, ← hsplit, List.append_cons]
      exact linkCount_le_append hm _ _
    have hpiece : (pageText ((if SiteRelative v then [link m v]
        else (m ++ v ++ [quoteOf m]).map byte).map (mapLink fun _ => tagValue param value))).length ≤
          m.length + v.length + 1 + (5 + param.length + 1 + value.length) := by
      have hvalue := @length_tagValue_le param value v
      split_ifs
      · simp only [List.map_cons, List.map_nil, mapLink, text, pageText_cons, pageText_nil,
          List.length_append, List.length_cons, List.length_nil]
        omega
      · rw [map_mapLink_byte, pageText_map_byte]
        simp only [List.length_append, List.length_cons, List.length_nil]
        omega
    have hparts : v.length + 1 + (afterByte (quoteOf m) rest).length = t.length := by
      have hlen := congrArg List.length hsplit
      rw [hrest, List.length_append, List.length_cons] at hlen
      show (rest.takeWhile _).length + 1 + _ = _
      rw [hrest]
      omega
    have hmul := Nat.mul_le_mul_right (5 + param.length + 1 + value.length) hcount
    rw [List.map_append, pageText_append, List.length_append, ← ht, linkCount_marker hm,
      List.length_append, Nat.add_mul, Nat.one_mul]
    omega
  | case3 c s hpre rest hquote =>
    rw [map_mapLink_byte, pageText_map_byte]
    exact Nat.le_add_right _ _
  | case4 c s hpre ih =>
    rw [List.map_cons, pageText_cons, linkCount_cons hm, if_neg hpre, Nat.zero_add]
    simp only [mapLink, text, List.length_append, List.length_cons, List.length_nil]
    omega

/-! ## The law -/

theorem length_le_tagValue (v : Bytes) : v.length ≤ (tagValue param value v).length := by
  rw [tagValue_eq]
  split_ifs
  · rw [length_putParam]
    omega
  · exact le_rfl

/-- An address that gets no longer stays as it is. -/
theorem tagValue_eq_self_of_length_le {v : Bytes} (h : (tagValue param value v).length ≤ v.length) :
    tagValue param value v = v := by
  rw [tagValue_eq] at h ⊢
  split_ifs at h ⊢
  · rw [length_putParam] at h
    omega
  · rfl

/-- A page whose addresses get no shorter gets no shorter itself, and one that gets no longer has no
address that does. -/
theorem length_pageText_mapLink {g : Bytes → Bytes → Bytes} (hg : ∀ m v, v.length ≤ (g m v).length)
    (ps : List PagePiece) : (pageText ps).length ≤ (pageText (ps.map (mapLink g))).length ∧
      ((pageText (ps.map (mapLink g))).length ≤ (pageText ps).length →
        ∀ m v, PagePiece.link m v ∈ ps → (g m v).length ≤ v.length) := by
  induction ps with
  | nil => exact ⟨le_rfl, nofun⟩
  | cons p ps ih =>
    rw [List.map_cons, pageText_cons, pageText_cons, List.length_append, List.length_append]
    have hpiece : p.text.length ≤ (p.mapLink g).text.length := by
      cases p with
      | byte c => exact le_rfl
      | other m => exact le_rfl
      | link m v =>
        simp only [mapLink, text, List.length_append]
        have := hg m v
        omega
    refine ⟨Nat.add_le_add hpiece ih.1, fun hle m v hlink => ?_⟩
    rcases List.mem_cons.mp hlink with rfl | hlink
    · have hrest := ih.1
      simp only [mapLink, text, List.length_append] at hle
      omega
    · exact ih.2 (by omega) m v hlink

variable (param value) in
/-- Passes make no page shorter. -/
theorem length_le_passes (ms : List Bytes) (s : Bytes) :
    s.length ≤ (ms.foldl (fun html m => injectQueryParamIntoAttr html m param value) s).length := by
  induction ms generalizing s with
  | nil => exact le_rfl
  | cons m ms ih =>
    refine le_trans ?_ (ih _)
    have hlen := (length_pageText_mapLink (g := fun _ => tagValue param value)
      (fun _ => length_le_tagValue) (attrPieces m s)).1
    rwa [pageText_attrPieces, ← injectQueryParamIntoAttr_eq] at hlen

/-- A pass leaves a page as it is when every address of its kind is left. -/
theorem pass_eq_self {s : Bytes} (h : ReadsOwn m s)
    (hsame : ∀ v, PagePiece.link m v ∈ pieces [] s → tagValue param value v = v) :
    injectQueryParamIntoAttr s m param value = s := by
  rw [injectQueryParamIntoAttr_of_readsOwn h]
  conv_rhs => rw [← (pageText_pieces [] s).1, ← List.map_id (pieces [] s)]
  congr 1
  refine List.map_congr_left fun p hp => ?_
  cases p with
  | byte c => rfl
  | other m' => rfl
  | link m' v =>
    rw [mapLink, ofKinds]
    split_ifs with hkind
    · obtain rfl := List.mem_singleton.mp hkind
      rw [hsame v hp]
      rfl
    · rfl

/-- A pass that makes a page no longer leaves every address of its kind. -/
theorem tagValue_eq_self_of_pass {s : Bytes} (h : ReadsOwn m s)
    (hle : (injectQueryParamIntoAttr s m param value).length ≤ s.length) {v : Bytes}
    (hlink : PagePiece.link m v ∈ pieces [] s) : tagValue param value v = v := by
  rw [injectQueryParamIntoAttr_of_readsOwn h] at hle
  have hshort := (length_pageText_mapLink (g := ofKinds [m] (tagValue param value)) (fun m' v => by
    rw [ofKinds]
    split_ifs
    · exact length_le_tagValue v
    · exact le_rfl) (pieces [] s)).2
  rw [(pageText_pieces [] s).1] at hshort
  have := hshort hle m v hlink
  rw [ofKinds, if_pos (List.mem_singleton_self m)] at this
  exact tagValue_eq_self_of_length_le this

/-- **Passes leave a page as it is** exactly when every address of their kinds is left. -/
theorem passes_eq_self_iff {s : Bytes} {ms : List Bytes} (h : ∀ m ∈ ms, ReadsOwn m s) :
    ms.foldl (fun html m => injectQueryParamIntoAttr html m param value) s = s ↔
      ∀ m ∈ ms, ∀ v, PagePiece.link m v ∈ pieces [] s → tagValue param value v = v := by
  induction ms with
  | nil => exact iff_of_true rfl nofun
  | cons m ms ih =>
    obtain ⟨hm, hms⟩ := List.forall_mem_cons.mp h
    rw [List.foldl_cons, List.forall_mem_cons]
    constructor
    · intro hall
      have hle := length_le_passes param value ms (injectQueryParamIntoAttr s m param value)
      rw [hall] at hle
      have hsame : ∀ v, PagePiece.link m v ∈ pieces [] s → tagValue param value v = v :=
        fun v hlink => tagValue_eq_self_of_pass hm hle hlink
      rw [pass_eq_self hm hsame] at hall
      exact ⟨hsame, (ih hms).mp hall⟩
    · rintro ⟨hsame, hrest⟩
      rw [pass_eq_self hm hsame]
      exact (ih hms).mpr hrest

/-- The links of a page are tagged as asked exactly where the search tells the truth about each. -/
theorem linksTaggedOnce_iff_agrees (hplain : PlainTag param value)
    (hapart : PassesApart html param value) :
    LinksTaggedOnce html param value ↔ ∀ v ∈ siteLinks html, Agrees param v := by
  have htag := harmless_tagValue hplain
  have hmarker : ∀ {m v}, PagePiece.link m v ∈ pieces [] html → m ∈ linkMarkers ∧ SiteRelative v :=
    fun hlink => (pageText_pieces [] html).2.marker_mem hlink
  have honce : injectQueryParamIntoLinks html param value = taggedPage linkMarkers param value html :=
    injectQueryParamIntoLinks_eq htag hapart
  have hpieces : pieces [] (injectQueryParamIntoLinks html param value) =
      (pieces [] html).map (mapLink fun _ => tagValue param value) := by
    rw [honce, pieces_taggedPage htag]
    refine List.map_congr_left fun p hp => ?_
    cases p with
    | byte c => rfl
    | other m => rfl
    | link m v => rw [mapLink, mapLink, ofKinds, if_pos (hmarker hp).1]
  -- the page stays as it is the second time when each of its addresses does
  have htwice : injectQueryParamIntoLinks (injectQueryParamIntoLinks html param value) param value =
      injectQueryParamIntoLinks html param value ↔
        ∀ m v, PagePiece.link m v ∈ pieces [] html →
          tagValue param value (tagValue param value v) = tagValue param value v := by
    have hstable := @passes_eq_self_iff param value (injectQueryParamIntoLinks html param value)
      linkMarkers (honce ▸ hapart.again)
    refine hstable.trans ⟨fun h m v hlink => ?_, fun h m _ v' hlink => ?_⟩
    · refine h m (hmarker hlink).1 _ ?_
      rw [hpieces]
      exact List.mem_map_of_mem (f := mapLink fun _ => tagValue param value) hlink
    · rw [hpieces] at hlink
      obtain ⟨p, hp, heq⟩ := List.mem_map.mp hlink
      cases p with
      | byte c => cases heq
      | other m => cases heq
      | link m' v =>
        obtain ⟨rfl, rfl⟩ := PagePiece.link.inj heq
        exact h _ v hp
  constructor
  · rintro ⟨htagged, hsame, -⟩ v hv
    obtain ⟨m, hlink⟩ := mem_siteLinks_iff.mp hv
    rw [hpieces, List.forall₂_map_right_iff, List.forall₂_same] at htagged
    obtain ⟨v', hv', hlaw⟩ := htagged _ hlink
    obtain rfl := (PagePiece.link.inj hv').2
    exact (agrees_iff hplain (hmarker hlink).2).mp ⟨hlaw, htwice.mp hsame m v hlink⟩
  · intro hagrees
    have hlaw : ∀ {m v}, PagePiece.link m v ∈ pieces [] html → _ := fun {m v} hlink =>
      (agrees_iff hplain (hmarker hlink).2).mpr (hagrees v (mem_siteLinks_iff.mpr ⟨m, hlink⟩))
    refine ⟨?_, htwice.mpr fun m v hlink => (hlaw hlink).2,
      fun m hm s => length_injectQueryParamIntoAttr_le hm s⟩
    rw [hpieces, List.forall₂_map_right_iff, List.forall₂_same]
    intro p hp
    cases p with
    | byte c => rfl
    | other m => rfl
    | link m v => exact ⟨_, rfl, (hlaw hp).1⟩

end Page

/-! ## A location -/

section Location

variable {key location : Bytes}

theorem plain_of_requestSite {hostless : Bool} {siteKey : Bytes}
    (h : key ∈ requestSite hostless siteKey) : ∀ c ∈ key, c ∉ [34, 35, 38, 39] := by
  rw [requestSite] at h
  split_ifs at h with hvalid
  · obtain rfl := Option.mem_some_iff.mp h
    intro c hc hmem
    simp only [requestSiteKeyIsValid, Bool.and_eq_true, List.all_eq_true] at hvalid
    have hone := hvalid.2.2 c hc
    simp only [List.mem_cons, List.not_mem_nil, or_false] at hmem
    rcases hmem with rfl | rfl | rfl | rfl <;> exact absurd hone (by decide)
  · cases h

theorem requestSiteTagLocation_eq (key location : Bytes) :
    requestSiteTagLocation (some key) location =
      if SiteRelative location ∧ findSub (lit "site=") location = none then
        putParam (lit "&") (lit "site") key location
      else location := by
  have hname : lit "site" ++ lit "=" = lit "site=" := by decide
  have hdrop := drop_length_takeWhile (fun c => decide (c ≠ 35)) location
  rw [requestSiteTagLocation, putParam, List.append_assoc _ (lit "site"), hname]
  simp only [hdrop, SiteRelative, and_assoc, beforeFragment, sepOf, List.append_assoc]
  congr

theorem requestSiteTagLocation_eq_self_iff (hsite : SiteRelative location) :
    requestSiteTagLocation (some key) location = location ↔ findSub (lit "site=") location ≠ none := by
  rw [requestSiteTagLocation_eq]
  split_ifs with htag
  · refine iff_of_false (fun heq => ?_) (not_not.mpr htag.2)
    have hlen := congrArg List.length heq
    rw [length_putParam] at hlen
    omega
  · exact iff_of_true rfl fun hnone => htag ⟨hsite, hnone⟩

/-- A location with the site in its query is left as it is. -/
theorem findSub_putParam (key location : Bytes) :
    findSub (lit "site=") (putParam (lit "&") (lit "site") key location) ≠ none := by
  rw [Ne, findSub_eq_none_iff, not_not]
  have hname : lit "site" ++ lit "=" = lit "site=" := by decide
  refine ⟨beforeFragment location ++ sepOf (lit "&") (beforeFragment location),
    key ++ location.dropWhile (· ≠ 35), ?_⟩
  rw [putParam, List.append_assoc _ (lit "site"), hname]
  simp only [List.append_assoc]

theorem length_requestSiteTagLocation (key location : Bytes) :
    (requestSiteTagLocation (some key) location).length < locationSize key location := by
  rw [requestSiteTagLocation_eq, locationSize, Nat.lt_succ_iff]
  split_ifs with htag hmark
  · rw [length_putParam, sepOf, beforeFragment, if_pos hmark, show (lit "site").length = 4 by decide]
  · rw [length_putParam, sepOf, beforeFragment, if_neg hmark, show (lit "site").length = 4 by decide]
  · omega
  · omega

/-- A location is tagged as asked exactly where the search tells the truth about it. -/
theorem locationTaggedOnce_iff_found (hostless : Bool) (siteKey location : Bytes) :
    LocationTaggedOnce (requestSite hostless siteKey) location ↔
      ∀ key ∈ requestSite hostless siteKey, SiteRelative location →
        (named (lit "site") location = [] ↔ findSub (lit "site=") location = none) := by
  cases hsome : requestSite hostless siteKey with
  | none => exact iff_of_true ⟨nofun, fun _ => rfl, rfl, nofun⟩ nofun
  | some key =>
    have hplain : ∀ c ∈ key, c ∉ [34, 35, 38, 39] := plain_of_requestSite hsome
    have hname : ∀ c ∈ lit "site", c ∉ [34, 35, 38, 39, 59, 61, 63] := by decide
    constructor
    · rintro ⟨htagged, -, -, -⟩ key' hkey hsite
      obtain rfl := Option.mem_some_iff.mp hkey
      have hlaw := htagged _ rfl
      rw [Tagged] at hlaw
      by_cases hnone : named (lit "site") location = []
      · refine iff_of_true hnone ?_
        rw [if_pos ⟨hsite, hnone⟩] at hlaw
        by_contra hfound
        rw [(requestSiteTagLocation_eq_self_iff hsite).mpr hfound, hnone] at hlaw
        exact absurd hlaw.2 (List.cons_ne_nil _ _).symm
      · refine iff_of_false hnone ?_
        rw [if_neg fun h => hnone h.2] at hlaw
        exact (requestSiteTagLocation_eq_self_iff hsite).mp hlaw
    · intro hfound
      refine ⟨?_, nofun, ?_, ?_⟩
      · intro key' hkey
        obtain rfl := Option.mem_some_iff.mp hkey
        rw [Tagged, requestSiteTagLocation_eq]
        by_cases hsite : SiteRelative location
        · have hiff := hfound _ rfl hsite
          by_cases hnone : named (lit "site") location = []
          · rw [if_pos ⟨hsite, hnone⟩, if_pos ⟨hsite, hiff.mp hnone⟩]
            refine ⟨⟨sepOf (lit "&") (beforeFragment location), ?_, rfl⟩,
              named_putParam (Or.inl rfl) hname hplain hnone⟩
            rw [sepOf]
            split_ifs <;> simp
          · rw [if_neg fun h => hnone h.2, if_neg fun h => hnone (hiff.mpr h.2)]
        · rw [if_neg fun h => hsite h.1, if_neg fun h => hsite h.1]
      · rw [requestSiteTagLocation_eq key location]
        split_ifs with htag
        · exact (requestSiteTagLocation_eq_self_iff (siteRelative_putParam htag.1)).mpr
            (findSub_putParam key location)
        · rw [requestSiteTagLocation_eq, if_neg htag]
      · intro key' hkey
        obtain rfl := Option.mem_some_iff.mp hkey
        exact length_requestSiteTagLocation _ location

end Location

end BoatRudder.Utils
