import BoatRudder.Db.CmsSiteSettings
import BoatRudder.HtmlBuilder.LayoutSplices
import BoatRudder.Utils.HttpUtils

/-! # The site's name in a page

`page_layout_wrap` from the site's name on. The name goes into the content, where themes write
`{{SITE_NAME}}`, and into the title, which the routes begin with it: both by `str_replace_all`. The title
then stands in the layout before the markers of the later splices are searched for. So a page is built
with the name in it where that comes to the text with each marker replaced once, where the buffers hold
the name escaped, and where the title holds no marker of a later splice
(`buildsNamedPage_of_harmless`). -/

namespace BoatRudder.HtmlBuilder

open Utils WebServer Db

/-! ## The functions -/

/-- The marker of the site's name. -/
def siteNameMarker : Bytes := lit "\x7b\x7bSITE_NAME\x7d\x7d"

/-- The marker of the title, in a layout. -/
def pageTitleMarker : Bytes := lit "\x7b\x7bPAGE_TITLE\x7d\x7d"

/-- `splice_site_name`, if its loop ends within `fuel` turns: the name is escaped into 512 bytes. -/
def spliceSiteName (fuel : ℕ) (stored : Option Bytes) (html : Bytes) : Option Bytes :=
  match findSub siteNameMarker html with
  | none => some html
  | some _ => strReplaceAll fuel html siteNameMarker (htmlEncode (cmsGetSiteName stored) 512)

/-- The title with the name in it, not escaped yet. -/
def resolvedTitle (fuel : ℕ) (stored : Option Bytes) (pageTitle : Bytes) : Option Bytes :=
  match findSub siteNameMarker pageTitle with
  | none => some pageTitle
  | some _ => strReplaceAll fuel pageTitle siteNameMarker (cmsGetSiteName stored)

/-- `page_layout_wrap` for the content with its footer and its lightbox, if its loops end within `fuel`
turns each. -/
def pageLayoutWrap (fuel : ℕ) (stored : Option Bytes) (parts : LayoutParts)
    (fragment pageTitle layout : Bytes) : Option Bytes := do
  let content ← spliceSiteName fuel stored fragment
  let title ← resolvedTitle fuel stored pageTitle
  parts.finishLayout fuel content (strReplaceFirst layout pageTitleMarker (htmlEncode title 512))

/-! ## What is asked of a page -/

/-- A layout as the themes have it: the title is the text of an element or the value of an attribute, and
nothing that is searched for stands in front of it. -/
structure Layout where
  before : Bytes
  after : Bytes
  before_ends : ∃ c, before.getLast? = some c ∧ (c = 62 ∨ c = 34)
  after_begins : OpensMarkup after
  title_first : ∀ needle ∈ pageTitleMarker :: headEnd :: linkStart :: laterMarkers, ¬ needle <:+: before

/-- The file of a layout. -/
def Layout.text (layout : Layout) : Bytes := layout.before ++ (pageTitleMarker ++ layout.after)

variable (stored : Option Bytes) (fragment pageTitle : Bytes)

/-- The content with the name in it. -/
def namedContent : Bytes :=
  replacedOnce fragment siteNameMarker (htmlEncode (cmsGetSiteName stored) 512)

/-- The title with the name in it. -/
def namedTitle : Bytes := replacedOnce pageTitle siteNameMarker (cmsGetSiteName stored)

/-- The beginning of the title up to the last name in it. -/
def titleUpToName : Bytes :=
  joined (cmsGetSiteName stored) (cutAt siteNameMarker pageTitle).1 []

/-- Building a page ends; every marker of its content and of its title has been replaced once, no name is
cut, and the title stands in the layout as it is, between what stood in front of it and what the splices
make of the rest. -/
structure BuildsNamedPage (parts : LayoutParts) (layout : Layout) : Prop where
  content : ∃ fuel, spliceSiteName fuel stored fragment = some (namedContent stored fragment)
  title : ∃ fuel, resolvedTitle fuel stored pageTitle = some (namedTitle stored pageTitle)
  page : ∃ fuel out, parts.finishLayout fuel (namedContent stored fragment) layout.after = some out ∧
    pageLayoutWrap fuel stored parts fragment pageTitle layout.text =
      some (layout.before ++ (htmlEncode (namedTitle stored pageTitle) 512 ++ out))
  nameInContent : siteNameMarker <:+: fragment →
    htmlEncode (cmsGetSiteName stored) 512 = encodeAll htmlEscape (cmsGetSiteName stored)
  nameInTitle : encodeAll htmlEscape (titleUpToName stored pageTitle) <+:
    htmlEncode (namedTitle stored pageTitle) 512

/-- A text whose encoding is written whole into 512 bytes. -/
def FitsEncoded (s : Bytes) : Prop :=
  (encodeAll htmlEscape s).length ≤ 511 ∧
    ¬ ((encodeAll htmlEscape s).length = 511 ∧ EndsEscaped htmlEscape s)

/-- Neither the content nor the title holds the marker once the name stands in them, the title holds no
marker of a later splice, and the name fits the buffers. -/
structure NameHarmless : Prop where
  content : ¬ siteNameMarker <:+: namedContent stored fragment
  title : ¬ siteNameMarker <:+: namedTitle stored pageTitle
  splices : ∀ m ∈ laterMarkers, ¬ m <:+: htmlEncode (namedTitle stored pageTitle) 512
  nameInContent : siteNameMarker <:+: fragment → FitsEncoded (cmsGetSiteName stored)
  nameInTitle : FitsEncoded (titleUpToName stored pageTitle)

/-! ## When it is so -/

variable {stored fragment pageTitle}

theorem siteNameMarker_ne_nil : siteNameMarker ≠ [] := by decide

theorem unbordered_siteNameMarker : Unbordered siteNameMarker :=
  @unbordered_marker (lit "SITE_NAME") (by decide)

/-- The test in front of the loop is the loop's own. -/
theorem spliceSiteName_eq (fuel : ℕ) (html : Bytes) : spliceSiteName fuel stored html =
    strReplaceAll fuel html siteNameMarker (htmlEncode (cmsGetSiteName stored) 512) := by
  unfold spliceSiteName
  cases h : findSub siteNameMarker html with
  | none => rw [strReplaceAll_of_none h]
  | some pos => rfl

theorem resolvedTitle_eq (fuel : ℕ) : resolvedTitle fuel stored pageTitle =
    strReplaceAll fuel pageTitle siteNameMarker (cmsGetSiteName stored) := by
  unfold resolvedTitle
  cases h : findSub siteNameMarker pageTitle with
  | none => rw [strReplaceAll_of_none h]
  | some pos => rfl

/-- The title is resolved exactly where it holds no marker afterwards. -/
theorem exists_resolvedTitle_iff :
    (∃ fuel, resolvedTitle fuel stored pageTitle = some (namedTitle stored pageTitle)) ↔
      ¬ siteNameMarker <:+: namedTitle stored pageTitle := by
  simp only [resolvedTitle_eq]
  exact replacesOnce_iff_not_infix siteNameMarker_ne_nil unbordered_siteNameMarker

/-- So is the content. -/
theorem exists_spliceSiteName_iff :
    (∃ fuel, spliceSiteName fuel stored fragment = some (namedContent stored fragment)) ↔
      ¬ siteNameMarker <:+: namedContent stored fragment := by
  simp only [spliceSiteName_eq]
  exact replacesOnce_iff_not_infix siteNameMarker_ne_nil unbordered_siteNameMarker

/-- A page goes through both. -/
theorem pageLayoutWrap_eq {m n fuel : ℕ} {content title : Bytes}
    (hcontent : spliceSiteName m stored fragment = some content)
    (htitle : resolvedTitle n stored pageTitle = some title) (hm : m ≤ fuel) (hn : n ≤ fuel)
    (parts : LayoutParts) (layout : Bytes) :
    pageLayoutWrap fuel stored parts fragment pageTitle layout =
      parts.finishLayout fuel content (strReplaceFirst layout pageTitleMarker (htmlEncode title 512)) := by
  rw [spliceSiteName_eq] at hcontent
  rw [resolvedTitle_eq] at htitle
  rw [pageLayoutWrap, spliceSiteName_eq, strReplaceAll_mono hcontent hm, resolvedTitle_eq,
    strReplaceAll_mono htitle hn]
  rfl

/-- A text is encoded whole into 512 bytes exactly where it fits. -/
theorem htmlEncode_eq_iff (s : Bytes) :
    htmlEncode s 512 = encodeAll htmlEscape s ↔ FitsEncoded s :=
  encodeInto_eq_encodeAll_iff (fun _ _ h => (htmlEscape_eq_some h).1) 511 s

/-- So is a beginning of one. -/
theorem nameInTitle_iff : encodeAll htmlEscape (titleUpToName stored pageTitle) <+:
    htmlEncode (namedTitle stored pageTitle) 512 ↔ FitsEncoded (titleUpToName stored pageTitle) := by
  have hsplit : namedTitle stored pageTitle =
      titleUpToName stored pageTitle ++ (cutAt siteNameMarker pageTitle).2 := by
    simp [namedTitle, titleUpToName, replacedOnce, joined]
  rw [hsplit, ← htmlEncode_eq_iff]
  exact encodeAll_prefix_encodeInto_iff (fun _ _ h => (htmlEscape_eq_some h).1) 511 _ _

/-! ## The title in the layout -/

/-- A needle that no closing byte stands within is not begun in front of the title. -/
theorem Layout.passes (layout : Layout) {needle : Bytes} (hno : ¬ needle <:+: layout.before)
    (hclose : 62 ∉ needle.dropLast ∧ 34 ∉ needle.dropLast) (s : Bytes) : Passes needle layout.before s := by
  intro u hu hne hpre
  rcases prefix_append_cases hpre with hin | ⟨k, hk, hsplit, -⟩
  · exact hno (hin.isInfix.trans hu.isInfix)
  · -- the last byte in front of the title would stand within the needle
    obtain ⟨c, hlast, hc⟩ := layout.before_ends
    have hmem : c ∈ needle.dropLast := by
      rw [hsplit, List.dropLast_append_of_ne_nil hk]
      obtain ⟨a, ha⟩ := hu
      rw [← ha, List.getLast?_append_of_ne_nil _ hne] at hlast
      exact List.mem_append_left _ (List.mem_of_getLast? hlast)
    rcases hc with rfl | rfl
    · exact hclose.1 hmem
    · exact hclose.2 hmem

theorem Layout.unsearched_before (layout : Layout) : Unsearched layout.before fun _ => True := by
  have hclose : ∀ needle ∈ headEnd :: linkStart :: laterMarkers,
      62 ∉ needle.dropLast ∧ 34 ∉ needle.dropLast := by decide
  have hpass : ∀ needle ∈ headEnd :: linkStart :: laterMarkers, ∀ s, True → Passes needle layout.before s :=
    fun needle hmem s _ =>
      layout.passes (layout.title_first needle (List.mem_cons_of_mem _ hmem)) (hclose needle hmem) s
  exact ⟨fun m hm => hpass m (by simp [hm]), hpass headEnd (by simp), hpass linkStart (by simp)⟩

/-- The title stands between the two parts of a layout. -/
theorem Layout.titled (layout : Layout) (title : Bytes) :
    strReplaceFirst layout.text pageTitleMarker title = layout.before ++ (title ++ layout.after) :=
  strReplaceFirst_of_passes
    (layout.passes (layout.title_first _ List.mem_cons_self) (by decide) _) (by decide) title

/-- What stands in front of the title stays there. -/
theorem Layout.finishLayout_titled (layout : Layout) (parts : LayoutParts) (fuel : ℕ)
    (content title : Bytes) :
    parts.finishLayout fuel content (strReplaceFirst layout.text pageTitleMarker title) =
      (parts.finishLayout fuel content (title ++ layout.after)).map (layout.before ++ ·) := by
  rw [layout.titled]
  exact finishLayout_append ⟨fun _ _ _ _ _ => trivial, fun _ _ _ => trivial, fun _ _ _ _ => trivial⟩
    layout.unsearched_before trivial content

/-- An encoded text opens no tag. -/
theorem lt_notMem_htmlEncode (s : Bytes) (size : ℕ) : 60 ∉ htmlEncode s size := by
  obtain ⟨p, -, heq⟩ := @exists_prefix_encodeInto htmlEscape (size - 1) s
  rw [htmlEncode, heq, encodeAll, List.mem_flatMap]
  rintro ⟨c, -, hc⟩
  unfold encodeByte htmlEscape at hc
  split_ifs at hc with h1 h2 h3 h4
  · exact absurd (show 60 ∈ lit "&amp;" from hc) (by decide)
  · exact absurd (show 60 ∈ lit "&lt;" from hc) (by decide)
  · exact absurd (show 60 ∈ lit "&gt;" from hc) (by decide)
  · exact absurd (show 60 ∈ lit "&quot;" from hc) (by decide)
  · exact h2 (List.mem_singleton.mp hc).symm

/-! ## The page -/

section

variable {parts : LayoutParts} {layout : Layout}

/-- **A page is built with the site's name in it** where the name is harmless. -/
theorem buildsNamedPage_of_harmless (h : NameHarmless stored fragment pageTitle) :
    BuildsNamedPage stored fragment pageTitle parts layout := by
  have hcontent := exists_spliceSiteName_iff.mpr h.content
  have htitle := exists_resolvedTitle_iff.mpr h.title
  refine ⟨hcontent, htitle, ?_, fun hmarker => (htmlEncode_eq_iff _).mpr (h.nameInContent hmarker),
    nameInTitle_iff.mpr h.nameInTitle⟩
  obtain ⟨m, hm⟩ := hcontent
  obtain ⟨n, hn⟩ := htitle
  obtain ⟨k, out, hout⟩ := exists_finishLayout parts (namedContent stored fragment) layout.after
  have hlast := finishLayout_mono (Nat.le_max_right (max m n) k) hout
  have hunsearched := unsearched_title (lt_notMem_htmlEncode (namedTitle stored pageTitle) 512) h.splices
  refine ⟨max (max m n) k, out, hlast, ?_⟩
  rw [pageLayoutWrap_eq hm hn (by omega) (by omega), layout.finishLayout_titled,
    finishLayout_append keptBySplices_opensMarkup hunsearched layout.after_begins, hlast]
  rfl

/-- Enough turns make no difference. -/
theorem eq_of_strReplaceAll {m n : ℕ} {src needle text out out' : Bytes}
    (h : strReplaceAll m src needle text = some out) (h' : strReplaceAll n src needle text = some out') :
    out = out' :=
  Option.some.inj ((strReplaceAll_mono h (Nat.le_max_left m n)).symm.trans
    (strReplaceAll_mono h' (Nat.le_max_right m n)))

/-- What is built so is made by the last splices, of the content and the title with the name. -/
theorem finishLayout_of_buildsNamedPage (h : BuildsNamedPage stored fragment pageTitle parts layout) :
    ∃ fuel out, parts.finishLayout fuel (namedContent stored fragment)
      (htmlEncode (namedTitle stored pageTitle) 512 ++ layout.after) =
        some (htmlEncode (namedTitle stored pageTitle) 512 ++ out) := by
  obtain ⟨m, hm⟩ := h.content
  obtain ⟨n, hn⟩ := h.title
  obtain ⟨fuel, out, -, hpage⟩ := h.page
  simp only [pageLayoutWrap, Option.bind_eq_bind, Option.bind_eq_some_iff] at hpage
  obtain ⟨content, hcontent, title, htitle, hfinish⟩ := hpage
  rw [spliceSiteName_eq] at hm hcontent
  rw [resolvedTitle_eq] at hn htitle
  rw [eq_of_strReplaceAll hcontent hm, eq_of_strReplaceAll htitle hn, layout.finishLayout_titled] at hfinish
  obtain ⟨page, hpage, heq⟩ := Option.map_eq_some_iff.mp hfinish
  exact ⟨fuel, out, by rw [hpage, List.append_cancel_left heq]⟩

/-- So the title holds no marker, if the colours are written as `#rrggbb` and the content does not begin
with a brace. -/
theorem noMarker_of_buildsNamedPage (hcolors : ∀ c ∈ parts.retroColors, c.head? = some 35)
    (hfirst : ∃ c ≠ 123, (parts.notice ++ namedContent stored fragment).head? = some c)
    (h : BuildsNamedPage stored fragment pageTitle parts layout) :
    ∀ m ∈ laterMarkers, ¬ m <:+: htmlEncode (namedTitle stored pageTitle) 512 := by
  intro m hm hin
  obtain ⟨fuel, out, hout⟩ := finishLayout_of_buildsNamedPage h
  have h60 := lt_notMem_htmlEncode (namedTitle stored pageTitle) 512
  -- at the first marker of the title, the page goes on with another byte than that marker
  obtain ⟨p, first, hmem, t, hsplit, hp⟩ := exists_first_marker ⟨m, hm, hin⟩
  rw [hsplit, List.append_assoc, List.append_assoc] at hout
  rw [hsplit] at h60
  obtain ⟨d, y, hd, hdiverted⟩ := finishLayout_diverted hcolors hfirst
    (fun hmem => h60 (List.mem_append_left _ hmem)) hp hmem hout
  rw [List.append_assoc, List.append_assoc] at hdiverted
  have hsame := congrArg List.head? (List.append_cancel_left hdiverted)
  rw [List.head?_append, (markup_notMem first hmem).2.2.2.2] at hsame
  exact hd (Option.some.inj hsame).symm

/-- **The condition is exact** for such colours and contents. -/
theorem buildsNamedPage_iff (hcolors : ∀ c ∈ parts.retroColors, c.head? = some 35)
    (hfirst : ∃ c ≠ 123, (parts.notice ++ namedContent stored fragment).head? = some c) :
    BuildsNamedPage stored fragment pageTitle parts layout ↔ NameHarmless stored fragment pageTitle := by
  refine ⟨fun h => ?_, buildsNamedPage_of_harmless⟩
  exact
    { content := exists_spliceSiteName_iff.mp h.content
      title := exists_resolvedTitle_iff.mp h.title
      splices := noMarker_of_buildsNamedPage hcolors hfirst h
      nameInContent := fun hmarker => (htmlEncode_eq_iff _).mp (h.nameInContent hmarker)
      nameInTitle := nameInTitle_iff.mp h.nameInTitle }

end

/-! ## Replacing all occurrences -/

/-- A name that holds the marker keeps every page that shows it from being built. -/
theorem pageLayoutWrap_eq_none (hfragment : siteNameMarker <:+: fragment)
    (hname : siteNameMarker <:+: htmlEncode (cmsGetSiteName stored) 512) (fuel : ℕ) (parts : LayoutParts)
    (layout : Bytes) : pageLayoutWrap fuel stored parts fragment pageTitle layout = none := by
  rw [pageLayoutWrap, spliceSiteName_eq, strReplaceAll_eq_none siteNameMarker_ne_nil hname hfragment]
  rfl

/-- What a page without a theme of its own is given. -/
def plainParts : LayoutParts where
  epoch := 2
  retroColors := List.replicate 11 (lit "#000000")
  retroColors_length := by decide
  retroColors_fit := by decide
  themeCss := []
  adminSheet := none
  csrfToken := none
  faviconUrl := none
  notice := []

/-- A layout of epoch 2, cut down. -/
def plainLayout : Layout where
  before := lit "<html><head><title>"
  after := lit "</title></head><body text=\"\x7b\x7bCOLOR_TEXT\x7d\x7d\">\x7b\x7bCONTENT\x7d\x7d</body></html>"
  before_ends := ⟨62, by decide, Or.inl rfl⟩
  after_begins := ⟨60, _, rfl, Or.inl rfl⟩
  title_first := by decide +kernel

end BoatRudder.HtmlBuilder
