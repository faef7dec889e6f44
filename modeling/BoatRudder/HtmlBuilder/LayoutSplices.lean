import BoatRudder.Utils.TemplateUtils

/-! # The splices of a layout

What `page_layout_wrap` puts into a layout once the title stands in it: the colours, the links and tags
of the head, and last the content. Each searches the whole text, the title with it, for the first of its
markers or for all; what none of them begins in stays as it is (`finishLayout_append`). -/

namespace BoatRudder.HtmlBuilder

open Utils

/-! ## The functions -/

/-- A marker of the templates. -/
def markerOf (name : String) : Bytes := 123 :: 123 :: (lit name ++ [125, 125])

/-- The markers of `splice_retro_colors`, in its order. -/
def retroMarkers : List Bytes :=
  ["COLOR_BACKGROUND", "COLOR_TEXT", "COLOR_LINK", "COLOR_VLINK", "COLOR_ALINK", "COLOR_LINK_HOVER",
    "COLOR_MENU_NORMAL", "COLOR_MENU_ACTIVE", "COLOR_MENU_HOVER", "COLOR_CATEGORIES",
    "COLOR_CATEGORIES_HOVER"].map markerOf

def themeColorsMarker : Bytes := markerOf "THEME_COLORS"

def contentMarker : Bytes := markerOf "CONTENT"

/-- The markers that are searched for once the title stands in the layout. -/
def laterMarkers : List Bytes := retroMarkers ++ [themeColorsMarker, contentMarker]

def headEnd : Bytes := lit "</head>"

def linkStart : Bytes := lit "<link"

/-- What a page is given besides its title and its content, by the theme, the session and the files. -/
structure LayoutParts where
  epoch : Int32
  /-- The colours for `retroMarkers`. -/
  retroColors : List Bytes
  retroColors_length : retroColors.length = retroMarkers.length
  /-- Their fields have ten bytes at most, the terminator included. -/
  retroColors_fit : ∀ c ∈ retroColors, c.length ≤ 9
  /-- What `splice_theme_colors` writes between the tags of its style. -/
  themeCss : Bytes
  /-- The style sheet of the dashboard, on a page that links it. -/
  adminSheet : Option Bytes
  /-- `request_csrf_token`, on a page of epoch 3 of a signed-in user. -/
  csrfToken : Option Bytes
  /-- `favicon_custom_url`. -/
  faviconUrl : Option Bytes
  /-- What `prepend_read_only_notice` puts in front of the content. -/
  notice : Bytes

/-- Calls of `str_replace_all`, one after the other. -/
def replaceEach (fuel : ℕ) : List (Bytes × Bytes) → Bytes → Option Bytes
  | [], html => some html
  | (marker, text) :: rest, html => (strReplaceAll fuel html marker text).bind (replaceEach fuel rest)

/-- `splice_retro_colors`. -/
def spliceRetroColors (fuel : ℕ) (colors : List Bytes) (html : Bytes) : Option Bytes :=
  if retroMarkers.all fun marker => (findSub marker html).isNone then some html
  else replaceEach fuel (retroMarkers.zip colors) html

/-- `splice_admin_styles` and `splice_csrf_token`: tags in front of the end of the head. -/
def spliceHead (tags : Option Bytes) (html : Bytes) : Bytes :=
  match tags with
  | none => html
  | some tags => strReplaceFirst html headEnd (60 :: tags ++ lit "\n" ++ headEnd)

/-- The address in a `<link>` that names a favicon: where it starts and where its quote stands. A link of
another kind is passed over, and one that does not end stops the search. -/
def faviconOf (link : Bytes) : Option (Option (ℕ × ℕ)) :=
  let tag := link.takeWhile (· ≠ 62)
  if tag.length = link.length then none
  else if 512 ≤ tag.length then some none
  else if (findSub (lit "rel=\"icon\"") tag).isNone ∧
      (findSub (lit "rel=\"shortcut icon\"") tag).isNone then some none
  else
    match findSub (lit "href=\"") tag with
    | none => some none
    | some href =>
      let stop := href + 6 + ((link.drop (href + 6)).takeWhile (· ≠ 34)).length
      if tag.length < stop ∨ link.length ≤ stop then some none else some (some (href + 6, stop))

/-- The search from a place on, `room` bytes in front of the end of the head. -/
def faviconHrefFrom (room : Option ℕ) (html : Bytes) : Option (ℕ × ℕ) :=
  match _h : findSub linkStart html with
  | none => none
  | some i =>
    if room.any (· ≤ i) then none
    else
      match faviconOf (html.drop i) with
      | none => none
      | some (some place) => some (place.1 + i, place.2 + i)
      | some none =>
        (faviconHrefFrom (room.map (· - (i + 5))) (html.drop (i + 5))).map
          fun place => (place.1 + (i + 5), place.2 + (i + 5))
termination_by html.length
decreasing_by
  have hle := (findSub_add_le _h).resolve_right (by decide)
  have hlen : linkStart.length = 5 := by decide
  rw [List.length_drop]
  omega

/-- `find_favicon_href`. -/
def findFaviconHref (html : Bytes) : Option (ℕ × ℕ) := faviconHrefFrom (findSub headEnd html) html

/-- `splice_favicon`. -/
def spliceFavicon (epoch : Int32) (url : Option Bytes) (html : Bytes) : Bytes :=
  match url with
  | none => html
  | some url =>
    match findFaviconHref html with
    | some (start, stop) => html.take start ++ url ++ html.drop stop
    | none => spliceHead (some (lit "link rel=\"" ++
        (if epoch = 2 then lit "shortcut icon" else lit "icon") ++ lit "\" href=\"" ++ url ++ lit "\">")) html

namespace LayoutParts

variable (parts : LayoutParts)

/-- What `splice_theme_colors` writes. -/
def themeStyle : Bytes := lit "<style>" ++ (parts.themeCss ++ lit "</style>")

/-- The splices of the head. -/
def inHead (html : Bytes) : Bytes :=
  let styled := spliceHead
    (parts.adminSheet.map fun sheet => lit "link rel=\"stylesheet\" href=\"" ++ sheet ++ lit "\">") html
  let guarded := spliceHead (parts.csrfToken.map fun token => lit "meta name=\"csrf-token\" content=\"" ++
    token ++ lit "\">\n<script src=\"/assets/js/csrf.js\"></script>") styled
  spliceFavicon parts.epoch parts.faviconUrl guarded

/-- `page_layout_wrap` from the colours on, if its loops end within `fuel` turns each. -/
def finishLayout (fuel : ℕ) (content titled : Bytes) : Option Bytes :=
  (spliceRetroColors fuel parts.retroColors titled).map fun colored =>
    strReplaceFirst (parts.inHead (strReplaceFirst colored themeColorsMarker parts.themeStyle))
      contentMarker (parts.notice ++ content)

end LayoutParts

/-! ## What a search goes past -/

/-- No occurrence of a needle begins in `p` where `s` follows. -/
def Passes (needle p s : Bytes) : Prop := ∀ u, u <:+ p → u ≠ [] → ¬ needle <+: u ++ s

variable {needle p q s text : Bytes} {fuel : ℕ}

theorem findSub_of_passes (h : Passes needle p s) :
    findSub needle (p ++ s) = (findSub needle s).map (· + p.length) := by
  induction p with
  | nil => simp
  | cons c p ih =>
    have hno : ¬ needle.isPrefixOf (c :: (p ++ s)) = true := fun hpre =>
      h (c :: p) List.suffix_rfl (List.cons_ne_nil c p) (List.isPrefixOf_iff_prefix.mp hpre)
    rw [List.cons_append, findSub, if_neg hno, ih fun u hu => h u (hu.trans (List.suffix_cons c p)),
      Option.map_map]
    rfl

/-- The first occurrence is replaced behind what the search goes past. -/
theorem strReplaceFirst_append (h : Passes needle p s) (text : Bytes) :
    strReplaceFirst (p ++ s) needle text = p ++ strReplaceFirst s needle text := by
  rw [strReplaceFirst, strReplaceFirst, findSub_of_passes h]
  cases findSub needle s with
  | none => rfl
  | some i =>
    simp only [Option.map_some]
    rw [Nat.add_comm i, List.take_length_add_append, Nat.add_assoc, List.drop_length_add_append,
      List.append_assoc, List.append_assoc, List.append_assoc]

/-- What begins two strings ends in the first or goes on in the second. -/
theorem prefix_append_cases (h : needle <+: p ++ s) :
    needle <+: p ∨ ∃ k, k ≠ [] ∧ needle = p ++ k ∧ k <+: s := by
  rcases List.prefix_or_prefix_of_prefix h (List.prefix_append p s) with hin | ⟨k, rfl⟩
  · exact Or.inl hin
  · by_cases hk : k = []
    · exact Or.inl (by simp [hk])
    · exact Or.inr ⟨k, hk, rfl, (List.prefix_append_right_inj p).mp h⟩

/-- A search goes past two strings when the needle stands neither in the first nor over the seam, nor
begins in the second. -/
theorem Passes.append (hq : ¬ needle <:+: q)
    (hseam : ∀ u k, u <:+ q → u ≠ [] → k ≠ [] → needle = u ++ k → ¬ k <+: p ++ s)
    (hp : Passes needle p s) : Passes needle (q ++ p) s := by
  rintro u ⟨a, ha⟩ hne hpre
  rcases List.append_eq_append_iff.mp ha with ⟨v, hv, rfl⟩ | ⟨v, -, hv⟩
  · have hsuffix : v <:+ q := ⟨a, hv.symm⟩
    rw [List.append_assoc] at hpre
    by_cases hnil : v = []
    · subst hnil
      exact hp p List.suffix_rfl (by simpa using hne) hpre
    rcases prefix_append_cases hpre with hin | ⟨k, hk, hsplit, hrest⟩
    · exact hq (hin.isInfix.trans hsuffix.isInfix)
    · exact hseam v k hsuffix hnil hk hsplit hrest
  · exact hp u ⟨v, hv.symm⟩ hne hpre

/-- The loop of `str_replace_all` goes past what no needle begins in, as long as what it makes of the
rest is such that none does. -/
theorem strReplaceAll_append {G : Bytes → Prop} (hpass : ∀ s, G s → Passes needle p s)
    (hkeep : ∀ s, G s → G (strReplaceFirst s needle text)) (hs : G s) :
    strReplaceAll fuel (p ++ s) needle text = (strReplaceAll fuel s needle text).map (p ++ ·) := by
  induction fuel generalizing s with
  | zero =>
    rw [strReplaceAll, strReplaceAll, findSub_of_passes (hpass s hs)]
    cases findSub needle s <;> rfl
  | succ fuel ih =>
    rw [strReplaceAll, strReplaceAll, findSub_of_passes (hpass s hs)]
    cases findSub needle s with
    | none => rfl
    | some i =>
      simp only [Option.map_some]
      rw [strReplaceFirst_append (hpass s hs), ih (hkeep s hs)]

/-- The favicon is looked for behind it as well. -/
theorem findFaviconHref_append (hlink : Passes linkStart p s) (hend : Passes headEnd p s) :
    findFaviconHref (p ++ s) =
      (findFaviconHref s).map fun place => (place.1 + p.length, place.2 + p.length) := by
  have hdrop : ∀ i, (p ++ s).drop (i + p.length) = s.drop i := by
    intro i
    rw [Nat.add_comm, List.drop_length_add_append]
  have hfind := findSub_of_passes hlink
  rw [findFaviconHref, findFaviconHref, findSub_of_passes hend]
  generalize findSub headEnd s = room
  have hroom : ∀ i, (room.map (· + p.length)).any (· ≤ i + p.length) = room.any (· ≤ i) := by
    intro i
    cases room <;> simp
  have hless : ∀ i, (room.map (· + p.length)).map (· - (i + p.length + 5)) =
      room.map (· - (i + 5)) := by
    intro i
    cases room
    · rfl
    · simp only [Option.map_some, Option.some.injEq]
      omega
  unfold faviconHrefFrom
  cases hs : findSub linkStart s with
  | none =>
    rw [hs] at hfind
    split
    · rfl
    · next i hi => cases hfind.symm.trans hi
  | some i =>
    rw [hs] at hfind
    split
    · next hnone => cases hfind.symm.trans hnone
    · next j hj =>
        obtain rfl : i + p.length = j := Option.some.inj (hfind.symm.trans hj)
        rw [hroom, hless, hdrop, Nat.add_right_comm i, hdrop]
        split_ifs
        · rfl
        · cases faviconOf (s.drop i) with
          | none => rfl
          | some found =>
            cases found with
            | none =>
              rw [Option.map_map]
              dsimp only
              congr 1
              funext place
              simp only [Function.comp_apply, Prod.mk.injEq]
              omega
            | some place =>
              simp only [Option.map_some, Option.some.injEq, Prod.mk.injEq]
              omega

theorem spliceHead_append (h : Passes headEnd p s) (tags : Option Bytes) :
    spliceHead tags (p ++ s) = p ++ spliceHead tags s := by
  cases tags with
  | none => rfl
  | some tags => exact strReplaceFirst_append h _

theorem spliceFavicon_append (hlink : Passes linkStart p s) (hend : Passes headEnd p s) (epoch : Int32)
    (url : Option Bytes) : spliceFavicon epoch url (p ++ s) = p ++ spliceFavicon epoch url s := by
  cases url with
  | none => rfl
  | some url =>
    rw [spliceFavicon, spliceFavicon, findFaviconHref_append hlink hend]
    cases findFaviconHref s with
    | none => exact spliceHead_append hend _
    | some place =>
      simp only [Option.map_some]
      rw [Nat.add_comm place.1, Nat.add_comm place.2, List.take_length_add_append,
        List.drop_length_add_append]
      simp only [List.append_assoc]

/-! ## The splices together -/

/-- A property of a text that every splice keeps. -/
structure KeptBySplices (G : Bytes → Prop) : Prop where
  marker : ∀ m ∈ laterMarkers, ∀ text s, G s → G (strReplaceFirst s m text)
  head : ∀ tags s, G s → G (spliceHead tags s)
  favicon : ∀ epoch url s, G s → G (spliceFavicon epoch url s)

/-- Nothing that a splice searches for begins in `p`, where a text with the property `G` follows. -/
structure Unsearched (p : Bytes) (G : Bytes → Prop) : Prop where
  marker : ∀ m ∈ laterMarkers, ∀ s, G s → Passes m p s
  headEnd : ∀ s, G s → Passes headEnd p s
  linkStart : ∀ s, G s → Passes linkStart p s

variable {G : Bytes → Prop} {parts : LayoutParts}

theorem KeptBySplices.strReplaceAll (hG : KeptBySplices G) {m : Bytes} (hm : m ∈ laterMarkers)
    {out : Bytes} (hs : G s) (h : strReplaceAll fuel s m text = some out) : G out := by
  induction fuel generalizing s with
  | zero =>
    cases hfind : findSub m s with
    | none =>
      rw [strReplaceAll_of_none hfind] at h
      exact Option.some.inj h ▸ hs
    | some i => cases (strReplaceAll_zero hfind text).symm.trans h
  | succ fuel ih =>
    cases hfind : findSub m s with
    | none =>
      rw [strReplaceAll_of_none hfind] at h
      exact Option.some.inj h ▸ hs
    | some i =>
      rw [strReplaceAll_succ hfind] at h
      exact ih (hG.marker m hm text s hs) h

/-- The test in front of the loops is their own. -/
theorem spliceRetroColors_eq (colors : List Bytes) (html : Bytes) :
    spliceRetroColors fuel colors html = replaceEach fuel (retroMarkers.zip colors) html := by
  rw [spliceRetroColors]
  split_ifs with hnone
  · have hall : ∀ pair ∈ retroMarkers.zip colors, findSub pair.1 html = none := fun pair hpair =>
      Option.isNone_iff_eq_none.mp (List.all_eq_true.mp hnone _ (List.of_mem_zip hpair).1)
    generalize retroMarkers.zip colors = pairs at hall ⊢
    clear hnone
    induction pairs with
    | nil => rfl
    | cons pair rest ih =>
      obtain ⟨hpair, hrest⟩ := List.forall_mem_cons.mp hall
      rw [replaceEach, strReplaceAll_of_none hpair, Option.bind_some]
      exact ih hrest
  · rfl

theorem replaceEach_append (hG : KeptBySplices G) (hp : Unsearched p G) {pairs : List (Bytes × Bytes)}
    (hpairs : ∀ pair ∈ pairs, pair.1 ∈ laterMarkers) (hs : G s) :
    replaceEach fuel pairs (p ++ s) = (replaceEach fuel pairs s).map (p ++ ·) ∧
      ∀ out, replaceEach fuel pairs s = some out → G out := by
  induction pairs generalizing s with
  | nil => exact ⟨rfl, fun out h => Option.some.inj h ▸ hs⟩
  | cons pair rest ih =>
    obtain ⟨hm, hrest⟩ := List.forall_mem_cons.mp hpairs
    rw [replaceEach, replaceEach, strReplaceAll_append (hp.marker _ hm) (fun s => hG.marker _ hm _ s) hs]
    cases hout : Utils.strReplaceAll fuel s pair.1 pair.2 with
    | none => exact ⟨rfl, nofun⟩
    | some out => exact ih hrest (hG.strReplaceAll hm hs hout)

theorem mem_laterMarkers_of_zip {colors : List Bytes} {pair : Bytes × Bytes}
    (h : pair ∈ retroMarkers.zip colors) : pair.1 ∈ laterMarkers :=
  List.mem_append_left _ (List.of_mem_zip h).1

theorem KeptBySplices.inHead (hG : KeptBySplices G) (hs : G s) : G (parts.inHead s) :=
  hG.favicon _ _ _ (hG.head _ _ (hG.head _ _ hs))

theorem inHead_append (hG : KeptBySplices G) (hend : ∀ s, G s → Passes headEnd p s)
    (hlink : ∀ s, G s → Passes linkStart p s) (hs : G s) :
    parts.inHead (p ++ s) = p ++ parts.inHead s := by
  simp only [LayoutParts.inHead]
  have hstyled := hG.head (parts.adminSheet.map fun sheet =>
    lit "link rel=\"stylesheet\" href=\"" ++ sheet ++ lit "\">") s hs
  have hguarded := hG.head (parts.csrfToken.map fun token => lit "meta name=\"csrf-token\" content=\"" ++
    token ++ lit "\">\n<script src=\"/assets/js/csrf.js\"></script>") _ hstyled
  rw [spliceHead_append (hend _ hs), spliceHead_append (hend _ hstyled),
    spliceFavicon_append (hlink _ hguarded) (hend _ hguarded)]

/-- **What no splice searches for stays in front of what they make of the rest.** -/
theorem finishLayout_append (hG : KeptBySplices G) (hp : Unsearched p G) (hs : G s) (content : Bytes) :
    parts.finishLayout fuel content (p ++ s) = (parts.finishLayout fuel content s).map (p ++ ·) := by
  have htheme : themeColorsMarker ∈ laterMarkers := by decide
  have hcontent : contentMarker ∈ laterMarkers := by decide
  obtain ⟨heach, hkept⟩ := @replaceEach_append p s fuel G hG hp (retroMarkers.zip parts.retroColors)
    (fun pair => mem_laterMarkers_of_zip) hs
  rw [LayoutParts.finishLayout, LayoutParts.finishLayout, spliceRetroColors_eq, spliceRetroColors_eq, heach]
  cases hout : replaceEach fuel (retroMarkers.zip parts.retroColors) s with
  | none => rfl
  | some colored =>
    have hcolored := hkept _ hout
    have hthemed := hG.marker _ htheme parts.themeStyle _ hcolored
    simp only [Option.map_some, Option.some.injEq]
    rw [strReplaceFirst_append (hp.marker _ htheme _ hcolored), inHead_append hG hp.headEnd hp.linkStart hthemed,
      strReplaceFirst_append (hp.marker _ hcontent _ (hG.inHead hthemed))]

/-! ## They end -/

/-- A text shorter than the needle makes the text shorter. -/
theorem exists_strReplaceAll (hlt : text.length < needle.length) (s : Bytes) :
    ∃ fuel out, strReplaceAll fuel s needle text = some out := by
  induction hn : s.length using Nat.strong_induction_on generalizing s with
  | _ n ih =>
    cases hfind : findSub needle s with
    | none => exact ⟨0, s, strReplaceAll_of_none hfind 0 text⟩
    | some i =>
      have hne : needle ≠ [] := by
        rintro rfl
        exact absurd hlt (Nat.not_lt_zero _)
      have hle := (findSub_add_le hfind).resolve_right hne
      have hshort : (strReplaceFirst s needle text).length < n := by
        rw [strReplaceFirst, hfind]
        simp only [List.length_append, List.length_take, List.length_drop]
        omega
      obtain ⟨fuel, out, hout⟩ := ih _ hshort _ rfl
      exact ⟨fuel + 1, out, (strReplaceAll_succ hfind fuel text).trans hout⟩

theorem replaceEach_mono {m n : ℕ} (hmn : m ≤ n) {pairs : List (Bytes × Bytes)} {out : Bytes}
    (h : replaceEach m pairs s = some out) : replaceEach n pairs s = some out := by
  induction pairs generalizing s with
  | nil => exact h
  | cons pair rest ih =>
    obtain ⟨mid, hmid, hrest⟩ := Option.bind_eq_some_iff.mp h
    exact Option.bind_eq_some_iff.mpr ⟨mid, strReplaceAll_mono hmid hmn, ih hrest⟩

theorem exists_replaceEach {pairs : List (Bytes × Bytes)}
    (hpairs : ∀ pair ∈ pairs, pair.2.length < pair.1.length) (s : Bytes) :
    ∃ fuel out, replaceEach fuel pairs s = some out := by
  induction pairs generalizing s with
  | nil => exact ⟨0, s, rfl⟩
  | cons pair rest ih =>
    obtain ⟨hpair, hrest⟩ := List.forall_mem_cons.mp hpairs
    obtain ⟨m, mid, hmid⟩ := exists_strReplaceAll hpair s
    obtain ⟨n, out, hout⟩ := ih hrest mid
    exact ⟨max m n, out, Option.bind_eq_some_iff.mpr
      ⟨mid, strReplaceAll_mono hmid (Nat.le_max_left m n), replaceEach_mono (Nat.le_max_right m n) hout⟩⟩

theorem finishLayout_mono {m n : ℕ} (hmn : m ≤ n) {content out : Bytes}
    (h : parts.finishLayout m content s = some out) : parts.finishLayout n content s = some out := by
  rw [LayoutParts.finishLayout, spliceRetroColors_eq] at h ⊢
  obtain ⟨colored, hcolored, rfl⟩ := Option.map_eq_some_iff.mp h
  rw [replaceEach_mono hmn hcolored]
  rfl

/-- **The splices end**: a colour is shorter than its marker. -/
theorem exists_finishLayout (parts : LayoutParts) (content titled : Bytes) :
    ∃ fuel out, parts.finishLayout fuel content titled = some out := by
  have hlong : ∀ m ∈ retroMarkers, 9 < m.length := by decide
  have hshort : ∀ pair ∈ retroMarkers.zip parts.retroColors, pair.2.length < pair.1.length := by
    intro pair hpair
    obtain ⟨hm, hc⟩ := List.of_mem_zip hpair
    exact Nat.lt_of_le_of_lt (parts.retroColors_fit _ hc) (hlong _ hm)
  obtain ⟨fuel, colored, h⟩ := exists_replaceEach hshort titled
  exact ⟨fuel, _, by rw [LayoutParts.finishLayout, spliceRetroColors_eq, h]; rfl⟩

/-! ## A title without a marker -/

/-- A text that begins with a tag or closes a value. -/
def OpensMarkup (s : Bytes) : Prop := ∃ c t, s = c :: t ∧ (c = 60 ∨ c = 34)

theorem markup_notMem : ∀ m ∈ laterMarkers, 60 ∉ m ∧ 34 ∉ m ∧ 35 ∉ m ∧
    62 ∉ m ∧ m.head? = some 123 := by decide

theorem findFaviconHref_pos {start stop : ℕ} (h : findFaviconHref s = some (start, stop)) : 0 < start := by
  have hfrom : ∀ (room : Option ℕ) (html : Bytes) (place : ℕ × ℕ),
      faviconHrefFrom room html = some place → 0 < place.1 := by
    intro room html
    fun_induction faviconHrefFrom room html with
    | case1 => nofun
    | case2 => nofun
    | case3 => nofun
    | case4 room html i hi hroom place hfound =>
      rintro _ ⟨⟩
      have hpos : 0 < place.1 := by
        simp only [faviconOf] at hfound
        split_ifs at hfound
        · cases hfound
        · cases hfound
        · split at hfound
          · cases hfound
          · split_ifs at hfound
            · cases hfound
            · obtain rfl := Option.some.inj (Option.some.inj hfound)
              exact Nat.succ_pos _
      exact Nat.add_pos_left hpos i
    | case5 room html i hi hroom hfound ih =>
      intro place hplace
      obtain ⟨place', h', rfl⟩ := Option.map_eq_some_iff.mp hplace
      exact Nat.add_pos_left (ih place' h') _
  exact hfrom _ _ _ h

/-- What a splice leaves begins as before, or with a tag. -/
theorem keptBySplices_opensMarkup : KeptBySplices OpensMarkup := by
  have hhead : ∀ (tags : Option Bytes) s, OpensMarkup s → OpensMarkup (spliceHead tags s) := by
    rintro (_ | tags) s ⟨c, t, rfl, hc⟩
    · exact ⟨c, t, rfl, hc⟩
    rw [spliceHead, strReplaceFirst]
    cases findSub headEnd (c :: t) with
    | none => exact ⟨c, t, rfl, hc⟩
    | some i =>
      cases i with
      | zero => exact ⟨60, _, rfl, Or.inl rfl⟩
      | succ i => exact ⟨c, _, rfl, hc⟩
  refine ⟨?_, hhead, ?_⟩
  · rintro m hm text _ ⟨c, t, rfl, hc⟩
    rw [strReplaceFirst]
    cases hfind : findSub m (c :: t) with
    | none => exact ⟨c, t, rfl, hc⟩
    | some i =>
      cases i with
      | zero =>
        -- a marker begins with a brace
        obtain ⟨d, hd⟩ := (findSub_eq_some hfind).1
        have hbrace := (markup_notMem m hm).2.2.2.2
        have hsame : (m ++ d).head? = some c := by rw [hd]; rfl
        rw [List.head?_append, hbrace] at hsame
        obtain rfl : (123 : UInt8) = c := Option.some.inj hsame
        exact absurd hc (by decide)
      | succ i => exact ⟨c, _, rfl, hc⟩
  · rintro epoch (_ | url) _ ⟨c, t, rfl, hc⟩
    · exact ⟨c, t, rfl, hc⟩
    rw [spliceFavicon]
    cases hfind : findFaviconHref (c :: t) with
    | none => exact hhead _ _ ⟨c, t, rfl, hc⟩
    | some place =>
      obtain ⟨start, hstart⟩ := Nat.exists_eq_add_of_lt (findFaviconHref_pos hfind)
      dsimp only
      rw [hstart, Nat.zero_add]
      exact ⟨c, _, rfl, hc⟩

/-- A search for a tag goes past a text without one. -/
theorem passes_of_notMem {c : UInt8} (hc : needle.head? = some c) (hp : c ∉ p) (s : Bytes) :
    Passes needle p s := by
  rintro u hu hne ⟨t, ht⟩
  obtain ⟨d, u, rfl⟩ := List.exists_cons_of_ne_nil hne
  have hsame : (needle ++ t).head? = some d := by rw [ht]; rfl
  rw [List.head?_append, hc] at hsame
  obtain rfl : c = d := Option.some.inj hsame
  exact hp (hu.subset List.mem_cons_self)

/-- **A title that holds no marker is not searched for anything.** -/
theorem unsearched_title {title : Bytes} (h60 : 60 ∉ title) (hno : ∀ m ∈ laterMarkers, ¬ m <:+: title) :
    Unsearched title OpensMarkup := by
  refine ⟨?_, fun s _ => passes_of_notMem rfl h60 s, fun s _ => passes_of_notMem rfl h60 s⟩
  rintro m hm _ ⟨c, t, rfl, hc⟩ u hu _ hpre
  have hc : c ∉ m := by
    obtain ⟨hlt, hquote, -⟩ := markup_notMem m hm
    rcases hc with rfl | rfl
    · exact hlt
    · exact hquote
  exact hno m hm ((prefix_of_prefix_append_cons hc hpre).isInfix.trans hu.isInfix)

/-! ## A title with one -/

/-- No marker begins within another. -/
theorem eq_of_markers_overlap : ∀ m ∈ laterMarkers, ∀ m' ∈ laterMarkers, ∀ r ∈ m'.tails, r ≠ [] →
    (m <+: r ∨ r <+: m) → r = m' ∧ m' = m := by decide +kernel

variable {m m' x : Bytes}

/-- What a marker ends with begins no marker. -/
theorem not_prefix_of_marker_split (hm : m ∈ laterMarkers) (hm' : m' ∈ laterMarkers) {u k : Bytes}
    (hu : u ≠ []) (hk : k ≠ []) (hsplit : m' = u ++ k) (s : Bytes) : ¬ k <+: m ++ s := by
  intro hpre
  obtain ⟨hwhole, -⟩ := eq_of_markers_overlap m hm m' hm' k
    ((List.mem_tails _ _).mpr ⟨u, hsplit.symm⟩) hk
    (List.prefix_or_prefix_of_prefix (List.prefix_append m s) hpre)
  have hlen := congrArg List.length hsplit
  rw [hwhole, List.length_append] at hlen
  exact hu (List.length_eq_zero_iff.mp (by omega))

/-- A search goes up to a marker when what stands in front of it holds none. -/
theorem passes_before_marker (hm : m ∈ laterMarkers) (hm' : m' ∈ laterMarkers) (hp : ¬ m' <:+: p)
    (s : Bytes) : Passes m' p (m ++ s) := by
  intro u hu hne hpre
  rcases prefix_append_cases hpre with hin | ⟨k, hk, hsplit, hrest⟩
  · exact hp (hin.isInfix.trans hu.isInfix)
  · exact not_prefix_of_marker_split hm hm' hne hk hsplit s hrest

/-- A search for another marker goes past it. -/
theorem passes_marker (hm : m ∈ laterMarkers) (hm' : m' ∈ laterMarkers) (hne : m' ≠ m)
    (hp : ¬ m' <:+: p) (s : Bytes) : Passes m' (p ++ m) s := by
  refine Passes.append hp
    (fun u k _ hu hk hsplit => not_prefix_of_marker_split hm hm' hu hk hsplit s) fun u hu hu' hpre => ?_
  obtain ⟨-, hsame⟩ := eq_of_markers_overlap m' hm' m hm u ((List.mem_tails _ _).mpr hu) hu'
    (List.prefix_or_prefix_of_prefix hpre (List.prefix_append u s))
  exact hne hsame.symm

/-- And past what begins with a byte of none. -/
theorem passes_other (hm : m ∈ laterMarkers) {c : UInt8} (hx : x.head? = some c) (hc : c ∉ m)
    (hbrace : 123 ∉ x) (hp : ¬ m <:+: p) (s : Bytes) : Passes m (p ++ x) s := by
  refine Passes.append hp (fun u k _ _ hk hsplit hpre => ?_)
    (passes_of_notMem (markup_notMem m hm).2.2.2.2 hbrace s)
  obtain ⟨d, k, rfl⟩ := List.exists_cons_of_ne_nil hk
  obtain ⟨t, ht⟩ := hpre
  have hsame : (x ++ s).head? = some d := by rw [← ht]; rfl
  rw [List.head?_append, hx] at hsame
  obtain rfl : c = d := Option.some.inj hsame
  exact hc (hsplit ▸ List.mem_append_right _ List.mem_cons_self)

/-- What a search goes past stays in front. -/
theorem prefix_strReplaceAll {out : Bytes} (hpass : ∀ s, Passes needle p s) (hp : p <+: s)
    (h : strReplaceAll fuel s needle text = some out) : p <+: out := by
  obtain ⟨t, rfl⟩ := hp
  rw [strReplaceAll_append (G := fun _ => True) (fun s _ => hpass s) (fun _ _ => trivial) trivial] at h
  obtain ⟨rest, -, rfl⟩ := Option.map_eq_some_iff.mp h
  exact List.prefix_append p rest

theorem prefix_strReplaceFirst (hpass : ∀ s, Passes needle p s) (hp : p <+: s) (text : Bytes) :
    p <+: strReplaceFirst s needle text := by
  obtain ⟨t, rfl⟩ := hp
  rw [strReplaceFirst_append (hpass t)]
  exact List.prefix_append p _

theorem prefix_inHead (hend : ∀ s, Passes headEnd p s) (hlink : ∀ s, Passes linkStart p s) (hp : p <+: s) :
    p <+: parts.inHead s := by
  obtain ⟨t, rfl⟩ := hp
  rw [inHead_append (G := fun _ => True) ⟨fun _ _ _ _ _ => trivial, fun _ _ _ => trivial,
    fun _ _ _ _ => trivial⟩ (fun s _ => hend s) (fun s _ => hlink s) trivial]
  exact List.prefix_append p _

theorem strReplaceFirst_of_passes (hpass : Passes needle p (needle ++ s)) (hne : needle ≠ [])
    (text : Bytes) : strReplaceFirst (p ++ (needle ++ s)) needle text = p ++ (text ++ s) := by
  rw [strReplaceFirst_append hpass]
  have hzero : findSub needle (needle ++ s) = some 0 := by
    obtain ⟨c, n, rfl⟩ := List.exists_cons_of_ne_nil hne
    rw [List.cons_append, findSub, if_pos (by simp)]
  rw [strReplaceFirst, hzero]
  simp

/-- The first marker in a text. -/
theorem exists_first_marker {title : Bytes} (h : ∃ m ∈ laterMarkers, m <:+: title) :
    ∃ p, ∃ m ∈ laterMarkers, ∃ t, title = p ++ (m ++ t) ∧ ∀ m' ∈ laterMarkers, ¬ m' <:+: p := by
  induction hn : title.length using Nat.strong_induction_on generalizing title with
  | _ n ih =>
    obtain ⟨m, hm, p, t, rfl⟩ := h
    by_cases hp : ∃ m' ∈ laterMarkers, m' <:+: p
    · have hpos : 0 < m.length := by
        have hlong : ∀ m ∈ laterMarkers, 0 < m.length := by decide
        exact hlong m hm
      obtain ⟨q, m', hm', t', rfl, hq⟩ := ih p.length (by
        rw [← hn]
        simp only [List.length_append]
        omega) hp rfl
      exact ⟨q, m', hm', t' ++ (m ++ t), by simp only [List.append_assoc], hq⟩
    · exact ⟨p, m, hm, t, by rw [List.append_assoc], fun m' hm' hin => hp ⟨m', hm', hin⟩⟩

section Diverted

variable {content out : Bytes}

/-- Behind what no marker begins in, the loops find nothing to change. -/
theorem prefix_replaceEach {pairs : List (Bytes × Bytes)}
    (hpass : ∀ pair ∈ pairs, ∀ s, Passes pair.1 p s) (hp : p <+: s)
    (h : replaceEach fuel pairs s = some out) : p <+: out := by
  induction pairs generalizing s with
  | nil => exact Option.some.inj h ▸ hp
  | cons pair rest ih =>
    obtain ⟨hpair, hrest⟩ := List.forall_mem_cons.mp hpass
    obtain ⟨mid, hmid, hout⟩ := Option.bind_eq_some_iff.mp h
    exact ih hrest (prefix_strReplaceAll hpair hp hmid) hout

/-- A marker of a colour gives way to the colour. -/
theorem prefix_strReplaceAll_marker (hm : m ∈ laterMarkers) (hp : ¬ m <:+: p) {color : Bytes}
    (hcolor : color.head? = some 35) (hs : p ++ m <+: s)
    (h : strReplaceAll fuel s m color = some out) : p ++ [35] <+: out := by
  have hbrace := (markup_notMem m hm).2.2.2.2
  have hne : m ≠ [] := by
    rintro rfl
    cases hbrace
  obtain ⟨t, rfl⟩ := hs
  rw [List.append_assoc] at h
  have hpass := passes_before_marker hm hm hp t
  have hfind : findSub m (p ++ (m ++ t)) = some (0 + p.length) := by
    obtain ⟨c, n, rfl⟩ := List.exists_cons_of_ne_nil hne
    rw [findSub_of_passes hpass, List.cons_append, findSub, if_pos (by simp)]
    rfl
  have hcolor' : color ≠ [] := fun hnil => by
    rw [hnil] at hcolor
    cases hcolor
  obtain ⟨d, c, rfl⟩ := List.exists_cons_of_ne_nil hcolor'
  obtain rfl : d = 35 := by simpa using hcolor
  cases fuel with
  | zero => cases (strReplaceAll_zero hfind _).symm.trans h
  | succ fuel =>
    rw [strReplaceAll_succ hfind, strReplaceFirst_of_passes hpass hne] at h
    refine prefix_strReplaceAll (passes_other hm rfl (markup_notMem m hm).2.2.1 (by decide) hp)
      ⟨c ++ t, ?_⟩ h
    simp

/-- So do the markers of the colours one after the other, up to the first that stands there. -/
theorem prefix_replaceEach_marker (hp : ∀ m' ∈ laterMarkers, ¬ m' <:+: p) {pairs : List (Bytes × Bytes)}
    (hpairs : ∀ pair ∈ pairs, pair.1 ∈ laterMarkers ∧ pair.2.head? = some 35) (hm : m ∈ laterMarkers)
    (hs : (p ++ m <+: s ∧ m ∈ pairs.map (·.1)) ∨ p ++ [35] <+: s)
    (h : replaceEach fuel pairs s = some out) : p ++ [35] <+: out := by
  induction pairs generalizing s with
  | nil => exact Option.some.inj h ▸ hs.resolve_left fun h => absurd h.2 (List.not_mem_nil)
  | cons pair rest ih =>
    obtain ⟨⟨hpair, hcolor⟩, hrest⟩ := List.forall_mem_cons.mp hpairs
    obtain ⟨mid, hmid, hout⟩ := Option.bind_eq_some_iff.mp h
    refine ih hrest ?_ hout
    rcases hs with ⟨hs, hmem⟩ | hs
    · by_cases hsame : pair.1 = m
      · rw [hsame] at hmid
        exact Or.inr (prefix_strReplaceAll_marker hm (hp m hm) hcolor hs hmid)
      · have hmem := (List.mem_cons.mp hmem).resolve_left (Ne.symm hsame)
        exact Or.inl ⟨prefix_strReplaceAll (passes_marker hm hpair hsame (hp _ hpair)) hs hmid, hmem⟩
    · exact Or.inr (prefix_strReplaceAll
        (passes_other hpair rfl (markup_notMem _ hpair).2.2.1 (by decide) (hp _ hpair)) hs hmid)

/-- A search for a tag goes past a text without one and what follows, if none begins there. -/
theorem passes_tag {c : UInt8} (hc : needle.head? = some c) (hp : c ∉ p) (hx : ∀ s, Passes needle x s)
    (s : Bytes) : Passes needle (p ++ x) s := by
  rintro u ⟨a, ha⟩ hne hpre
  rcases List.append_eq_append_iff.mp ha with ⟨v, hv, rfl⟩ | ⟨v, -, hv⟩
  · by_cases hnil : v = []
    · subst hnil
      exact hx s x List.suffix_rfl (by simpa using hne) hpre
    · rw [List.append_assoc] at hpre
      exact passes_of_notMem hc hp (x ++ s) v ⟨a, hv.symm⟩ hnil hpre
  · exact hx s u ⟨v, hv.symm⟩ hne hpre

theorem passes_of_tails (h : ∀ u ∈ x.tails, u ≠ [] → ¬ (needle <+: u ∨ u <+: needle)) (s : Bytes) :
    Passes needle x s := fun u hu hne hpre =>
  h u ((List.mem_tails _ _).mpr hu) hne
    (List.prefix_or_prefix_of_prefix hpre (List.prefix_append u s))

/-- A prefix of what has been read so far, with another byte behind it than the first of a marker. -/
theorem exists_cons_of_prefix {c : UInt8} {y : Bytes} (hc : c ≠ 123) (h : p ++ c :: y <+: out) :
    ∃ d t, d ≠ 123 ∧ out = p ++ d :: t := by
  obtain ⟨t, rfl⟩ := h
  exact ⟨c, y ++ t, hc, by simp⟩

theorem passes_head_of_marker (hm : m ∈ laterMarkers) (h60 : 60 ∉ p) :
    (∀ s, Passes headEnd (p ++ m) s) ∧ ∀ s, Passes linkStart (p ++ m) s := by
  have hnot : 60 ∉ p ++ m := fun h => (List.mem_append.mp h).elim h60 (markup_notMem m hm).1
  exact ⟨passes_of_notMem rfl hnot, passes_of_notMem rfl hnot⟩

/-- The colours' markers: a colour stands in the place of the first. -/
theorem finishLayout_retro (hcolors : ∀ c ∈ parts.retroColors, c.head? = some 35) (h60 : 60 ∉ p)
    (hp : ∀ m' ∈ laterMarkers, ¬ m' <:+: p) (hm : m ∈ retroMarkers)
    (h : parts.finishLayout fuel content (p ++ (m ++ s)) = some out) : p ++ [35] <+: out := by
  have hlater : m ∈ laterMarkers := List.mem_append_left _ hm
  have h35 : 60 ∉ p ++ [35] := fun h => (List.mem_append.mp h).elim h60 (by decide)
  have hpast : ∀ m' ∈ laterMarkers, ∀ s, Passes m' (p ++ [35]) s := fun m' hm' =>
    passes_other hm' rfl (markup_notMem m' hm').2.2.1 (by decide) (hp m' hm')
  rw [LayoutParts.finishLayout, spliceRetroColors_eq] at h
  obtain ⟨colored, hcolored, rfl⟩ := Option.map_eq_some_iff.mp h
  have hfst : (retroMarkers.zip parts.retroColors).map (·.1) = retroMarkers :=
    List.map_fst_zip (Nat.le_of_eq parts.retroColors_length.symm)
  have hstart : p ++ [35] <+: colored := by
    refine prefix_replaceEach_marker hp (fun pair hpair => ⟨mem_laterMarkers_of_zip hpair,
      hcolors _ (List.of_mem_zip hpair).2⟩) hlater (Or.inl ⟨?_, ?_⟩) hcolored
    · rw [← List.append_assoc]
      exact List.prefix_append _ s
    · rw [hfst]
      exact hm
  have hthemed := prefix_strReplaceFirst (hpast themeColorsMarker (by decide)) hstart parts.themeStyle
  exact prefix_strReplaceFirst (hpast contentMarker (by decide)) (prefix_inHead
    (passes_of_notMem rfl h35) (passes_of_notMem rfl h35) hthemed) _

/-- Another marker is left by the colours as it is. -/
theorem prefix_spliceRetroColors (hp : ∀ m' ∈ laterMarkers, ¬ m' <:+: p) (hm : m ∈ laterMarkers)
    (hother : m ∉ retroMarkers) {colors : List Bytes} (hs : p ++ m <+: s)
    (h : spliceRetroColors fuel colors s = some out) : p ++ m <+: out := by
  rw [spliceRetroColors_eq] at h
  refine prefix_replaceEach (fun pair hpair => ?_) hs h
  have hretro := (List.of_mem_zip hpair).1
  have hpair := List.mem_append_left [themeColorsMarker, contentMarker] hretro
  exact passes_marker hm hpair (fun hsame => hother (hsame ▸ hretro)) (hp _ hpair)

/-- The marker of the theme: its style stands there. -/
theorem finishLayout_theme (h60 : 60 ∉ p) (hp : ∀ m' ∈ laterMarkers, ¬ m' <:+: p)
    (h : parts.finishLayout fuel content (p ++ (themeColorsMarker ++ s)) = some out) :
    p ++ lit "<style>" <+: out := by
  have htheme : themeColorsMarker ∈ laterMarkers := by decide
  have hmarker : contentMarker ∈ laterMarkers := by decide
  obtain ⟨colored, hcolored, rfl⟩ := Option.map_eq_some_iff.mp h
  obtain ⟨t, rfl⟩ := prefix_spliceRetroColors hp htheme (by decide)
    (by rw [← List.append_assoc]; exact List.prefix_append _ s) hcolored
  have hstyle : p ++ lit "<style>" <+:
      strReplaceFirst (p ++ themeColorsMarker ++ t) themeColorsMarker parts.themeStyle := by
    rw [List.append_assoc, strReplaceFirst_of_passes
      (passes_before_marker htheme htheme (hp _ htheme) t) (by decide), LayoutParts.themeStyle]
    exact ⟨parts.themeCss ++ lit "</style>" ++ t, by simp only [List.append_assoc]⟩
  exact prefix_strReplaceFirst (passes_other hmarker rfl (markup_notMem _ hmarker).1 (by decide)
    (hp _ hmarker)) (prefix_inHead (passes_tag rfl h60 (passes_of_tails (by decide)))
      (passes_tag rfl h60 (passes_of_tails (by decide))) hstyle) _

/-- The marker of the content: it begins there. -/
theorem finishLayout_content (h60 : 60 ∉ p) (hp : ∀ m' ∈ laterMarkers, ¬ m' <:+: p)
    (h : parts.finishLayout fuel content (p ++ (contentMarker ++ s)) = some out) :
    p ++ (parts.notice ++ content) <+: out := by
  have htheme : themeColorsMarker ∈ laterMarkers := by decide
  have hmarker : contentMarker ∈ laterMarkers := by decide
  obtain ⟨hend, hlink⟩ := passes_head_of_marker hmarker h60
  obtain ⟨colored, hcolored, rfl⟩ := Option.map_eq_some_iff.mp h
  have hretro := prefix_spliceRetroColors hp hmarker (by decide)
    (by rw [← List.append_assoc]; exact List.prefix_append _ s) hcolored
  have hthemed := prefix_strReplaceFirst
    (passes_marker hmarker htheme (by decide) (hp _ htheme)) hretro parts.themeStyle
  obtain ⟨t, ht⟩ : p ++ contentMarker <+:
      parts.inHead (strReplaceFirst colored themeColorsMarker parts.themeStyle) :=
    prefix_inHead hend hlink hthemed
  rw [← ht, List.append_assoc, strReplaceFirst_of_passes
    (passes_before_marker hmarker hmarker (hp _ hmarker) t) (by decide)]
  exact ⟨t, by simp only [List.append_assoc]⟩

/-- **A marker in the title is replaced**: what stands in front of the first one stays, and behind it
comes another byte than the one a marker begins with. -/
theorem finishLayout_diverted (hcolors : ∀ c ∈ parts.retroColors, c.head? = some 35)
    (hcontent : ∃ c ≠ 123, (parts.notice ++ content).head? = some c) (h60 : 60 ∉ p)
    (hp : ∀ m' ∈ laterMarkers, ¬ m' <:+: p) (hm : m ∈ laterMarkers)
    (h : parts.finishLayout fuel content (p ++ (m ++ s)) = some out) :
    ∃ d t, d ≠ 123 ∧ out = p ++ d :: t := by
  rcases List.mem_append.mp hm with hretro | hother
  · exact exists_cons_of_prefix (by decide) (finishLayout_retro hcolors h60 hp hretro h)
  rcases List.mem_pair.mp hother with rfl | rfl
  · exact exists_cons_of_prefix (by decide) (finishLayout_theme h60 hp h)
  · obtain ⟨c, hc, hhead⟩ := hcontent
    obtain ⟨y, hy⟩ := List.head?_eq_some_iff.mp hhead
    exact exists_cons_of_prefix hc (hy ▸ finishLayout_content h60 hp h)

end Diverted

end BoatRudder.HtmlBuilder
