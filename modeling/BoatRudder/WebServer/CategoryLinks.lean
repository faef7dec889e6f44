import BoatRudder.WebServer.DashboardGate
import BoatRudder.WebServer.EntryAddresses

/-! # Links to categories

A category is linked to by the slug of its name, and looked up by comparing slugs. Names that differ
only in what a slug leaves out have one slug, and a name of nothing else has an empty one: the links of
all the categories open them exactly where the slugs are a key of the categories that are listed. -/

namespace BoatRudder.WebServer

open Db Collection

/-! ## Slugs -/

/-- One turn of the loop of `slugify`. -/
def slugStep (slug : Bytes) (c : UInt8) : Bytes :=
  if isUpper c then slug ++ [c + 32]
  else if isLower c || isDigit c then slug ++ [c]
  else if c = 32 ∨ c = 45 ∨ c = 95 then
    if slug ≠ [] ∧ slug.getLast? ≠ some 45 then slug ++ [45] else slug
  else slug

/-- `slugify`. -/
def slugify (name : Bytes) : Bytes := (name.foldl slugStep []).rdropWhile (· = 45)

/-- What a slug is made of. -/
def isSlugByte (c : UInt8) : Bool := isLower c || isDigit c || c == 45

/-- A turn adds at most one byte, and a slug byte. -/
theorem slugStep_cases (slug : Bytes) (c : UInt8) :
    slugStep slug c = slug ∨ ∃ b, isSlugByte b = true ∧ slugStep slug c = slug ++ [b] := by
  unfold slugStep
  split_ifs with hupper hkept hsep hbefore
  · refine Or.inr ⟨c + 32, ?_, rfl⟩
    rw [isSlugByte, isLower_add_32 hupper]
    rfl
  · exact Or.inr ⟨c, by rw [isSlugByte, hkept]; rfl, rfl⟩
  · exact Or.inr ⟨45, rfl, rfl⟩
  · exact Or.inl rfl
  · exact Or.inl rfl

/-- The loop keeps slug bytes, no more of them than it has read. -/
theorem slugLoop_spec (name slug : Bytes) (h : ∀ b ∈ slug, isSlugByte b = true) :
    (∀ b ∈ name.foldl slugStep slug, isSlugByte b = true) ∧
      (name.foldl slugStep slug).length ≤ slug.length + name.length := by
  induction name generalizing slug with
  | nil => exact ⟨h, le_rfl⟩
  | cons c name ih =>
    rw [List.foldl_cons, List.length_cons]
    rcases slugStep_cases slug c with heq | ⟨b, hb, heq⟩
    · rw [heq]
      obtain ⟨hbytes, hlen⟩ := ih slug h
      exact ⟨hbytes, by omega⟩
    · rw [heq]
      obtain ⟨hbytes, hlen⟩ := ih (slug ++ [b])
        (List.forall_mem_append.mpr ⟨h, List.forall_mem_singleton.mpr hb⟩)
      rw [List.length_append, List.length_singleton] at hlen
      exact ⟨hbytes, by omega⟩

/-- A slug is made of slug bytes. -/
theorem isSlugByte_slugify {name : Bytes} {b : UInt8} (h : b ∈ slugify name) : isSlugByte b = true :=
  (slugLoop_spec name [] fun _ hb => by cases hb).1 b ((List.rdropWhile_prefix _ _).mem h)

/-- A slug is no longer than the name. -/
theorem length_slugify_le (name : Bytes) : (slugify name).length ≤ name.length := by
  have h := (slugLoop_spec name [] fun _ hb => by cases hb).2
  rw [List.length_nil, Nat.zero_add] at h
  exact ((List.rdropWhile_prefix _ _).length_le).trans h

/-! ## Categories -/

/-- A document of `entry_categories`. -/
structure CategoryDoc where
  id : IdHex
  name : LangMap
  deriving DecidableEq, Repr

/-- The collection, in the order of `_id`. -/
structure Categories where
  docs : List CategoryDoc
  /-- No two documents have one `_id`. -/
  ids : (docs.map (·.id)).Nodup
  /-- `parse_category_form` reads each name into 256 bytes. -/
  names : ∀ d ∈ docs, ∀ t ∈ d.name, t.2.length ≤ 255

/-- `cms_get_categories`. -/
def cmsGetCategories (cats : Categories) : List CategoryDoc := cats.docs.take categoryListLimit

section

-- the language of the reader
variable (lang : Bytes)

/-- The slug of a category. -/
def CategoryDoc.slug (d : CategoryDoc) : Bytes := slugify (resolveLangMap d.name lang)

/-- The link to a category, on the page of an entry (`resolve_category_names`) and in the menu
(`category_menu_render`). -/
def CategoryDoc.link (d : CategoryDoc) : Bytes := lit "/blog/category/" ++ d.slug lang

/-- The category the category route lists. -/
def categoryRoute (cats : Categories) (catSlug : Bytes) : Option CategoryDoc :=
  (cmsGetCategories cats).find? fun d => d.slug lang = catSlug

/-- The category whose list a GET is answered with; none where the answer is another page. -/
def categoryOf (cats : Categories) (visitor : Visitor) (url : Bytes) : Option CategoryDoc :=
  match sitePage false visitor (decodedUrl url) with
  | .category catSlug => categoryRoute lang cats catSlug
  | _ => none

/-- Every category's link opens it, with whatever query is added to it. -/
def CategoryLinksOpen (cats : Categories) : Prop :=
  ∀ d ∈ cats.docs, ∀ (visitor : Visitor) (url : Bytes), urlPathIs url (d.link lang) = true →
    categoryOf lang cats visitor url = some d

/-- When they do. -/
structure SlugsAreKeys (cats : Categories) : Prop where
  slugs : (cats.docs.map (·.slug lang)).Nodup
  nonempty : ∀ d ∈ cats.docs, d.slug lang ≠ []
  listed : cats.docs.length ≤ categoryListLimit

end

/-! ## Links and their routes -/

section

variable {lang : Bytes} {cats : Categories}

/-- The name of a category is no longer than the form's buffer. -/
theorem length_name_le {d : CategoryDoc} (hd : d ∈ cats.docs) :
    (resolveLangMap d.name lang).length ≤ 255 := by
  have hlookup : ∀ {code t : Bytes}, d.name.lookup code = some t → t.length ≤ 255 := by
    intro code t h
    obtain ⟨before, after, heq, -⟩ := List.lookup_eq_some_iff.mp h
    exact cats.names d hd (code, t) (by rw [heq]; simp)
  rw [resolveLangMap]
  cases hname : d.name.lookup lang with
  | some t => exact hlookup hname
  | none =>
    cases henglish : d.name.lookup (lit "en") with
    | some t => exact hlookup henglish
    | none => exact Nat.zero_le _

/-- A link is dispatched as it is. -/
theorem decodedUrl_link {d : CategoryDoc} (hd : d ∈ cats.docs) {url : Bytes}
    (hurl : urlPathIs url (d.link lang) = true) : decodedUrl url = d.link lang := by
  have hslug : ∀ c ∈ d.slug lang, c ≠ 37 ∧ c ≠ 43 ∧ c ≠ 0 ∧ c ≠ 63 ∧ c ≠ 35 := by
    intro c hc
    have hbyte : isSlugByte c = true := isSlugByte_slugify hc
    refine ⟨?_, ?_, ?_, ?_, ?_⟩ <;> rintro rfl <;> exact absurd hbyte (by decide)
  have hfront : ∀ c ∈ lit "/blog/category/", c ≠ 37 ∧ c ≠ 43 ∧ c ≠ 0 ∧ c ≠ 63 ∧ c ≠ 35 := by
    decide
  have hall : ∀ c ∈ d.link lang, c ≠ 37 ∧ c ≠ 43 ∧ c ≠ 0 ∧ c ≠ 63 ∧ c ≠ 35 :=
    List.forall_mem_append.mpr ⟨hfront, hslug⟩
  refine decodedUrl_of_urlPathIs (fun c hc => ⟨(hall c hc).1, (hall c hc).2.1, (hall c hc).2.2.1⟩)
    (fun c hc => (hall c hc).2.2.2) ?_ hurl
  have hname := (length_slugify_le (resolveLangMap d.name lang)).trans (length_name_le hd)
  have h15 : (lit "/blog/category/").length = 15 := by decide
  rw [CategoryDoc.link, List.length_append, h15]
  exact le_trans (Nat.add_le_add_left hname 15) (by decide)

/-- What is behind the prefix of the route is looked up, if there is anything. -/
theorem sitePage_category (visitor : Visitor) (slug : Bytes) :
    sitePage false visitor (lit "/blog/category/" ++ slug) =
      if slug = [] then .blogEntry (lit "category/") else .category slug := by
  have h15 : (lit "/blog/category/").length = 15 := by decide
  cases slug with
  | nil =>
    rw [List.append_nil, if_pos rfl]
    simp only [sitePage, Bool.and_false, Bool.false_eq_true, if_false]
    decide
  | cons c slug =>
    rw [if_neg (List.cons_ne_nil c slug), sitePage, Bool.and_false, if_neg Bool.false_ne_true,
      if_neg, if_neg, if_pos]
    · exact congrArg SitePage.category (List.drop_left' h15)
    · refine ⟨List.prefix_append _ _, ?_⟩
      rw [List.length_append, h15, List.length_cons]
      omega
    · intro h
      have hlen := congrArg List.length h
      rw [List.length_append, h15, List.length_cons] at hlen
      have h5 : (lit "/blog").length = 5 := by decide
      omega
    · rintro ⟨⟨rest, hrest⟩, -⟩
      exact absurd (congrArg (List.take 6) hrest) (by simp [lit])

/-- **The page behind a category's link.** -/
theorem categoryOf_link {d : CategoryDoc} (hd : d ∈ cats.docs) (visitor : Visitor) {url : Bytes}
    (hurl : urlPathIs url (d.link lang) = true) :
    categoryOf lang cats visitor url =
      if d.slug lang = [] then none else categoryRoute lang cats (d.slug lang) := by
  rw [categoryOf, decodedUrl_link hd hurl, CategoryDoc.link, sitePage_category]
  split_ifs <;> rfl

/-- **Every category's link opens it exactly where the slugs of the categories are keys of those that
are listed.** -/
theorem categoryLinks_iff (lang : Bytes) (cats : Categories) :
    CategoryLinksOpen lang cats ↔ SlugsAreKeys lang cats := by
  constructor
  · intro h
    have hopen : ∀ d ∈ cats.docs, d.slug lang ≠ [] ∧
        categoryRoute lang cats (d.slug lang) = some d := fun d hd => by
      have hlink : urlPathIs (d.link lang) (d.link lang) = true := by
        simp [urlPathIs]
      have hpage := h d hd none _ hlink
      rw [categoryOf_link hd none hlink] at hpage
      split_ifs at hpage with hnil
      exact ⟨hnil, hpage⟩
    refine ⟨?_, fun d hd => (hopen d hd).1, ?_⟩
    · -- two categories with one slug are what the route finds for it
      have hnodup : cats.docs.Nodup := List.Nodup.of_map _ cats.ids
      refine hnodup.map_on fun d hd e he heq => ?_
      have hfound := (hopen d hd).2
      rw [heq, (hopen e he).2] at hfound
      exact (Option.some.inj hfound).symm
    · -- the last category is among those that are listed
      have hnodup : cats.docs.Nodup := List.Nodup.of_map _ cats.ids
      have hsub : cats.docs ⊆ cmsGetCategories cats := fun d hd =>
        List.mem_of_find?_eq_some (hopen d hd).2
      have hle := (List.subperm_of_subset hnodup hsub).length_le
      rw [cmsGetCategories, List.length_take] at hle
      omega
  · intro h d hd visitor url hurl
    rw [categoryOf_link hd visitor hurl, if_neg (h.nonempty d hd), categoryRoute, cmsGetCategories,
      List.take_of_length_le h.listed]
    exact find?_key_of_mem h.slugs hd

end

/-- Two languages of programming. -/
def twoLanguages : Categories where
  docs := [⟨lit "0123456789abcdef01234567", [(lit "en", lit "C")]⟩,
    ⟨lit "0123456789abcdef01234568", [(lit "en", lit "C++")]⟩]
  ids := by decide
  names := by decide

/-- Their names are two, and no link opens the second. -/
theorem not_categoryLinksOpen_twoLanguages :
    (twoLanguages.docs.map fun d => resolveLangMap d.name (lit "en")) = [lit "C", lit "C++"] ∧
      ¬ CategoryLinksOpen (lit "en") twoLanguages := by
  refine ⟨by decide, fun h => ?_⟩
  have hother : categoryOf (lit "en") twoLanguages none (lit "/blog/category/c") ≠
      some ⟨lit "0123456789abcdef01234568", [(lit "en", lit "C++")]⟩ := by decide
  exact hother (h _ (by decide) none _ (by decide))

end BoatRudder.WebServer
