import BoatRudder.WebServer.Dispatch
import BoatRudder.WebServer.EntryMeta

/-! # What the address of an entry shows

A GET below `/page/` or `/blog/` finds an entry by its link alone, and then asks for its type; some
addresses below `/blog/` are other pages. Every published entry is what its address shows all along a
run exactly when no save gives two entries one link, or a published one the address of such a page
(**`shown_iff_along`**). -/

namespace BoatRudder.WebServer

open Db Collection

/-! ## The routes -/

/-- Who asks: the role of the session, if there is one. -/
abbrev Visitor := Option Bytes

namespace Visitor

/-- `request_user_is_admin`. -/
def isAdmin (visitor : Visitor) : Bool := visitor == some (lit "admin")

/-- `viewer_can_preview_drafts`. -/
def canPreviewDrafts : Visitor → Bool
  | none => false
  | some role => role != lit "moderator" && role != lit "commenter"

end Visitor

/-- `is_site_content_route`. -/
def isSiteContentRoute (url : Bytes) : Bool :=
  url == lit "/" || lit "/page/" <+: url || url == lit "/blog" || lit "/blog/" <+: url ||
    url == lit "/menu" || url == lit "/search"

/-- The pages for addresses that are below `/page/` or `/blog`. -/
inductive SitePage
  | underConstruction
  | page (link : Bytes)
  | blog
  | category (slug : Bytes)
  | categories
  | commentForm (link : Bytes)
  | blogEntry (link : Bytes)
  /-- The address is not one of these. -/
  | other
  deriving DecidableEq, Repr

/-- The branches for GET that such an address passes, in order. -/
def sitePage (underConstruction : Bool) (visitor : Visitor) (url : Bytes) : SitePage :=
  if isSiteContentRoute url && !visitor.isAdmin && underConstruction then .underConstruction
  else if lit "/page/" <+: url ∧ 6 < url.length then .page (url.drop 6)
  else if url = lit "/blog" then .blog
  else if lit "/blog/category/" <+: url ∧ 15 < url.length then .category (url.drop 15)
  else if url = lit "/blog/categories" then .categories
  else if lit "/blog/" <+: url ∧ 6 + 8 < url.length ∧ lit "/comment" <:+ url ∧
      47 ∉ (url.drop 6).take (url.length - 6 - 8) then
    -- `link[256]`
    .commentForm (((url.drop 6).take (url.length - 6 - 8)).take 255)
  else if lit "/blog/" <+: url ∧ 6 < url.length then .blogEntry (url.drop 6)
  else .other

/-- What a GET is answered with. -/
inductive GetAnswer
  | entry (e : EntryDoc)
  | notFound
  /-- A page that is no entry. -/
  | page (p : SitePage)
  deriving DecidableEq, Repr

section

variable (underConstruction : Bool) (entries : Entries) (order : FindOrder EntryDoc)

/-- `cms_get_entry_by_link`. -/
def getEntryByLinkIn (link : Bytes) (includeDrafts : Bool) : Option EntryDoc :=
  order.find (fun e => e.link = link && (includeDrafts || e.enabled)) entries

/-- `serve_cms_entry`. -/
def serveCmsEntry (link expectedType : Bytes) (includeDrafts : Bool) : GetAnswer :=
  match getEntryByLinkIn entries order link includeDrafts with
  | none => .notFound
  | some e => if e.type ≠ expectedType then .notFound else .entry e

/-- The answer to a GET. -/
def answerGet (visitor : Visitor) (url : Bytes) : GetAnswer :=
  match sitePage underConstruction visitor (decodedUrl url) with
  | .page link => serveCmsEntry entries order link (lit "page") visitor.canPreviewDrafts
  | .blogEntry link => serveCmsEntry entries order link (lit "blog") visitor.canPreviewDrafts
  | p => .page p

/-! ## Published entries -/

/-- An enabled entry of the blog or a page, with a link. -/
def IsPublished (e : EntryDoc) : Prop :=
  e.enabled = true ∧ (e.type = lit "blog" ∨ e.type = lit "page") ∧ e.link ≠ []

instance (e : EntryDoc) : Decidable (IsPublished e) := inferInstanceAs (Decidable (_ ∧ _ ∧ _))

/-- The address of an entry. -/
def entryUrl (e : EntryDoc) : Bytes := lit "/" ++ e.type ++ lit "/" ++ percentEncode e.link

/-- **Every published entry is what its address shows** to every visitor. -/
def Shown : Prop :=
  ∀ e ∈ entries, IsPublished e → ∀ visitor order,
    answerGet underConstruction entries order visitor (entryUrl e) = .entry e

/-- An address below `/blog/` that is another page's. -/
def IsTaken (link : Bytes) : Prop :=
  link = lit "categories" ∨ (lit "category/" <+: link ∧ 9 < link.length) ∨
    (8 < link.length ∧ lit "/comment" <:+ link ∧ 47 ∉ link.take (link.length - 8))

instance (link : Bytes) : Decidable (IsTaken link) := inferInstanceAs (Decidable (_ ∨ _ ∨ _))

/-- **The condition**: a save that publishes an entry finds the site open and gives it an address of its
own; and the link it stores is that of no other entry, when one of the two is published. -/
def GivesOwnAddress (event : EntryEvent) : Prop :=
  ∀ e e', event.saved underConstruction entries = some (e, e') →
    (IsPublished e' → underConstruction = false ∧ (e'.type = lit "blog" → ¬ IsTaken e'.link)) ∧
      ∀ d ∈ entries, d.id ≠ e.id → d.link = e'.link → ¬ IsPublished d ∧ ¬ IsPublished e'

end

/-! ## Addresses -/

section

variable {e : EntryDoc}
variable {underConstruction : Bool} {entries : Entries} {link : Bytes}

/-- An address is decoded to what it was made of. -/
theorem decodedUrl_percentEncode {a : Bytes} (hplain : Plain a) (hends : 35 ∉ a ∧ 63 ∉ a)
    (hlength : a.length ≤ 255) (hlink : LinkFits link) : decodedUrl (a ++ percentEncode link) = a ++ link := by
  have hpath : rawPath (a ++ percentEncode link) = a ++ percentEncode link := by
    rw [rawPath, List.takeWhile_eq_self_iff]
    intro c hc
    rcases List.mem_append.mp hc with hc | hc
    · simpa using ⟨fun h => hends.2 (h ▸ hc), fun h => hends.1 (h ▸ hc)⟩
    · simpa using (mem_percentEncode hc).symm
  have hlen := length_percentEncode_le link
  have hzero : 0 ∉ a ++ link := by
    intro h
    rcases List.mem_append.mp h with h | h
    · exact (hplain 0 h).2.2 rfl
    · exact hlink.2 h
  have hfits := hlink.1
  rw [decodedUrl_eq, hpath, List.take_of_length_le (by rw [List.length_append]; omega),
    urlDecode_append_of_plain hplain, urlDecode_eq, formDecode_percentEncode, cstr_eq_self hzero]

/-- Below `/page/` every address is an entry's. -/
theorem sitePage_page (visitor : Visitor) (hlink : link ≠ []) :
    sitePage false visitor (lit "/page/" ++ link) = .page link := by
  have hlength : 6 < (lit "/page/" ++ link).length := by
    rw [List.length_append]
    exact Nat.lt_add_of_pos_right (List.length_pos_iff.mpr hlink)
  rw [sitePage, Bool.and_false, if_neg Bool.false_ne_true, if_pos ⟨List.prefix_append _ _, hlength⟩]
  rfl

/-- The ending `/comment` of an address is one of the link, when that is longer. -/
theorem comment_suffix_iff (h : 8 < link.length) :
    lit "/comment" <:+ lit "/blog/" ++ link ↔ lit "/comment" <:+ link := by
  constructor
  · intro hsuffix
    exact List.suffix_of_suffix_length_le hsuffix (List.suffix_append _ _) (Nat.le_of_lt h)
  · exact fun hsuffix => hsuffix.trans (List.suffix_append _ _)

/-- **Below `/blog/`** an address is an entry's when it is not taken. -/
theorem sitePage_blog (visitor : Visitor) (hlink : link ≠ []) :
    sitePage false visitor (lit "/blog/" ++ link) = .blogEntry link ↔ ¬ IsTaken link := by
  have hlength : (lit "/blog/" ++ link).length = 6 + link.length := List.length_append
  have hpos := List.length_pos_iff.mpr hlink
  have hpage : ¬ (lit "/page/" <+: lit "/blog/" ++ link) := by
    show ¬ ([47, 112, 97, 103, 101, 47] <+: 47 :: 98 :: ([108, 111, 103, 47] ++ link))
    simp
  have hblog : lit "/blog/" ++ link ≠ lit "/blog" := by
    intro h
    have hlen := congrArg List.length h
    rw [hlength, show (lit "/blog").length = 5 from rfl] at hlen
    omega
  have hcategory : lit "/blog/category/" <+: lit "/blog/" ++ link ∧ 15 < (lit "/blog/" ++ link).length ↔
      lit "category/" <+: link ∧ 9 < link.length := by
    rw [show lit "/blog/category/" = lit "/blog/" ++ lit "category/" from rfl, List.prefix_append_right_inj,
      hlength]
    exact and_congr_right fun _ => by omega
  have hcategories : lit "/blog/" ++ link = lit "/blog/categories" ↔ link = lit "categories" := by
    rw [show lit "/blog/categories" = lit "/blog/" ++ lit "categories" from rfl, List.append_cancel_left_eq]
  have hcomment : lit "/blog/" <+: lit "/blog/" ++ link ∧ 6 + 8 < (lit "/blog/" ++ link).length ∧
        lit "/comment" <:+ lit "/blog/" ++ link ∧
        47 ∉ ((lit "/blog/" ++ link).drop 6).take ((lit "/blog/" ++ link).length - 6 - 8) ↔
      8 < link.length ∧ lit "/comment" <:+ link ∧ 47 ∉ link.take (link.length - 8) := by
    have hfront : (lit "/blog/" ++ link).length - 6 - 8 = link.length - 8 := by omega
    have hlong : 6 + 8 < (lit "/blog/" ++ link).length ↔ 8 < link.length := by omega
    rw [hfront, hlong, show (lit "/blog/" ++ link).drop 6 = link from rfl]
    constructor
    · rintro ⟨-, hlen, hsuffix, hslash⟩
      exact ⟨hlen, (comment_suffix_iff hlen).mp hsuffix, hslash⟩
    · rintro ⟨hlen, hsuffix, hslash⟩
      exact ⟨List.prefix_append _ _, hlen, (comment_suffix_iff hlen).mpr hsuffix, hslash⟩
  rw [sitePage, Bool.and_false, if_neg Bool.false_ne_true, if_neg (fun h => hpage h.1), if_neg hblog]
  by_cases h₁ : lit "category/" <+: link ∧ 9 < link.length
  · rw [if_pos (hcategory.mpr h₁)]
    exact iff_of_false nofun (not_not_intro (Or.inr (Or.inl h₁)))
  rw [if_neg (mt hcategory.mp h₁)]
  by_cases h₂ : link = lit "categories"
  · rw [if_pos (hcategories.mpr h₂)]
    exact iff_of_false nofun (not_not_intro (Or.inl h₂))
  rw [if_neg (mt hcategories.mp h₂)]
  by_cases h₃ : 8 < link.length ∧ lit "/comment" <:+ link ∧ 47 ∉ link.take (link.length - 8)
  · rw [if_pos (hcomment.mpr h₃)]
    exact iff_of_false nofun (not_not_intro (Or.inr (Or.inr h₃)))
  rw [if_neg (mt hcomment.mp h₃), if_pos ⟨List.prefix_append _ _, by omega⟩]
  exact iff_of_true rfl fun h => h.elim h₂ fun h => h.elim h₁ h₃

/-- Under construction nobody but an administrator gets to an entry. -/
theorem sitePage_underConstruction {url : Bytes} (h : isSiteContentRoute url = true) :
    sitePage true none url = .underConstruction := by
  rw [sitePage, h]
  rfl

/-! ## One state -/

/-- The published entries have addresses of their own. -/
def Addressed (underConstruction : Bool) (entries : Entries) : Prop :=
  ∀ e ∈ entries, IsPublished e → underConstruction = false ∧ (e.type = lit "blog" → ¬ IsTaken e.link) ∧
    ∀ d ∈ entries, d.link = e.link → d = e

/-- The address of a published entry, decoded. -/
theorem decodedUrl_entryUrl (h : IsPublished e) (hlink : LinkFits e.link) :
    decodedUrl (entryUrl e) = lit "/" ++ e.type ++ lit "/" ++ e.link := by
  obtain ⟨-, htype | htype, -⟩ := h <;> rw [entryUrl, htype] <;>
    exact decodedUrl_percentEncode (by decide) (by decide) (by decide) hlink

/-- What is served is the entry that is found, and of the type that is asked for. -/
theorem serveCmsEntry_eq_entry {order : FindOrder EntryDoc} {type : Bytes} {drafts : Bool}
    (h : serveCmsEntry entries order link type drafts = .entry e) :
    getEntryByLinkIn entries order link drafts = some e ∧ e.type = type := by
  rw [serveCmsEntry] at h
  cases hfind : getEntryByLinkIn entries order link drafts with
  | none =>
    rw [hfind] at h
    cases h
  | some d =>
    rw [hfind] at h
    dsimp only at h
    split_ifs at h with htype
    obtain rfl := GetAnswer.entry.inj h
    exact ⟨rfl, not_not.mp htype⟩

theorem link_of_getEntryByLinkIn {order : FindOrder EntryDoc} {drafts : Bool}
    (h : getEntryByLinkIn entries order link drafts = some e) : e.link = link := by
  have hfound := FindOrder.of_find h
  rw [Bool.and_eq_true] at hfound
  exact of_decide_eq_true hfound.1

/-- The address of a published entry leads to the search for it, when the site is open and the address is
not taken. -/
theorem answerGet_entryUrl (h : IsPublished e) (hlink : LinkFits e.link)
    (hown : e.type = lit "blog" → ¬ IsTaken e.link) (order : FindOrder EntryDoc) (visitor : Visitor) :
    answerGet false entries order visitor (entryUrl e) =
      serveCmsEntry entries order e.link e.type visitor.canPreviewDrafts := by
  rw [answerGet, decodedUrl_entryUrl h hlink]
  rcases h.2.1 with htype | htype
  · rw [htype, show lit "/" ++ lit "blog" ++ lit "/" = lit "/blog/" from rfl,
      (sitePage_blog visitor h.2.2).mpr (hown htype)]
  · rw [htype, show lit "/" ++ lit "page" ++ lit "/" = lit "/page/" from rfl, sitePage_page visitor h.2.2]

/-- Under construction a reader gets to no entry. -/
theorem answerGet_underConstruction (h : IsPublished e) (hlink : LinkFits e.link)
    (order : FindOrder EntryDoc) :
    answerGet true entries order none (entryUrl e) = .page .underConstruction := by
  have hroute : isSiteContentRoute (lit "/" ++ e.type ++ lit "/" ++ e.link) = true := by
    rw [isSiteContentRoute]
    simp only [Bool.or_eq_true, decide_eq_true_eq]
    rcases h.2.1 with htype | htype
    · have hprefix : lit "/blog/" <+: lit "/" ++ e.type ++ lit "/" ++ e.link := by
        rw [htype]
        exact List.prefix_append _ _
      exact Or.inl (Or.inl (Or.inr hprefix))
    · have hprefix : lit "/page/" <+: lit "/" ++ e.type ++ lit "/" ++ e.link := by
        rw [htype]
        exact List.prefix_append _ _
      exact Or.inl (Or.inl (Or.inl (Or.inl (Or.inr hprefix))))
  rw [answerGet, decodedUrl_entryUrl h hlink, sitePage_underConstruction hroute]

/-- An entry of the blog is not served at an address that is taken. -/
theorem not_isTaken_of_answerGet {order : FindOrder EntryDoc} {visitor : Visitor}
    (h : IsPublished e) (hlink : LinkFits e.link) (htype : e.type = lit "blog")
    (hanswer : answerGet false entries order visitor (entryUrl e) = .entry e) : ¬ IsTaken e.link := by
  rw [answerGet, decodedUrl_entryUrl h hlink, htype,
    show lit "/" ++ lit "blog" ++ lit "/" = lit "/blog/" from rfl] at hanswer
  rw [← sitePage_blog visitor h.2.2]
  cases hpage : sitePage false visitor (lit "/blog/" ++ e.link) with
  | page l =>
    rw [hpage] at hanswer
    have hother := (serveCmsEntry_eq_entry hanswer).2
    rw [htype] at hother
    exact absurd hother (by decide)
  | blogEntry l =>
    rw [hpage] at hanswer
    rw [link_of_getEntryByLinkIn (serveCmsEntry_eq_entry hanswer).1]
  | _ =>
    rw [hpage] at hanswer
    cases hanswer

/-- **A state's published entries are shown** exactly when they have addresses of their own. -/
theorem shown_iff (hstored : WellStored entries) :
    Shown underConstruction entries ↔ Addressed underConstruction entries := by
  constructor
  · intro h e he hpublished
    have hlink := hstored.links e he
    have hopen : underConstruction = false := by
      rw [← Bool.not_eq_true]
      rintro rfl
      have hanswer := h e he hpublished none .natural
      rw [answerGet_underConstruction hpublished hlink] at hanswer
      cases hanswer
    subst hopen
    have hown (htype : e.type = lit "blog") : ¬ IsTaken e.link :=
      not_isTaken_of_answerGet hpublished hlink htype (h e he hpublished none .natural)
    refine ⟨rfl, hown, fun d hd hsame => ?_⟩
    -- an author may find the other one first, if it is a draft too
    have hanswer := h e he hpublished (some (lit "author")) (.withFirst d)
    rw [answerGet_entryUrl hpublished hlink hown] at hanswer
    have hfirst : getEntryByLinkIn entries (.withFirst d) e.link true = some d :=
      FindOrder.find_withFirst hd (by simp [hsame])
    exact Option.some.inj (hfirst.symm.trans (serveCmsEntry_eq_entry hanswer).1)
  · intro h e he hpublished visitor order
    obtain ⟨rfl, hown, hunique⟩ := h e he hpublished
    rw [answerGet_entryUrl hpublished (hstored.links e he) hown, serveCmsEntry]
    have hfind : getEntryByLinkIn entries order e.link visitor.canPreviewDrafts = some e := by
      apply FindOrder.find_eq_some_of_unique he
      · simp [hpublished.1]
      · intro d hd hlink
        exact hunique d hd (by simpa using And.left (by simpa using hlink))
    rw [hfind]
    simp

/-! ## Runs -/

theorem isPublished_new (oid : IdHex) (creator : Option Bytes) (type : Bytes) :
    ¬ IsPublished (.new oid creator type) := fun h => Bool.false_ne_true h.1

/-- A new entry is nobody's neighbour yet. -/
theorem Addressed.concat_new (h : Addressed underConstruction entries) (oid : IdHex) (creator : Option Bytes)
    (type : Bytes) : Addressed underConstruction (entries ++ [.new oid creator type]) := by
  intro e he hpublished
  rcases List.mem_append.mp he with he | he
  · obtain ⟨hopen, hown, hunique⟩ := h e he hpublished
    refine ⟨hopen, hown, fun d hd hlink => ?_⟩
    rcases List.mem_append.mp hd with hd | hd
    · exact hunique d hd hlink
    · rw [List.mem_singleton.mp hd] at hlink
      exact absurd hlink.symm hpublished.2.2
  · rw [List.mem_singleton.mp he] at hpublished
    exact absurd hpublished (isPublished_new oid creator type)

theorem Addressed.sublist {entries' : Entries} (h : Addressed underConstruction entries)
    (hsub : entries'.Sublist entries) : Addressed underConstruction entries' := by
  intro e he hpublished
  obtain ⟨hopen, hown, hunique⟩ := h e (hsub.subset he) hpublished
  exact ⟨hopen, hown, fun d hd => hunique d (hsub.subset hd)⟩

/-- **An entry that is saved** keeps every published one at an address of its own exactly when it gets one,
and takes none. -/
theorem addressed_saved_iff {a b : List EntryDoc} {e' : EntryDoc}
    (hids : ((a ++ e :: b).map (·.id)).Nodup) (hid : e'.id = e.id)
    (h : Addressed underConstruction (a ++ e :: b)) : Addressed underConstruction (a ++ e' :: b) ↔
      (IsPublished e' → underConstruction = false ∧ (e'.type = lit "blog" → ¬ IsTaken e'.link)) ∧
        ∀ d ∈ a ++ e :: b, d.id ≠ e.id → d.link = e'.link → ¬ IsPublished d ∧ ¬ IsPublished e' := by
  obtain ⟨hnew, -⟩ : e.id ∉ (a ++ b).map (·.id) ∧ _ := by
    rw [List.map_append, List.map_cons, List.nodup_middle, ← List.map_append] at hids
    exact List.nodup_cons.mp hids
  -- the others are those with another id
  have hother : ∀ d, d ∈ a ++ e :: b ∧ d.id ≠ e.id ↔ d ∈ a ++ b := by
    intro d
    rw [List.mem_append, List.mem_cons, List.mem_append]
    constructor
    · rintro ⟨hd | rfl | hd, hne⟩
      · exact Or.inl hd
      · exact absurd rfl hne
      · exact Or.inr hd
    · intro hd
      refine ⟨hd.imp_right Or.inr, fun heq => hnew ?_⟩
      rw [← heq]
      exact List.mem_map_of_mem (List.mem_append.mpr hd)
  have hmem : ∀ d, d ∈ a ++ e' :: b ↔ d = e' ∨ d ∈ a ++ b := by
    intro d
    rw [List.mem_append, List.mem_cons, List.mem_append]
    tauto
  have hsaved : ∀ d ∈ a ++ b, d ≠ e' := by
    rintro d hd rfl
    exact ((hother d).mpr hd).2 hid
  constructor
  · intro h'
    refine ⟨fun hp => ?_, fun d hd hne hlink => ?_⟩
    · obtain ⟨hopen, hown, -⟩ := h' e' ((hmem e').mpr (Or.inl rfl)) hp
      exact ⟨hopen, hown⟩
    · have hd' := (hother d).mp ⟨hd, hne⟩
      refine ⟨fun hp => ?_, fun hp => ?_⟩
      · obtain ⟨-, -, hunique⟩ := h' d ((hmem d).mpr (Or.inr hd')) hp
        exact hsaved d hd' (hunique e' ((hmem e').mpr (Or.inl rfl)) hlink.symm).symm
      · obtain ⟨-, -, hunique⟩ := h' e' ((hmem e').mpr (Or.inl rfl)) hp
        exact hsaved d hd' (hunique d ((hmem d).mpr (Or.inr hd')) hlink)
  · rintro ⟨hown, hlinks⟩ d hd hp
    rcases (hmem d).mp hd with rfl | hd'
    · refine ⟨(hown hp).1, (hown hp).2, fun c hc hlink => ?_⟩
      rcases (hmem c).mp hc with rfl | hc'
      · rfl
      · obtain ⟨hc, hne⟩ := (hother c).mpr hc'
        exact absurd hp (hlinks c hc hne hlink).2
    · obtain ⟨hbefore, hne⟩ := (hother d).mpr hd'
      obtain ⟨hopen, hown', hunique⟩ := h d hbefore hp
      refine ⟨hopen, hown', fun c hc hlink => ?_⟩
      rcases (hmem c).mp hc with rfl | hc'
      · exact absurd hp (hlinks d hbefore hne hlink.symm).1
      · exact hunique c ((hother c).mpr hc').1 hlink

/-- **Every published entry is what its address shows**, all along a run, exactly when every save gives an
entry an address of its own. -/
theorem shown_iff_along (underConstruction : Bool) (run : List EntryEvent) :
    (∀ pre, pre <+: run → Shown underConstruction ((entriesMachine underConstruction).after pre)) ↔
      (entriesMachine underConstruction).Along (GivesOwnAddress underConstruction) run := by
  refine Machine.always_iff_along ?_ (fun as event h => ?_) run
  · exact fun e he => absurd he List.not_mem_nil
  · have hstored : WellStored ((entriesMachine underConstruction).after as) := wellStored_after as
    generalize (entriesMachine underConstruction).after as = entries at h hstored
    rw [shown_iff hstored] at h
    show Shown underConstruction (event.step underConstruction entries).1 ↔ _
    rw [shown_iff (wellStored_step hstored event)]
    rcases EntryEvent.step_cases underConstruction hstored.ids event with
      ⟨e, e', a, b, hsaved, rfl, hstep⟩ | ⟨hnone, hstep⟩
    · rw [hstep, addressed_saved_iff hstored.ids (EntryEvent.of_saved hsaved).1 h]
      constructor
      · intro hcond d d' hd
        obtain ⟨rfl, rfl⟩ := Prod.mk.inj (Option.some.inj (hsaved.symm.trans hd))
        exact hcond
      · exact fun hcond => hcond e e' hsaved
    · refine iff_of_true ?_ fun e e' hsaved => by cases hnone.symm.trans hsaved
      rcases hstep with ⟨oid, creator, type, -, hstep⟩ | hsub
      · rw [hstep]
        exact h.concat_new oid creator type
      · exact h.sublist hsub

end

/-! ## Two entries with one link -/

/-- Ana, an administrator, publishes a page; the author Bo saves a draft with the same link. -/
def sameLinkRun : List EntryEvent :=
  let ana : Editor := ⟨.admin, lit "0b0000000000000000000001"⟩
  let bo : Editor := ⟨.author, lit "0b0000000000000000000002"⟩
  [.create ana (lit "0a0000000000000000000001") .done,
    .saveMeta ana (lit "0a0000000000000000000001") (lit "link=news&type=page&enabled=1") .done,
    .create bo (lit "0a0000000000000000000002") .done,
    .saveMeta bo (lit "0a0000000000000000000002") (lit "link=news&enabled=1") .done]

/-- A reader who asks for the page is told that there is none. -/
theorem not_shown_sameLinkRun : ¬ Shown false ((entriesMachine false).after sameLinkRun) := by
  intro h
  have hpage : ∃ e ∈ (entriesMachine false).after sameLinkRun, IsPublished e ∧
      ∃ d ∈ (entriesMachine false).after sameLinkRun, answerGet false ((entriesMachine false).after sameLinkRun)
        (.withFirst d) none (entryUrl e) = .notFound := by
    decide
  obtain ⟨e, he, hpublished, d, -, hanswer⟩ := hpage
  rw [h e he hpublished none (.withFirst d)] at hanswer
  cases hanswer

end BoatRudder.WebServer
