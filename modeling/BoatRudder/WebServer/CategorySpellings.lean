import BoatRudder.Text.SpacedWords
import BoatRudder.WebServer.CategoryLinks

/-! # The spelling of the name of a category

A slug is what the words of a name make: capital letters, other separators between the words, and
characters that no slug has are the spelling of the name, and the links to a category do not depend on
it. -/

namespace BoatRudder.WebServer

open Db

/-! ## Spelling -/

/-- What stands between the words of a name. -/
def isSlugSeparator (c : UInt8) : Bool := c == 32 || c == 45 || c == 95

/-- What a slug leaves out. -/
def isSlugDropped (c : UInt8) : Bool := !(isUpper c || isLower c || isDigit c || isSlugSeparator c)

/-- One change to the spelling of a name. -/
inductive Respelling : Bytes → Bytes → Prop
  /-- A letter becomes a small one. -/
  | letter (a b : Bytes) {c : UInt8} (hc : isUpper c = true) : Respelling (a ++ c :: b) (a ++ (c + 32) :: b)
  /-- Blanks, hyphens and underscores are replaced by others. -/
  | run (a b : Bytes) {r r' : Bytes} (hr : r ≠ [] ∧ r.all isSlugSeparator = true)
      (hr' : r' ≠ [] ∧ r'.all isSlugSeparator = true) : Respelling (a ++ r ++ b) (a ++ r' ++ b)
  /-- A character that is dropped is put in. -/
  | dropped (a b : Bytes) {c : UInt8} (hc : isSlugDropped c = true) : Respelling (a ++ b) (a ++ c :: b)

/-- Two spellings of one name: changes in any number and order, and undone. -/
def SameSpelling : Bytes → Bytes → Prop := Relation.EqvGen Respelling

/-- Nothing, or words of small letters and digits with single hyphens between them. -/
structure CanonicalSlug (slug : Bytes) : Prop where
  words : ∃ ws : List Bytes, (∀ w ∈ ws, w ≠ [] ∧ ∀ c ∈ w, isLower c = true ∨ isDigit c = true) ∧
    slug = [45].intercalate ws
  leading : slug.head? ≠ some 45
  trailing : slug.getLast? ≠ some 45

/-- The link to a category of this name. -/
def categoryLink (name : Bytes) : Bytes := lit "/blog/category/" ++ slugify name

/-- The same categories, with their names spelled in another way. -/
def Respelled (lang : Bytes) (cats cats' : Categories) : Prop :=
  List.Forall₂ (fun d d' : CategoryDoc => d'.id = d.id ∧
    SameSpelling (resolveLangMap d.name lang) (resolveLangMap d'.name lang)) cats.docs cats'.docs

/-- What is asked of slugs. -/
structure SlugsCanonical : Prop where
  canonical : ∀ name : Bytes, CanonicalSlug (slugify name)
  idempotent : ∀ name : Bytes, slugify (slugify name) = slugify name
  respelled : ∀ {name name' : Bytes}, SameSpelling name name' → slugify name = slugify name'
  /-- A link built from any spelling opens the same category. -/
  opened : ∀ (lang : Bytes) (cats : Categories) (visitor : Visitor) {name name' url url' : Bytes},
    SameSpelling name name' → urlPathIs url (categoryLink name) = true →
    urlPathIs url' (categoryLink name') = true →
    categoryOf lang cats visitor url = categoryOf lang cats visitor url'
  /-- A link opens the same category after its name is spelled in another way. -/
  renamed : ∀ (lang : Bytes) (cats cats' : Categories) (visitor : Visitor) (url : Bytes),
    Respelled lang cats cats' →
    (categoryOf lang cats visitor url).map (·.id) = (categoryOf lang cats' visitor url).map (·.id)

/-! ## Slugs and words -/

/-- What is written for a byte, with a hyphen for a separator. -/
def slugByte (c : UInt8) : Option UInt8 :=
  if isUpper c then some (c + 32)
  else if isLower c || isDigit c then some c
  else if isSlugSeparator c then some 45
  else none

/-- A small letter or a digit is written as it is. -/
theorem slugByte_of_kept {c : UInt8} (h : isLower c = true ∨ isDigit c = true) : slugByte c = some c := by
  have hupper : isUpper c = false := by
    simp only [isLower, isDigit, isUpper, Bool.and_eq_true, Bool.and_eq_false_iff, decide_eq_true_eq,
      decide_eq_false_iff_not, UInt8.le_iff_toNat_le, UInt8.reduceToNat] at h ⊢
    omega
  rw [slugByte, hupper, if_neg Bool.false_ne_true, if_pos (by rw [Bool.or_eq_true]; exact h)]

/-- A small letter or a digit, or a hyphen for a separator. -/
theorem slugByte_spec (c : UInt8) :
    (isUpper c = true → slugByte c = some (c + 32) ∧ slugByte (c + 32) = some (c + 32)) ∧
    (isSlugSeparator c = true → slugByte c = some 45) ∧
    (isSlugDropped c = true → slugByte c = none) ∧
    (isUpper c = true → c + 32 ≠ 45) ∧ (isLower c = true ∨ isDigit c = true → c ≠ 45) ∧
    ∀ b ∈ slugByte c, isLower b = true ∨ isDigit b = true ∨ b = 45 := by
  refine ⟨fun hup => ⟨if_pos hup, slugByte_of_kept (Or.inl (isLower_add_32 hup))⟩, fun hsep => ?_,
    fun hdrop => ?_, fun hup h45 => ?_, fun hkept h45 => ?_, fun b hb => ?_⟩
  · simp only [isSlugSeparator, Bool.or_eq_true, beq_iff_eq] at hsep
    rcases hsep with (rfl | rfl) | rfl <;> rfl
  · simp only [isSlugDropped, Bool.not_eq_true', Bool.or_eq_false_iff] at hdrop
    obtain ⟨⟨⟨hup, hlow⟩, hdig⟩, hsep⟩ := hdrop
    simp [slugByte, hup, hlow, hdig, hsep]
  · have hlow := isLower_add_32 hup
    rw [h45] at hlow
    exact absurd hlow (by decide)
  · rw [h45] at hkept
    exact absurd hkept (by decide)
  · rw [slugByte] at hb
    split_ifs at hb with hup hkept hsep
    · obtain rfl := Option.some.inj hb
      exact Or.inl (isLower_add_32 hup)
    · obtain rfl := Option.some.inj hb
      exact or_assoc.mp (Or.inl (by simpa using hkept))
    · exact Or.inr (Or.inr (Option.some.inj hb).symm)
    · cases hb

/-- A turn of the loop writes a byte, or a separator where one is missing. -/
theorem slugStep_eq (slug : Bytes) (c : UInt8) :
    slugStep slug c = match slugByte c with
      | some b => squeezeStep 45 slug b
      | none => slug := by
  obtain ⟨-, -, -, hupper, hkept, -⟩ := slugByte_spec c
  have hsep : (c = 32 ∨ c = 45 ∨ c = 95) ↔ isSlugSeparator c = true := by
    simp [isSlugSeparator, or_assoc]
  rw [slugStep, slugByte]
  simp only [hsep]
  split_ifs with hup hlow hrun hbefore
  · simp only [squeezeStep, if_neg (hupper hup)]
  · rw [Bool.or_eq_true] at hlow
    simp only [squeezeStep, if_neg (hkept hlow)]
  · simp only [squeezeStep, if_pos hbefore, if_true]
  · simp only [squeezeStep, if_neg hbefore, if_true]
  · rfl

/-- The loop of `slugify` writes what is not dropped. -/
theorem foldl_slugStep (name slug : Bytes) :
    name.foldl slugStep slug = (name.filterMap slugByte).foldl (squeezeStep 45) slug := by
  induction name generalizing slug with
  | nil => rfl
  | cons c name ih =>
    rw [List.foldl_cons, slugStep_eq]
    cases hc : slugByte c with
    | none =>
      rw [List.filterMap_cons_none hc]
      exact ih slug
    | some b =>
      rw [List.filterMap_cons_some hc]
      exact ih (squeezeStep 45 slug b)

theorem slugify_eq (name : Bytes) : slugify name = squeeze 45 (name.filterMap slugByte) := by
  rw [slugify, foldl_slugStep]
  rfl

/-- The words of a name. -/
def slugWords (name : Bytes) : List Bytes := spacedWords 45 (name.filterMap slugByte)

/-- **Names have one slug exactly where they have the same words.** -/
theorem slugify_eq_iff {name name' : Bytes} :
    slugify name = slugify name' ↔ slugWords name = slugWords name' := by
  rw [slugify_eq, slugify_eq, squeeze_eq_iff]
  rfl

/-- A word of a name is made of small letters and digits. -/
theorem slugWords_spec (name : Bytes) :
    ∀ w ∈ slugWords name, w ≠ [] ∧ ∀ c ∈ w, isLower c = true ∨ isDigit c = true := by
  intro w hw
  obtain ⟨⟨hne, hsep⟩, hsub⟩ := spacedWords_spec _ w hw
  refine ⟨hne, fun c hc => ?_⟩
  obtain ⟨d, -, hd⟩ := List.mem_filterMap.mp (hsub c hc)
  obtain ⟨-, -, -, -, -, hbyte⟩ := slugByte_spec d
  rcases hbyte c hd with h | h | rfl
  · exact Or.inl h
  · exact Or.inr h
  · exact absurd hc hsep

/-- **A slug is canonical.** -/
theorem canonicalSlug_slugify (name : Bytes) : CanonicalSlug (slugify name) := by
  have hwords : ∀ w ∈ slugWords name, w ≠ [] ∧ 45 ∉ w := fun w hw =>
    (spacedWords_spec _ w hw).1
  have heq : slugify name = [45].intercalate (slugWords name) := by
    rw [slugify_eq, squeeze_eq]
    rfl
  refine ⟨⟨slugWords name, slugWords_spec name, heq⟩, ?_, ?_⟩
  · rw [heq]
    exact head?_joined hwords
  · rw [heq]
    exact getLast?_joined hwords

example : slugify (lit "_Operating -- Systems!") = lit "operating-systems" := by decide

/-- **A slug is its own slug.** -/
theorem slugify_slugify (name : Bytes) : slugify (slugify name) = slugify name := by
  have hself : (slugify name).filterMap slugByte = slugify name := by
    refine (List.filterMap_congr fun c hc => ?_).trans List.filterMap_some
    have hslug := isSlugByte_slugify hc
    simp only [isSlugByte, Bool.or_eq_true, beq_iff_eq] at hslug
    rcases hslug with hkept | rfl
    · exact slugByte_of_kept hkept
    · rfl
  rw [slugify_eq (slugify name), hself, slugify_eq, squeeze_squeeze]

/-! ## One name, one slug -/

/-- A run of separators is a run of hyphens. -/
theorem filterMap_run {r : Bytes} (hr : r ≠ [] ∧ r.all isSlugSeparator = true) :
    r.filterMap slugByte ≠ [] ∧ ∀ c ∈ r.filterMap slugByte, c = 45 := by
  have hbyte : ∀ c ∈ r, slugByte c = some 45 := fun c hc =>
    (slugByte_spec c).2.1 (List.all_eq_true.mp hr.2 c hc)
  constructor
  · obtain ⟨c, hc⟩ := List.exists_mem_of_ne_nil r hr.1
    exact List.ne_nil_of_mem (List.mem_filterMap.mpr ⟨c, hc, hbyte c hc⟩)
  · intro b hb
    obtain ⟨c, hc, heq⟩ := List.mem_filterMap.mp hb
    rw [hbyte c hc] at heq
    exact (Option.some.inj heq).symm

/-- A change to the spelling changes no word. -/
theorem Respelling.slugWords {name name' : Bytes} (h : Respelling name name') :
    slugWords name = slugWords name' := by
  cases h with
  | @letter a b c hc =>
    obtain ⟨hletter, -⟩ := slugByte_spec c
    rw [WebServer.slugWords, WebServer.slugWords, List.filterMap_append, List.filterMap_append,
      List.filterMap_cons_some (hletter hc).1, List.filterMap_cons_some (hletter hc).2]
  | @run a b r r' hr hr' =>
    obtain ⟨hne, hall⟩ := filterMap_run hr
    obtain ⟨hne', hall'⟩ := filterMap_run hr'
    simp only [WebServer.slugWords, List.filterMap_append]
    rw [spacedWords_append_run hne hall, spacedWords_append_run hne' hall']
  | @dropped a b c hc =>
    obtain ⟨-, -, hdropped, -⟩ := slugByte_spec c
    rw [WebServer.slugWords, WebServer.slugWords, List.filterMap_append, List.filterMap_append,
      List.filterMap_cons_none (hdropped hc)]

/-- **One name has one slug**, however it is spelled. -/
theorem SameSpelling.slugify {name name' : Bytes} (h : SameSpelling name name') :
    slugify name = slugify name' := by
  induction h with
  | rel a b hstep => exact slugify_eq_iff.mpr hstep.slugWords
  | refl a => rfl
  | symm a b _ ih => exact ih.symm
  | trans a b c _ _ hab hbc => exact hab.trans hbc

/-! ## One name, one category -/

/-- The route that a link is dispatched on is that of its path. -/
theorem rawPath_of_categoryLink {url name : Bytes} (h : urlPathIs url (categoryLink name) = true) :
    rawPath url = categoryLink name := by
  refine rawPath_of_urlPathIs (List.forall_mem_append.mpr ⟨by decide, fun c hc => ?_⟩) h
  have hslug := isSlugByte_slugify hc
  constructor <;> rintro rfl <;> exact absurd hslug (by decide)

/-- Categories that are found by a slug are found by it when their names are spelled in another way. -/
theorem find?_respelled {lang slug : Bytes} {docs docs' : List CategoryDoc}
    (h : List.Forall₂ (fun d d' : CategoryDoc => d'.id = d.id ∧
      SameSpelling (resolveLangMap d.name lang) (resolveLangMap d'.name lang)) docs docs') :
    (docs.find? fun d => d.slug lang = slug).map (·.id) =
      (docs'.find? fun d => d.slug lang = slug).map (·.id) := by
  induction h with
  | nil => rfl
  | @cons d d' docs docs' hd _ ih =>
    have hslug : d'.slug lang = d.slug lang := hd.2.slugify.symm
    by_cases hfound : d.slug lang = slug
    · rw [List.find?_cons_of_pos (by simpa using hfound),
        List.find?_cons_of_pos (by simpa [hslug] using hfound)]
      exact congrArg some hd.1.symm
    · rw [List.find?_cons_of_neg (by simpa using hfound),
        List.find?_cons_of_neg (by simpa [hslug] using hfound)]
      exact ih

/-- **Slugs are canonical.** -/
theorem slugs_canonical : SlugsCanonical where
  canonical := canonicalSlug_slugify
  idempotent := slugify_slugify
  respelled h := h.slugify
  opened lang cats visitor name name' url url' h hurl hurl' := by
    have hlink : categoryLink name' = categoryLink name := congrArg (lit "/blog/category/" ++ ·) h.slugify.symm
    have hdecoded : decodedUrl url = decodedUrl url' := by
      rw [decodedUrl_eq, decodedUrl_eq, rawPath_of_categoryLink hurl, rawPath_of_categoryLink hurl', hlink]
    rw [categoryOf, categoryOf, hdecoded]
  renamed lang cats cats' visitor url h := by
    rw [categoryOf, categoryOf]
    cases sitePage false visitor (decodedUrl url) with
    | category slug => exact find?_respelled (List.forall₂_take _ h)
    | _ => rfl

end BoatRudder.WebServer
