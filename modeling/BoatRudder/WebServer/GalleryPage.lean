import BoatRudder.Db.EntryContent
import BoatRudder.WebServer.FormFields

/-! # The pages of a gallery

A gallery is saved as the pieces of a text and read back up to a cap. The old browsers page through it
by a remainder of the count that came back, which is a count of nothing when the text had no piece. -/

namespace BoatRudder.WebServer

open Db

/-! ## The gallery route -/

/-- How many addresses `cms_get_media_gallery` reads. -/
def galleryUrlsMax : ℕ := 128

/-- `cms_get_media_gallery`: the addresses of the gallery with an id. An id that cannot be read names
no gallery. -/
def cmsGetMediaGallery (s : EntryStore) (idHex : Bytes) : Option (List Bytes) :=
  match oidFromString idHex with
  | some oid => (s.galleries.find? fun g => g.id = oid).map (·.content.take galleryUrlsMax)
  | none => none

/-- What the gallery route answers, where its templates are there. -/
inductive GalleryAnswer where
  | notFound
  /-- The remainder by a count of zero, which ends the process. -/
  | zeroDivision
  /-- The page of a modern browser, with all the pictures. -/
  | all (urls : List Bytes)
  /-- The page of a text browser, with a code that leads to the gallery. -/
  | code
  /-- The page of another old browser: the picture it shows (none where the index is outside the list),
  the links to the previous and the next one, and the strip of all of them. -/
  | one (main : Option Bytes) (prev next : ℤ) (strip : List Bytes)
  deriving DecidableEq, Repr

/-- The gallery route. -/
def galleryRoute (s : EntryStore) (galleryId img : Bytes) (epoch : ℤ) : GalleryAnswer :=
  let imgIndex : ℤ := if img = [] then 0 else atoi img
  match cmsGetMediaGallery s galleryId with
  | none => .notFound
  | some urls =>
    if 3 ≤ epoch then .all urls
    else
      let count : ℤ := urls.length
      -- `(cur - 1 + count) % count`
      if count = 0 then .zeroDivision
      else
        let cur := if 0 ≤ imgIndex ∧ imgIndex < count then imgIndex else 0
        let prevIdx := (cur - 1 + count).tmod count
        let nextIdx := (cur + 1).tmod count
        if epoch ≤ 0 then .code else .one urls[cur.toNat]? prevIdx nextIdx urls

namespace GalleryAnswer

/-- The pictures of a page. -/
def images : GalleryAnswer → List Bytes
  | all urls => urls
  | one _ _ _ strip => strip
  | _ => []

/-- The picture a page is for. -/
def picture : GalleryAnswer → Option Bytes
  | one main _ _ _ => main
  | _ => none

/-- Where the link to the previous picture leads. -/
def prev : GalleryAnswer → ℤ
  | one _ prev _ _ => prev
  | _ => 0

/-- Where the link to the next picture leads. -/
def next : GalleryAnswer → ℤ
  | one _ _ next _ => next
  | _ => 0

end GalleryAnswer

/-! ## What is wanted -/

section Paging

variable (s : EntryStore) (galleryId : Bytes) (epoch : ℤ)

/-- The page of a picture, as a link asks for it. -/
def pageOf (i : ℤ) : GalleryAnswer := galleryRoute s galleryId (signed i) epoch

/-- The picture behind another one. -/
def nextOf (i : ℤ) : ℤ := (pageOf s galleryId epoch i).next

/-- The picture in front of another one. -/
def prevOf (i : ℤ) : ℤ := (pageOf s galleryId epoch i).prev

/-- A gallery can be paged through whole. -/
structure GalleryPaged (s : EntryStore) (galleryId : Bytes) (pieces : List Bytes) : Prop where
  answered : ∀ (img : Bytes) (epoch : ℤ), galleryRoute s galleryId img epoch ≠ .notFound ∧
    galleryRoute s galleryId img epoch ≠ .zeroDivision
  inside : ∀ (img : Bytes) (epoch : ℤ), 0 < epoch → epoch < 3 →
    (galleryRoute s galleryId img epoch).picture ≠ none
  shown : ∀ (img : Bytes) (epoch : ℤ), 0 < epoch → (galleryRoute s galleryId img epoch).images = pieces
  /-- Each piece once from the first picture on, in order, and then the first one again. -/
  around : ∀ epoch : ℤ, 0 < epoch → epoch < 3 →
    ((List.range pieces.length).map fun k =>
      (pageOf s galleryId epoch ((nextOf s galleryId epoch)^[k] 0)).picture) = pieces.map some ∧
    ((List.range pieces.length).map fun k => (nextOf s galleryId epoch)^[k] 0) =
      (List.range pieces.length).map Nat.cast ∧
    (nextOf s galleryId epoch)^[pieces.length] 0 = 0
  back : ∀ epoch : ℤ, 0 < epoch → epoch < 3 → ∀ i < pieces.length,
    prevOf s galleryId epoch (nextOf s galleryId epoch i) = i

end Paging

/-! ## Reading back what was saved -/

section Saved

variable {mint : ℕ → IdHex} {s : EntryStore} {galleryId text id : Bytes}

/-- A gallery that is named when it is saved is there, or else a new one is made. -/
def NamesGallery (s : EntryStore) (galleryId : Bytes) : Prop :=
  ∀ oid, oidFromString galleryId = some oid → ∃ g ∈ s.galleries, g.id = oid

/-- **A gallery that was saved is read back**, up to the cap, where it is there. -/
theorem cmsGetMediaGallery_upsert (hmint : ∀ k, oidFromString (mint k) = some (mint k))
    (hfresh : ∀ g ∈ s.galleries, g.id ≠ mint s.minted)
    (hsaved : (s.upsertMediaGallery mint galleryId text .done).2 = some id) :
    cmsGetMediaGallery (s.upsertMediaGallery mint galleryId text .done).1 id =
        some ((EntryStore.galleryUrls text).take galleryUrlsMax) ∧ NamesGallery s galleryId ∨
      cmsGetMediaGallery (s.upsertMediaGallery mint galleryId text .done).1 id = none ∧
        ¬ NamesGallery s galleryId := by
  rw [EntryStore.upsertMediaGallery] at hsaved ⊢
  cases hoid : oidFromString galleryId with
  | some oid =>
    rw [hoid] at hsaved
    obtain rfl : galleryId = id := Option.some.inj hsaved
    have hfind := @Collection.find?_updateOne _ (fun g : MediaGallery => decide (g.id = oid))
      (fun g => { g with content := EntryStore.galleryUrls text }) (fun _ h => h) s.galleries
    simp only [cmsGetMediaGallery, hoid, reduceCtorEq, if_false, hfind]
    cases hg : s.galleries.find? fun g => decide (g.id = oid) with
    | some g =>
      left
      refine ⟨rfl, fun oid' h => ⟨g, List.mem_of_find?_eq_some hg, ?_⟩⟩
      rw [← Option.some.inj (hoid.symm.trans h)]
      have hid := List.find?_some hg
      exact of_decide_eq_true hid
    | none =>
      right
      refine ⟨rfl, fun hnamed => ?_⟩
      obtain ⟨g, hmem, hid⟩ := hnamed oid hoid
      exact List.find?_eq_none.mp hg g hmem (decide_eq_true hid)
  | none =>
    rw [hoid] at hsaved
    obtain rfl : mint s.minted = id := Option.some.inj hsaved
    left
    have hold : (s.galleries.find? fun g => decide (g.id = mint s.minted)) = none :=
      List.find?_eq_none.mpr fun g hg hid => hfresh g hg (of_decide_eq_true hid)
    refine ⟨?_, fun oid h => by rw [hoid] at h; cases h⟩
    simp only [cmsGetMediaGallery, hmint, reduceCtorEq, if_false, List.find?_append, hold,
      List.find?_singleton, decide_true, if_true, Option.none_or, Option.map_some]

end Saved

/-! ## Around a ring -/

/-- A function that counts up to `n` and starts over counts from zero. -/
theorem iterate_ring {f : ℤ → ℤ} {n : ℕ} (hstep : ∀ i : ℕ, i + 1 < n → f i = i + 1) {k : ℕ}
    (hk : k < n) : f^[k] 0 = k := by
  induction k with
  | zero => rfl
  | succ k ih => rw [Function.iterate_succ_apply', ih (by omega), hstep k hk, Nat.cast_succ]

/-! ## The pages -/

section Pages

variable {s : EntryStore} {galleryId : Bytes} {urls : List Bytes}
  (hfound : cmsGetMediaGallery s galleryId = some urls)

include hfound

/-- The page of a modern browser. -/
theorem galleryRoute_modern (img : Bytes) {epoch : ℤ} (h3 : 3 ≤ epoch) :
    galleryRoute s galleryId img epoch = .all urls := by
  simp only [galleryRoute, hfound, if_pos h3]

/-- Without a picture there is a division by zero. -/
theorem galleryRoute_empty (hnil : urls = []) (img : Bytes) {epoch : ℤ} (h3 : epoch < 3) :
    galleryRoute s galleryId img epoch = .zeroDivision := by
  simp only [galleryRoute, hfound, if_neg (by omega : ¬ 3 ≤ epoch), hnil, List.length_nil,
    Nat.cast_zero, if_true]

/-- The page of a text browser. -/
theorem galleryRoute_text (hne : urls ≠ []) (img : Bytes) {epoch : ℤ} (h0 : epoch ≤ 0) :
    galleryRoute s galleryId img epoch = .code := by
  have hcount : ¬ (urls.length : ℤ) = 0 := by
    have := List.length_pos_iff.mpr hne
    omega
  simp only [galleryRoute, hfound, if_neg (by omega : ¬ 3 ≤ epoch), if_neg hcount, if_pos h0]

/-- A page of an old browser is for a picture of the gallery, with links to its neighbours on the
ring. -/
theorem galleryRoute_old (hne : urls ≠ []) (img : Bytes) {epoch : ℤ} (h0 : 0 < epoch)
    (h3 : epoch < 3) :
    ∃ cur : ℕ, cur < urls.length ∧ galleryRoute s galleryId img epoch =
      .one urls[cur]? ((cur - 1 + urls.length : ℤ).tmod urls.length)
        ((cur + 1 : ℤ).tmod urls.length) urls ∧
      ∀ i : ℕ, i < urls.length → (if img = [] then 0 else atoi img) = i → cur = i := by
  have hlen : 0 < urls.length := List.length_pos_iff.mpr hne
  have hcount : ¬ (urls.length : ℤ) = 0 := by omega
  set imgIndex : ℤ := if img = [] then 0 else atoi img with himg
  simp only [galleryRoute, hfound, if_neg (by omega : ¬ 3 ≤ epoch), if_neg hcount,
    if_neg (by omega : ¬ epoch ≤ 0), ← himg]
  by_cases hin : 0 ≤ imgIndex ∧ imgIndex < urls.length
  · refine ⟨imgIndex.toNat, by omega, ?_, fun i _ hi => by omega⟩
    rw [if_pos hin, Int.toNat_of_nonneg hin.1]
  · refine ⟨0, hlen, ?_, fun i hi heq => absurd ⟨by omega, by omega⟩ hin⟩
    rw [if_neg hin]
    rfl

/-- The page that a link asks for is that of its picture. -/
theorem pageOf_old (hcap : urls.length ≤ galleryUrlsMax) {i : ℕ} (hi : i < urls.length) {epoch : ℤ}
    (h0 : 0 < epoch) (h3 : epoch < 3) :
    pageOf s galleryId epoch i = .one urls[i]? ((i - 1 + urls.length : ℤ).tmod urls.length)
      ((i + 1 : ℤ).tmod urls.length) urls := by
  have hne : urls ≠ [] := List.length_pos_iff.mp (by omega)
  have hread : (if signed (i : ℤ) = [] then 0 else atoi (signed i)) = (i : ℤ) := by
    have hmax : (galleryUrlsMax : ℤ) < 2 ^ 31 := by decide
    rw [atoi_signed (by omega) (by omega), if_neg (by rw [signed_natCast]; exact decimal_ne_nil i)]
  obtain ⟨cur, -, hpage, hcur⟩ := galleryRoute_old hfound hne (signed i) h0 h3
  rw [pageOf, hpage, hcur i hi hread]

/-- The next picture is the one behind, or the first one. -/
theorem nextOf_eq (hcap : urls.length ≤ galleryUrlsMax) {i : ℕ} (hi : i < urls.length) {epoch : ℤ}
    (h0 : 0 < epoch) (h3 : epoch < 3) :
    nextOf s galleryId epoch i = if i + 1 = urls.length then 0 else (i + 1 : ℤ) := by
  rw [nextOf, pageOf_old hfound hcap hi h0 h3]
  change (i + 1 : ℤ).tmod urls.length = _
  split_ifs with hlast
  · rw [← hlast, Nat.cast_succ, Int.tmod_self]
  · exact Int.tmod_eq_of_lt (by omega) (by omega)

/-- The previous picture is the one in front, or the last one. -/
theorem prevOf_eq (hcap : urls.length ≤ galleryUrlsMax) {i : ℕ} (hi : i < urls.length) {epoch : ℤ}
    (h0 : 0 < epoch) (h3 : epoch < 3) :
    prevOf s galleryId epoch i = if i = 0 then (urls.length - 1 : ℤ) else (i - 1 : ℤ) := by
  rw [prevOf, pageOf_old hfound hcap hi h0 h3]
  change (i - 1 + urls.length : ℤ).tmod urls.length = _
  split_ifs with hfirst
  · rw [hfirst, Nat.cast_zero, zero_sub, neg_add_eq_sub]
    exact Int.tmod_eq_of_lt (by omega) (by omega)
  · rw [Int.tmod_eq_emod_of_nonneg (by omega), Int.add_emod_right]
    exact Int.emod_eq_of_lt (by omega) (by omega)

/-- **The pages of a gallery with pictures are a ring of them.** -/
theorem galleryPaged_of_found (hne : urls ≠ []) (hcap : urls.length ≤ galleryUrlsMax) :
    GalleryPaged s galleryId urls where
  answered img epoch := by
    rcases lt_or_ge epoch 3 with h3 | h3
    · rcases lt_or_ge 0 epoch with h0 | h0
      · obtain ⟨cur, -, hpage, -⟩ := galleryRoute_old hfound hne img h0 h3
        rw [hpage]
        exact ⟨by simp, by simp⟩
      · rw [galleryRoute_text hfound hne img h0]
        exact ⟨by simp, by simp⟩
    · rw [galleryRoute_modern hfound img h3]
      exact ⟨by simp, by simp⟩
  inside img epoch h0 h3 := by
    obtain ⟨cur, hcur, hpage, -⟩ := galleryRoute_old hfound hne img h0 h3
    rw [hpage]
    simp [GalleryAnswer.picture, hcur]
  shown img epoch h0 := by
    by_cases h3 : 3 ≤ epoch
    · rw [galleryRoute_modern hfound img h3]
      rfl
    · obtain ⟨cur, -, hpage, -⟩ := galleryRoute_old hfound hne img h0 (by omega)
      rw [hpage]
      rfl
  around epoch h0 h3 := by
    have hstep : ∀ i : ℕ, i + 1 < urls.length → nextOf s galleryId epoch i = i + 1 := fun i hi => by
      rw [nextOf_eq hfound hcap (by omega) h0 h3, if_neg (by omega)]
    have hring := fun k hk => @iterate_ring _ _ hstep k hk
    refine ⟨?_, ?_, ?_⟩
    · refine List.ext_getElem (by simp) fun k hk _ => ?_
      have hk' : k < urls.length := by simpa using hk
      rw [List.getElem_map, List.getElem_map, List.getElem_range, hring k hk',
        pageOf_old hfound hcap hk' h0 h3]
      exact List.getElem?_eq_getElem hk'
    · exact List.map_congr_left fun k hk => hring k (List.mem_range.mp hk)
    · obtain ⟨n, hn⟩ := Nat.exists_eq_succ_of_ne_zero (fun h => hne (List.length_eq_zero_iff.mp h))
      rw [hn, Function.iterate_succ_apply', hring n (by omega),
        nextOf_eq hfound hcap (by omega) h0 h3, if_pos hn.symm]
  back epoch h0 h3 i hi := by
    rw [nextOf_eq hfound hcap hi h0 h3]
    split_ifs with hlast
    · have := prevOf_eq hfound hcap (by omega : 0 < urls.length) h0 h3
      rw [Nat.cast_zero, if_pos rfl] at this
      rw [this]
      omega
    · rw [← Nat.cast_succ, prevOf_eq hfound hcap (by omega) h0 h3, if_neg (Nat.succ_ne_zero i)]
      omega

end Pages

/-- **A gallery that was saved can be paged through whole exactly where it has a picture, has no more of
them than are read back, and names no gallery that is gone.** -/
theorem galleryPaged_iff {mint : ℕ → IdHex} {s : EntryStore} {galleryId text id : Bytes}
    (hmint : ∀ k, oidFromString (mint k) = some (mint k))
    (hfresh : ∀ g ∈ s.galleries, g.id ≠ mint s.minted)
    (hsaved : (s.upsertMediaGallery mint galleryId text .done).2 = some id) :
    GalleryPaged (s.upsertMediaGallery mint galleryId text .done).1 id (EntryStore.galleryUrls text) ↔
      NamesGallery s galleryId ∧ EntryStore.galleryUrls text ≠ [] ∧
        (EntryStore.galleryUrls text).length ≤ galleryUrlsMax := by
  set pieces := EntryStore.galleryUrls text with hpieces
  obtain ⟨hfound, hnamed⟩ | ⟨hfound, hnamed⟩ := cmsGetMediaGallery_upsert hmint hfresh hsaved
  · rw [← hpieces] at hfound
    constructor
    · intro h
      refine ⟨hnamed, fun hnil => ?_, ?_⟩
      · -- the page of a text browser
        refine (h.answered [] 0).2 (galleryRoute_empty hfound ?_ [] (by decide))
        rw [hnil, List.take_nil]
      · -- the page of a modern browser
        have hshown := h.shown [] 3 (by decide)
        rw [galleryRoute_modern hfound [] le_rfl] at hshown
        exact List.take_eq_self_iff _ |>.mp hshown
    · rintro ⟨-, hne, hcap⟩
      rw [List.take_of_length_le hcap] at hfound
      exact galleryPaged_of_found hfound hne hcap
  · refine ⟨fun h => absurd ?_ (h.answered [] 0).1, fun h => absurd h.1 hnamed⟩
    simp only [galleryRoute, hfound]

/-- An entry without galleries. -/
def noGalleries : EntryStore := ⟨lit "0123456789abcdef01234567", [], [], 0⟩

/-- The ids that are given out there. -/
def someId : ℕ → IdHex := fun _ => lit "89abcdef0123456789abcdef"

/-- Two pictures, with a blank between them. -/
theorem galleryPaged_two :
    GalleryPaged (noGalleries.upsertMediaGallery someId [] (lit "/a.jpg; /b.jpg") .done).1 (someId 0)
      (EntryStore.galleryUrls (lit "/a.jpg; /b.jpg")) :=
  (@galleryPaged_iff someId noGalleries [] (lit "/a.jpg; /b.jpg") (someId 0)
    (fun _ => show oidFromString (someId 0) = some (someId 0) by decide)
    (fun _ hg => by cases hg) rfl).mpr ⟨fun _ h => (by cases h), by decide, by decide⟩

/-- A gallery of a semicolon. -/
theorem not_galleryPaged_semicolon :
    ¬ GalleryPaged (noGalleries.upsertMediaGallery someId [] (lit ";") .done).1 (someId 0)
      (EntryStore.galleryUrls (lit ";")) := by
  intro h
  have hzero : galleryRoute (noGalleries.upsertMediaGallery someId [] (lit ";") .done).1 (someId 0) []
      1 = .zeroDivision := by decide
  exact (h.answered [] 1).2 hzero

end BoatRudder.WebServer
