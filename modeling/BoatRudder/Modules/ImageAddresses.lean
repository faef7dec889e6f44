import BoatRudder.Formats.References
import BoatRudder.Utils.DetectEpoch
import BoatRudder.WebServer.MediaNames

/-! # Addresses of image variants

An address is stored without the variant. The variant is put in front of the last dot, and for the old
browsers what follows the last dot becomes `.gif` in place. Where that dot is not the one of the
extension, or the extension is shorter than the new one, another address comes out or the string is
overrun. -/

namespace BoatRudder.Modules

open Utils WebServer

/-! ## Variants of an address -/

/-- `image_url_variant`. -/
def imageUrlVariant (url suffix : Bytes) : Bytes :=
  if url = [] then []
  else if suffix = [] then url
  -- without a dot, or with none but the first byte, nothing is put in
  else if (splitName url).2 = [] ∨ (splitName url).1 = [] then url
  else (splitName url).1 ++ suffix ++ (splitName url).2

/-- `.gif` copied over a string from its last dot on; none where that leaves the string, which is
allocated for its own bytes and a zero. -/
def gifInPlace (t : Bytes) : Option Bytes :=
  if (splitName t).2 = [] then some t
  else if (splitName t).1.length + 5 ≤ t.length + 1 then some ((splitName t).1 ++ lit ".gif")
  else none

/-- A variant, as it is or as a GIF. -/
def imageVariant (url suffix : Bytes) (gif : Bool) : Option Bytes :=
  if gif then gifInPlace (imageUrlVariant url suffix) else some (imageUrlVariant url suffix)

/-! ## Where variants are asked for -/

/-- `image_for_epoch`. -/
def imageForEpoch (url : Bytes) (epoch : ℤ) : Option Bytes :=
  if url = [] then some []
  else
    imageVariant url
      (if epochModern ≤ epoch then lit "_full"
        else if epoch = epochEarly then lit "_micro" else lit "_medium")
      (decide (epoch < epochModern))

/-- `gallery_thumb`. -/
def galleryThumb (url : Bytes) (epoch : ℤ) : Option Bytes :=
  if epoch = epochEarly then imageVariant url (lit "_micro") true
  else imageVariant url (if epochModern ≤ epoch then lit "_half" else lit "_small") false

/-- The thumbnail of an item of the blog list. -/
def blogListThumb (url : Bytes) (epoch : ℤ) : Option Bytes :=
  imageVariant url (if epoch < epochModern then lit "_micro" else lit "_half")
    (decide (epoch < epochModern))

/-- The picture of a gallery's page. -/
def galleryPageMain (url : Bytes) (epoch : ℤ) : Option Bytes :=
  imageVariant url (if epoch = epochEarly then lit "_medium" else lit "_half")
    (decide (epoch = epochEarly))

/-- A thumbnail of a gallery's page. -/
def galleryPageThumb (url : Bytes) (epoch : ℤ) : Option Bytes :=
  imageVariant url (if epoch = 1 then lit "_micro" else lit "_small") (decide (epoch = 1))

/-! ## Parts of an address -/

/-- The host of an address without its scheme, with the slashes in front of it. -/
def hostOf (s : Bytes) : Bytes :=
  if s.take 2 = lit "//" then lit "//" ++ (s.drop 2).takeWhile (· ≠ 47) else []

/-- The query and the fragment of an address. -/
def urlTail (url : Bytes) : Bytes := url.dropWhile (!endsPath ·)

/-- The path of an address. -/
def urlPath (url : Bytes) : Bytes :=
  let front := url.takeWhile (!endsPath ·)
  let rest := front.drop (schemeOf front).length
  rest.drop (hostOf rest).length

/-- The last segment of the path. -/
def lastSegment (url : Bytes) : Bytes := ((urlPath url).reverse.takeWhile (· ≠ 47)).reverse

/-- The extension of that segment, with its dot. -/
def extensionOf (url : Bytes) : Bytes := (splitName (lastSegment url)).2

/-- The address up to its extension. -/
def stemOf (url : Bytes) : Bytes :=
  url.take (url.length - ((extensionOf url).length + (urlTail url).length))

/-! ## What is wanted -/

/-- An address with a suffix in front of its extension. -/
def wantedVariant (url suffix : Bytes) : Bytes :=
  if extensionOf url = [] then url else stemOf url ++ suffix ++ extensionOf url ++ urlTail url

/-- The same with another extension. -/
def wantedGif (url suffix : Bytes) : Bytes :=
  if extensionOf url = [] then url else stemOf url ++ suffix ++ lit ".gif" ++ urlTail url

example : wantedGif (lit "http://a.org/v1.2/map.jpeg?w=9") (lit "_full") =
    lit "http://a.org/v1.2/map_full.gif?w=9" := by decide

/-- Either of them. -/
def wantedImage (url suffix : Bytes) (gif : Bool) : Bytes :=
  if gif then wantedGif url suffix else wantedVariant url suffix

/-- The addresses of an image at an epoch, at each place that the epoch reaches: text browsers and
phones are shown none, and the pages of a gallery are for the two epochs before the modern one. -/
structure ImageAddresses (url : Bytes) (epoch : ℤ) : Prop where
  variant : ∀ suffix, imageUrlVariant url suffix = wantedVariant url suffix
  entry : epochEarly ≤ epoch → imageForEpoch url epoch = some (wantedImage url
    (if epochModern ≤ epoch then lit "_full"
      else if epoch = epochEarly then lit "_micro" else lit "_medium") (decide (epoch < epochModern)))
  gallery : epochEarly ≤ epoch → galleryThumb url epoch = some (wantedImage url
    (if epoch = epochEarly then lit "_micro"
      else if epochModern ≤ epoch then lit "_half" else lit "_small") (decide (epoch = epochEarly)))
  blogList : epochEarly ≤ epoch → blogListThumb url epoch = some (wantedImage url
    (if epoch < epochModern then lit "_micro" else lit "_half") (decide (epoch < epochModern)))
  galleryMain : epochEarly ≤ epoch → epoch < epochModern → galleryPageMain url epoch =
    some (wantedImage url (if epoch = epochEarly then lit "_medium" else lit "_half")
      (decide (epoch = epochEarly)))
  galleryStrip : epochEarly ≤ epoch → epoch < epochModern → galleryPageThumb url epoch =
    some (wantedImage url (if epoch = epochEarly then lit "_micro" else lit "_small")
      (decide (epoch = epochEarly)))

/-- When an address has its variants, and where `gif` is set its GIFs as well. -/
def ImageReadable (url : Bytes) (gif : Bool) : Prop :=
  if extensionOf url = [] then 46 ∉ url.drop 1 ∧ (gif → 46 ∉ url)
  else stemOf url ≠ [] ∧ 46 ∉ urlTail url ∧ (gif → urlTail url = [] ∧ 4 ≤ (extensionOf url).length)

instance (url : Bytes) (gif : Bool) : Decidable (ImageReadable url gif) :=
  inferInstanceAs (Decidable (if extensionOf url = [] then _ ∧ _ else _ ∧ _ ∧ _))

/-! ## The last dot -/

/-- A name has no dot, or splits at its last one. -/
theorem splitName_cases (name : Bytes) :
    (46 ∉ name ∧ splitName name = (name, [])) ∨
      ∃ stem ext, 46 ∉ ext ∧ name = stem ++ 46 :: ext ∧ splitName name = (stem, 46 :: ext) := by
  by_cases hdot : 46 ∈ name
  · obtain ⟨as, bs, heq, hno⟩ := List.eq_append_cons_of_mem (List.mem_reverse.mpr hdot)
    have hname : name = bs.reverse ++ 46 :: as.reverse := by
      simpa using congrArg List.reverse heq
    have hno' : 46 ∉ as.reverse := by rwa [List.mem_reverse]
    exact Or.inr ⟨bs.reverse, as.reverse, hno', hname, by
      rw [hname, splitName_append _ hno']⟩
  · exact Or.inl ⟨hdot, splitName_of_notMem hdot⟩

/-- The split at the last dot loses nothing. -/
theorem splitName_join (name : Bytes) : (splitName name).1 ++ (splitName name).2 = name := by
  rcases splitName_cases name with ⟨-, h⟩ | ⟨stem, ext, -, heq, h⟩
  · rw [h, List.append_nil]
  · rw [h, ← heq]

/-- Two dots of one address that have the same text in front of them once a suffix without a dot is put
there are one. -/
theorem dot_unique {a b p q s x y : Bytes} (hs : s.head? = some 95)
    (hurl : a ++ 46 :: p = b ++ 46 :: q) (hput : a ++ s ++ x = b ++ s ++ y) : a = b := by
  obtain ⟨u, rfl⟩ : ∃ u, s = 95 :: u := by
    cases s with
    | nil => cases hs
    | cons c u => exact ⟨u, by rw [Option.some.inj hs]⟩
  rw [List.append_assoc, List.append_assoc] at hput
  rcases List.append_eq_append_iff.mp hurl with ⟨c, rfl, hc⟩ | ⟨c, rfl, hc⟩
  · cases c with
    | nil => rw [List.append_nil]
    | cons d c =>
      -- the dot stands where the suffix begins
      rw [List.append_assoc, List.append_cancel_left_eq] at hput
      have h1 : (46 : UInt8) = d := (List.cons.inj hc).1
      have h2 : (95 : UInt8) = d := (List.cons.inj hput).1
      exact absurd (h1.trans h2.symm) (by decide)
  · cases c with
    | nil => rw [List.append_nil]
    | cons d c =>
      rw [List.append_assoc, List.append_cancel_left_eq] at hput
      have h1 : (46 : UInt8) = d := (List.cons.inj hc).1
      have h2 : d = (95 : UInt8) := (List.cons.inj hput).1
      exact absurd (h1.trans h2) (by decide)

/-! ## Parts of an address -/

/-- An address is its stem, its extension and its tail. -/
theorem url_eq (url : Bytes) : stemOf url ++ extensionOf url ++ urlTail url = url := by
  set front := url.takeWhile (!endsPath ·) with hfront
  have hurl : front ++ urlTail url = url := List.takeWhile_append_dropWhile
  have hpath : urlPath url <:+ front := (List.drop_suffix _ _).trans (List.drop_suffix _ _)
  have hseg : lastSegment url <:+ urlPath url := by
    rw [lastSegment, ← List.reverse_prefix, List.reverse_reverse]
    exact List.takeWhile_prefix _
  have hext : extensionOf url <:+ lastSegment url := ⟨_, splitName_join (lastSegment url)⟩
  obtain ⟨stem, hstem⟩ := hext.trans (hseg.trans hpath)
  have hwhole : stem ++ (extensionOf url ++ urlTail url) = url := by
    rw [← List.append_assoc, hstem, hurl]
  have hlen := congrArg List.length hwhole
  have htake : stemOf url = stem := by
    rw [stemOf, ← List.length_append, ← hlen, List.length_append, Nat.add_sub_cancel]
    conv_lhs => rw [← hwhole]
    rw [List.take_left]
  rw [htake, List.append_assoc, hwhole]

/-- The extension is none where the last segment has no dot, or begins with its last one. -/
theorem extensionOf_cases (url : Bytes) :
    (extensionOf url = [] ∧ 46 ∉ lastSegment url) ∨ ∃ x, 46 ∉ x ∧ extensionOf url = 46 :: x := by
  rcases splitName_cases (lastSegment url) with ⟨hno, h⟩ | ⟨stem, ext, hno, -, h⟩
  · exact Or.inl ⟨by rw [extensionOf, h], hno⟩
  · exact Or.inr ⟨ext, hno, by rw [extensionOf, h]⟩

/-! ## Variants and their GIFs -/

/-- Without a dot behind the first byte nothing is put in. -/
theorem imageUrlVariant_of_notMem {url : Bytes} (hno : 46 ∉ url.drop 1) (suffix : Bytes) :
    imageUrlVariant url suffix = url := by
  have hkept : (splitName url).2 = [] ∨ (splitName url).1 = [] := by
    rcases splitName_cases url with ⟨-, h⟩ | ⟨stem, ext, -, heq, h⟩
    · exact Or.inl (by rw [h])
    · cases stem with
      | nil => exact Or.inr (by rw [h])
      | cons b stem => exact absurd (by rw [heq]; simp) hno
  rw [imageUrlVariant]
  split_ifs with h
  · exact h.symm
  · rfl
  · rfl

/-- The suffix is put in front of the last dot. -/
theorem imageUrlVariant_split {stem ext : Bytes} (hstem : stem ≠ []) (hno : 46 ∉ ext) (suffix : Bytes) :
    imageUrlVariant (stem ++ 46 :: ext) suffix = stem ++ suffix ++ 46 :: ext := by
  rw [imageUrlVariant, splitName_append _ hno, if_neg (by simp [hstem])]
  split_ifs with hsuffix h
  · rw [hsuffix, List.append_nil]
  · simp [hstem] at h
  · rfl

/-- The GIF of a string without a dot is the string. -/
theorem gifInPlace_of_notMem {t : Bytes} (hno : 46 ∉ t) : gifInPlace t = some t := by
  rw [gifInPlace, splitName_of_notMem hno, if_pos rfl]

/-- The GIF of another one fits where three bytes follow the last dot. -/
theorem gifInPlace_split (stem : Bytes) {ext : Bytes} (hno : 46 ∉ ext) :
    gifInPlace (stem ++ 46 :: ext) = if 3 ≤ ext.length then some (stem ++ lit ".gif") else none := by
  rw [gifInPlace, splitName_append _ hno, if_neg (by simp)]
  have hroom : stem.length + 5 ≤ (stem ++ 46 :: ext).length + 1 ↔ 3 ≤ ext.length := by
    rw [List.length_append, List.length_cons]
    omega
  exact if_congr hroom rfl rfl

/-- Both, of an address with a last dot behind its first byte. -/
theorem imageVariant_split {stem ext : Bytes} (hstem : stem ≠ []) (hno : 46 ∉ ext) (suffix : Bytes)
    (gif : Bool) :
    imageVariant (stem ++ 46 :: ext) suffix gif =
      if gif then if 3 ≤ ext.length then some (stem ++ suffix ++ lit ".gif") else none
      else some (stem ++ suffix ++ 46 :: ext) := by
  rw [imageVariant, imageUrlVariant_split hstem hno, gifInPlace_split _ hno]

/-! ## Readable addresses -/

/-- An address with its GIFs has its variants. -/
theorem ImageReadable.variants {url : Bytes} {gif : Bool} (h : ImageReadable url gif) :
    ImageReadable url false := by
  unfold ImageReadable at h ⊢
  split_ifs at h ⊢
  · exact ⟨h.1, fun hgif => by cases hgif⟩
  · exact ⟨h.1, h.2.1, fun hgif => by cases hgif⟩

/-- A readable address has the variants that are wanted. -/
theorem imageVariant_eq {url : Bytes} {gif : Bool} (h : ImageReadable url gif) (suffix : Bytes) :
    imageVariant url suffix gif = some (wantedImage url suffix gif) := by
  unfold ImageReadable at h
  split_ifs at h with hext
  · have hwanted : wantedImage url suffix gif = url := by
      rw [wantedImage, wantedGif, wantedVariant, if_pos hext, if_pos hext, ite_self]
    rw [hwanted, imageVariant, imageUrlVariant_of_notMem h.1]
    split_ifs with hgif
    · exact gifInPlace_of_notMem (h.2 hgif)
    · rfl
  · obtain ⟨hstem, htail, hgif⟩ := h
    obtain ⟨hnil, -⟩ | ⟨x, hx, hx'⟩ := extensionOf_cases url
    · exact absurd hnil hext
    have hurl : stemOf url ++ 46 :: (x ++ urlTail url) = url := by
      have := url_eq url
      rwa [hx', List.append_assoc] at this
    have hno : 46 ∉ x ++ urlTail url := fun hmem =>
      (List.mem_append.mp hmem).elim hx htail
    have hput := imageVariant_split hstem hno suffix gif
    rw [hurl] at hput
    rw [hput, wantedImage, wantedGif, wantedVariant, if_neg hext, if_neg hext]
    split_ifs with hg hlen
    · rw [(hgif hg).1, List.append_nil]
    · have hlong := (hgif hg).2
      rw [hx', List.length_cons] at hlong
      exact absurd (by rw [List.length_append]; omega) hlen
    · rw [hx', List.append_assoc _ (46 :: x), List.cons_append]

/-- What a suffix that starts with an underscore is put in front of does not change. -/
theorem put_ne {a p s x : Bytes} (hs : s.head? = some 95) : a ++ s ++ x ≠ a ++ 46 :: p := by
  intro h
  cases s with
  | nil => cases hs
  | cons c u =>
    rw [List.append_assoc, List.append_cancel_left_eq] at h
    have hc := Option.some.inj hs
    have hc' : c = 46 := (List.cons.inj h).1
    exact absurd (hc.symm.trans hc') (by decide)

/-- An address whose only dot comes first has no GIF of its own. -/
theorem imageVariant_dotFirst {e : Bytes} (hno : 46 ∉ e) (suffix : Bytes) (gif : Bool) :
    imageVariant (46 :: e) suffix gif =
      if gif then if 3 ≤ e.length then some (lit ".gif") else none else some (46 :: e) := by
  have h := gifInPlace_split [] hno
  rw [List.nil_append, List.nil_append] at h
  rw [imageVariant, @imageUrlVariant_of_notMem (46 :: e) hno, h]

section Converse

variable {url suffix : Bytes} {gif : Bool} (hs : suffix.head? = some 95)
  (h : imageVariant url suffix gif = some (wantedImage url suffix gif))

include hs h

/-- An address whose only dot comes first, and that has the variants that are wanted, is readable: it is
no extension, and no GIF is asked for. -/
theorem readable_of_dotFirst {e : Bytes} (he : 46 ∉ e) (heq : url = 46 :: e) :
    ImageReadable url gif := by
  have hput := imageVariant_dotFirst he suffix gif
  rw [← heq, h] at hput
  obtain ⟨hext, -⟩ | ⟨x, hx, hext⟩ := extensionOf_cases url
  · rw [wantedImage, wantedGif, wantedVariant, if_pos hext, if_pos hext, ite_self] at hput
    rw [ImageReadable, if_pos hext]
    refine ⟨by rw [heq]; exact he, fun hgif => ?_⟩
    rw [if_pos hgif] at hput
    split_ifs at hput
    rw [Option.some.inj hput] at hext
    exact absurd hext (by decide)
  · -- what is wanted is longer than the address and than `.gif`
    have hlen : 0 < suffix.length := List.length_pos_iff.mpr fun hnil => by rw [hnil] at hs; cases hs
    have hne : extensionOf url ≠ [] := by rw [hext]; exact List.cons_ne_nil _ _
    have hwhole := congrArg List.length (url_eq url)
    rw [wantedImage, wantedGif, wantedVariant, if_neg hne, if_neg hne] at hput
    cases gif
    · have hlong := congrArg List.length (Option.some.inj hput)
      simp only [Bool.false_eq_true, if_false, List.length_append] at hlong hwhole
      omega
    · simp only [if_true] at hput
      split_ifs at hput
      have hlong := congrArg List.length (Option.some.inj hput)
      simp only [List.length_append] at hlong
      omega

/-- An address with a dot behind its first byte, and with the variants that are wanted, is readable: the
suffix stands in front of the last dot, which is then the one of the extension. -/
theorem readable_of_split {a e : Bytes} (ha : a ≠ []) (he : 46 ∉ e) (heq : url = a ++ 46 :: e) :
    ImageReadable url gif := by
  have hput := imageVariant_split ha he suffix gif
  rw [← heq, h] at hput
  obtain ⟨hext, -⟩ | ⟨x, hx, hext⟩ := extensionOf_cases url
  · rw [wantedImage, wantedGif, wantedVariant, if_pos hext, if_pos hext, ite_self] at hput
    split_ifs at hput
    · exact absurd ((Option.some.inj hput).symm.trans heq) (put_ne hs)
    · exact absurd ((Option.some.inj hput).symm.trans heq) (put_ne hs)
  · have hne : extensionOf url ≠ [] := by rw [hext]; exact List.cons_ne_nil _ _
    have hdots : a ++ 46 :: e = stemOf url ++ 46 :: (x ++ urlTail url) := by
      rw [← heq]
      conv_lhs => rw [← url_eq url, hext, List.append_assoc, List.cons_append]
    rw [wantedImage, wantedGif, wantedVariant, if_neg hne, if_neg hne] at hput
    rw [ImageReadable, if_neg hne]
    cases gif
    · simp only [Bool.false_eq_true, if_false, List.append_assoc (stemOf url ++ suffix)] at hput
      have hstem := dot_unique hs hdots (Option.some.inj hput).symm
      rw [hstem, List.append_cancel_left_eq] at hdots
      rw [(List.cons.inj hdots).2] at he
      exact ⟨hstem ▸ ha, fun hmem => he (List.mem_append_right _ hmem), fun hg => by cases hg⟩
    · simp only [if_true, List.append_assoc (stemOf url ++ suffix)] at hput
      split_ifs at hput with h3
      have hstem := dot_unique hs hdots (Option.some.inj hput).symm
      rw [hstem, List.append_cancel_left_eq] at hdots
      have htail : urlTail url = [] := by
        have hput' := Option.some.inj hput
        rw [hstem, List.append_cancel_left_eq] at hput'
        exact List.append_right_eq_self.mp hput'
      rw [(List.cons.inj hdots).2, htail, List.append_nil] at h3
      refine ⟨hstem ▸ ha, by rw [htail]; exact List.not_mem_nil, fun _ => ⟨htail, ?_⟩⟩
      rw [hext, List.length_cons]
      omega

/-- An address that has the variants that are wanted is readable. -/
theorem readable_of_imageVariant : ImageReadable url gif := by
  rcases splitName_cases url with ⟨hno, -⟩ | ⟨a, e, he, heq, -⟩
  · have hext : extensionOf url = [] := by
      obtain ⟨hnil, -⟩ | ⟨x, -, hx⟩ := extensionOf_cases url
      · exact hnil
      · exact absurd (by rw [← url_eq url, hx]; simp) hno
    rw [ImageReadable, if_pos hext]
    exact ⟨fun hmem => hno (List.mem_of_mem_drop hmem), fun _ => hno⟩
  · by_cases ha : a = []
    · exact readable_of_dotFirst hs h he (by rw [heq, ha, List.nil_append])
    · exact readable_of_split hs h ha he heq

end Converse

/-! ## The addresses of an image -/

/-- No address has no variant. -/
theorem imageForEpoch_eq (url : Bytes) (epoch : ℤ) :
    imageForEpoch url epoch = imageVariant url
      (if epochModern ≤ epoch then lit "_full"
        else if epoch = epochEarly then lit "_micro" else lit "_medium")
      (decide (epoch < epochModern)) := by
  rw [imageForEpoch]
  split_ifs with hnil
  all_goals first
    | rfl
    | rw [hnil, imageVariant, imageUrlVariant, if_pos rfl, gifInPlace_of_notMem List.not_mem_nil,
        ite_self]

theorem galleryThumb_eq (url : Bytes) (epoch : ℤ) :
    galleryThumb url epoch = imageVariant url
      (if epoch = epochEarly then lit "_micro"
        else if epochModern ≤ epoch then lit "_half" else lit "_small")
      (decide (epoch = epochEarly)) := by
  rw [galleryThumb]
  split_ifs with hearly
  · rw [decide_eq_true hearly]
  · rw [decide_eq_false hearly]
  · rw [decide_eq_false hearly]

/-- **The addresses of an image are right exactly where its address is readable.** -/
theorem imageAddresses_iff (url : Bytes) (epoch : ℤ) :
    ImageAddresses url epoch ↔
      ImageReadable url (decide (epochEarly ≤ epoch ∧ epoch < epochModern)) := by
  constructor
  · intro h
    by_cases hold : epochEarly ≤ epoch ∧ epoch < epochModern
    · rw [decide_eq_true hold]
      have hthumb := h.blogList hold.1
      rw [blogListThumb, if_pos hold.2, decide_eq_true hold.2] at hthumb
      exact readable_of_imageVariant (by decide) hthumb
    · rw [decide_eq_false hold]
      have hput : imageVariant url (lit "_half") false =
          some (wantedImage url (lit "_half") false) := congrArg some (h.variant _)
      exact readable_of_imageVariant (by decide) hput
  · intro h
    have hplain := h.variants
    have hgif : epochEarly ≤ epoch → ∀ (suffix : Bytes) (gif : Bool), (gif → epoch < epochModern) →
        imageVariant url suffix gif = some (wantedImage url suffix gif) := by
      intro hearly suffix gif hg
      cases gif with
      | false => exact imageVariant_eq hplain suffix
      | true =>
        rw [decide_eq_true ⟨hearly, hg rfl⟩] at h
        exact imageVariant_eq h suffix
    have hlt : epoch = epochEarly → epoch < epochModern := fun he => by rw [he]; decide
    exact
      { variant := fun suffix => Option.some.inj (imageVariant_eq hplain suffix)
        entry := fun he => by
          rw [imageForEpoch_eq]
          exact hgif he _ _ of_decide_eq_true
        gallery := fun he => by
          rw [galleryThumb_eq]
          exact hgif he _ _ fun hd => hlt (of_decide_eq_true hd)
        blogList := fun he => hgif he _ _ of_decide_eq_true
        galleryMain := fun he _ => hgif he _ _ fun hd => hlt (of_decide_eq_true hd)
        galleryStrip := fun he _ => hgif he _ _ fun hd => hlt (of_decide_eq_true hd) }

/-- The address of a picture whose extension is of two letters. -/
theorem not_imageAddresses_twoLetters : ¬ ImageAddresses (lit "/media/map.ai") 1 := by
  intro h
  have hover : blogListThumb (lit "/media/map.ai") 1 = none := by decide
  exact absurd (h.blogList (by decide)) (by rw [hover]; exact Option.some_ne_none _ |>.symm)

end BoatRudder.Modules
