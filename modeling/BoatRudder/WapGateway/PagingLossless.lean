import BoatRudder.WapGateway.PagedBuild

/-! # Paging loses, duplicates and reorders nothing

What a reader meets in a deck is a sequence of tags and words. `Seams deck pages` says that `pages`
is that sequence cut into pages: at a page's end only bare separators may be missing, and only the
element a cut goes through is closed there and opened again on the next page. `pack_seams` follows
the packing loop, and `pagedBuild_seams` is the result for `paged_build`. -/

namespace BoatRudder.Wbxml

open Wml

/-! ## What a reader meets -/

/-- A tag or a word of a deck. -/
inductive Item where
  | openTag (name : Bytes) (attrs : List (Bytes × Bytes))
  | closeTag (name : Bytes)
  | word (w : Bytes)
  deriving DecidableEq

mutual

/-- The tags and words of a node, in document order. -/
def items : Node → List Item
  | .text t => (words t).map .word
  | .elem name attrs kids => .openTag name attrs :: (itemsIn kids ++ [.closeTag name])

/-- The tags and words of a list of siblings. -/
def itemsIn : List Node → List Item
  | [] => []
  | n :: ns => items n ++ itemsIn ns

end

@[simp] theorem itemsIn_append (ms ns : List Node) :
    itemsIn (ms ++ ns) = itemsIn ms ++ itemsIn ns := by
  induction ms with
  | nil => rfl
  | cons m ms ih => simp only [List.cons_append, itemsIn, ih, List.append_assoc]

@[simp] theorem itemsIn_textKid (t : Bytes) : itemsIn (textKid t) = (words t).map .word := by
  unfold textKid
  split_ifs with h
  · simp [h, itemsIn]
  · simp [itemsIn, items]

/-- A bare separator: a word of nothing but `|`, `,`, `;`, `:` and `-`. -/
def IsBareSeparator (w : Bytes) : Prop := w ≠ [] ∧ ∀ c ∈ w, c ∈ separators

instance (w : Bytes) : Decidable (IsBareSeparator w) := inferInstanceAs (Decidable (_ ∧ _))

/-- The deck `deck` cut into `pages`. A page ends between two blocks, or inside the element
`name`, after its children `pre`: that element is closed at the end of the page and opened again at
the start of the next, unless nothing of it is left. The words missing there are bare separators. -/
inductive Seams : List Item → List (List Item) → Prop
  | nil : Seams [] []
  | between {a b : List Item} {pages : List (List Item)} :
      Seams b pages → Seams (a ++ b) (a :: pages)
  | inside {a b : List Item} {pages : List (List Item)} (name : Bytes)
      (attrs : List (Bytes × Bytes)) (pre : List Node) (dropped : List Bytes) :
      (∀ w ∈ dropped, IsBareSeparator w) → Seams (.openTag name attrs :: b) pages →
      Seams (a ++ .openTag name attrs :: (itemsIn pre ++ dropped.map .word ++ b))
        ((a ++ .openTag name attrs :: (itemsIn pre ++ [.closeTag name])) :: pages)
  | atEnd {a b : List Item} {pages : List (List Item)} (name : Bytes)
      (attrs : List (Bytes × Bytes)) (pre : List Node) (dropped : List Bytes) :
      (∀ w ∈ dropped, IsBareSeparator w) → Seams b pages →
      Seams (a ++ .openTag name attrs :: (itemsIn pre ++ dropped.map .word ++ .closeTag name :: b))
        ((a ++ .openTag name attrs :: (itemsIn pre ++ [.closeTag name])) :: pages)

/-- The words of a deck other than bare separators. -/
def contentWords (s : List Item) : List Bytes :=
  s.filterMap fun
    | .word w => if IsBareSeparator w then none else some w
    | _ => none

@[simp] theorem contentWords_append (a b : List Item) :
    contentWords (a ++ b) = contentWords a ++ contentWords b := by
  simp [contentWords]

/-- Bare separators are no content. -/
theorem contentWords_dropped {dropped : List Bytes} (h : ∀ w ∈ dropped, IsBareSeparator w) :
    contentWords (dropped.map .word) = [] := by
  simp only [contentWords, List.filterMap_map, List.filterMap_eq_nil_iff]
  intro w hw
  simp [h w hw]

/-- Read one after the other, the pages of a deck hold its words, each once and in order. -/
theorem Seams.contentWords_eq {deck : List Item} {pages : List (List Item)} (h : Seams deck pages) :
    contentWords pages.flatten = contentWords deck := by
  have hopen : ∀ name attrs (s : List Item),
      contentWords (.openTag name attrs :: s) = contentWords s := fun _ _ _ => rfl
  have hclose : ∀ name (s : List Item), contentWords (.closeTag name :: s) = contentWords s :=
    fun _ _ => rfl
  induction h with
  | nil => rfl
  | between _ ih => simp [ih]
  | inside name attrs pre dropped hd _ ih =>
    simp only [hopen] at ih
    simp [hopen, hclose, contentWords_dropped hd, ih]
  | atEnd name attrs pre dropped hd _ ih =>
    simp [hopen, hclose, contentWords_dropped hd, ih]

/-! ## Splits -/

/-- `skip_leading_separators` passes over bare separators only. -/
theorem words_skipLeadingSeparators (t : Bytes) :
    ∃ dropped : List Bytes, (∀ w ∈ dropped, IsBareSeparator w) ∧
      words t = dropped ++ words (skipLeadingSeparators t) := by
  fun_induction skipLeadingSeparators t with
  | case1 t t' w h => exact ⟨[], by simp, by simp [t', words_dropWhile_blank]⟩
  | case2 t t' w h ih =>
    obtain ⟨dropped, hsep, hwords⟩ := ih
    have hne : w ≠ [] := fun h0 => h (Or.inl h0)
    have hall : ∀ c ∈ w, c ∈ separators := by
      have : w.all (separators.contains ·) = true := by
        by_contra h0
        exact h (Or.inr (Or.inr (by simpa using h0)))
      simpa using this
    have hblank : 32 ∉ w := fun hmem => by simpa using List.mem_takeWhile_imp hmem
    -- the word ends at the text's end or before a blank
    have hnext : t'[w.length]? = none ∨ t'[w.length]? = some 32 :=
      getElem?_length_takeWhile_word t'
    have htake : t'.take w.length = w :=
      (List.prefix_iff_eq_take.mp (List.takeWhile_prefix _)).symm
    refine ⟨w :: dropped, ?_, ?_⟩
    · simpa using ⟨⟨hne, hall⟩, hsep⟩
    · rw [← words_dropWhile_blank t]
      change words t' = _
      rw [words_take_append_drop hnext, htake, words_of_notMem hblank hne, hwords]
      simp

/-- A split of a block is a seam inside it. -/
theorem seams_splitToFit {room : Room} {blk head : Node} {rest : Option Node} {a b : List Item}
    {pages : List (List Item)} (h : splitToFit room blk = some (head, rest))
    (hpages : Seams (itemsIn rest.toList ++ b) pages) :
    Seams (a ++ (items blk ++ b)) ((a ++ items head) :: pages) := by
  cases blk with
  | text t => simp [splitToFit_text] at h
  | elem name attrs kids =>
    rcases splitToFit_cases h with ⟨pre, k, post, rfl, -, -, rfl, rfl⟩ |
      ⟨pre, t, cut, post, rfl, -, hcut, rfl, rfl⟩
    · have hnext : Seams (.openTag name attrs :: (itemsIn (k :: post) ++ .closeTag name :: b))
          pages := by
        simpa [itemsIn, items] using hpages
      have := Seams.inside (a := a) name attrs pre [] (by simp) hnext
      simpa [items, itemsIn] using this
    · have hwords : words t = words (t.take cut) ++ words (t.drop cut) := by
        rcases hcut with rfl | hcut
        · simp
        · exact words_take_append_drop hcut.2
      obtain ⟨dropped, hsep, hdrop⟩ := words_skipLeadingSeparators (t.drop cut)
      have hblk : items (.elem name attrs (pre ++ .text t :: post)) =
          .openTag name attrs :: (itemsIn (pre ++ textKid (t.take cut)) ++ dropped.map .word ++
            (itemsIn (textKid (skipLeadingSeparators (t.drop cut)) ++ post) ++
              [.closeTag name])) := by
        simp [items, itemsIn, hwords, hdrop]
      rw [hblk]
      unfold wrapRest at hpages
      split_ifs at hpages with hnil
      · -- nothing of the block is left
        have hnext : Seams b pages := by simpa [itemsIn] using hpages
        have := Seams.atEnd (a := a) name attrs (pre ++ textKid (t.take cut)) dropped hsep hnext
        rw [hnil]
        simpa [items, itemsIn] using this
      · have hnext : Seams (.openTag name attrs ::
            (itemsIn (textKid (skipLeadingSeparators (t.drop cut)) ++ post) ++
              .closeTag name :: b)) pages := by
          simpa [itemsIn, items] using hpages
        have := Seams.inside (a := a) name attrs (pre ++ textKid (t.take cut)) dropped hsep hnext
        simpa [items, itemsIn] using this

/-! ## The packing loop -/

/-- What is packed is what was on the page and in the queue. -/
theorem pack_seams (title : Bytes) (limit : ℕ) (base : Bytes) (queue cur : List Node) :
    Seams (itemsIn cur ++ itemsIn queue) ((pack title limit base queue cur).map itemsIn) := by
  fun_induction pack title limit base queue cur with
  | case1 => exact Seams.nil
  | case2 cur hcur => simpa [itemsIn] using Seams.between (a := itemsIn cur) Seams.nil
  | case3 blk queue cur hfits ih => simpa [itemsIn] using ih
  | case4 blk queue cur hfits head rest hsplit ih =>
    have := seams_splitToFit (a := itemsIn cur) (b := itemsIn queue)
      (splitToFit_of_splitOff hsplit) (by simpa [itemsIn] using ih)
    simpa [itemsIn] using this
  | case5 blk queue cur hfits head hsplit ih =>
    have := seams_splitToFit (a := itemsIn cur) (b := itemsIn queue)
      (splitToFit_of_splitOff hsplit) (by simpa [itemsIn] using ih)
    simpa [itemsIn] using this
  | case6 blk queue hfits hsplit ih =>
    simpa [itemsIn] using Seams.between (a := itemsIn [blk]) (by simpa [itemsIn] using ih)
  | case7 blk queue cur hfits hsplit hcur ih =>
    simpa [itemsIn] using Seams.between (a := itemsIn cur) (by simpa [itemsIn] using ih)

/-- The pages of a card are its blocks cut into pages. -/
theorem pagesOf_seams (card : Node) (base path : Bytes) (pageBytes : ℕ) :
    Seams (itemsIn (blocksOf card)) ((pagesOf card base path pageBytes).map itemsIn) := by
  have hpack := pack_seams (baseTitleOf card ++ titleSuffix)
    (pageLimit pageBytes (navCost (baseTitleOf card ++ titleSuffix) path (measureBase base)))
    (measureBase base) (blocksOf card) []
  simp only [pagesOf]
  split_ifs with hwhole hnone
  · simpa using Seams.between (a := itemsIn (blocksOf card)) Seams.nil
  · rw [hnone] at hpack
    generalize hdeck : itemsIn [] ++ itemsIn (blocksOf card) = deck at hpack
    cases hpack with
    | nil =>
      have : itemsIn (blocksOf card) = [] := by simpa [itemsIn] using hdeck
      simpa [this, itemsIn] using Seams.between (a := []) Seams.nil
  · simpa [itemsIn] using hpack

/-- **Paging loses, duplicates and reorders nothing.** For every deck, link prefix setting, address
and page size, the pages of `paged_build` are the blocks of the first card cut at page seams, and
read one after the other they hold every word of these blocks, bare separators apart, once and in
order. -/
theorem pagedBuild_seams (src uri : Bytes) (absoluteLinks : Bool) (page : ℤ) (pageBytes : ℕ) :
    let deck := itemsIn (blocksOf (cardOf (parseWml (cstr src))))
    let pages := (pagedBuild src uri absoluteLinks page pageBytes).pages.map itemsIn
    Seams deck pages ∧ contentWords pages.flatten = contentWords deck := by
  have h := pagesOf_seams (cardOf (parseWml (cstr src)))
    (if absoluteLinks then uriBase uri 512 else []) (uriPath uri) pageBytes
  exact ⟨h, h.contentWords_eq⟩

/-- A deck with text straight in its card. -/
def looseTextDeck : Bytes := lit "<wml><card>Hello<p>you</p></card></wml>"

/-- Text that stands in the card itself, outside every element, is on no page. -/
theorem looseTextDeck_not_seams :
    ¬ Seams (itemsIn ((cardOf (parseWml (cstr looseTextDeck))).kids))
      ((pagedBuild looseTextDeck (lit "http://h/") true 0 860).pages.map itemsIn) := by
  intro h
  have := h.contentWords_eq
  revert this
  decide +kernel

end BoatRudder.Wbxml
