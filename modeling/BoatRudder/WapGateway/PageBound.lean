import BoatRudder.WapGateway.CompiledSize
import BoatRudder.WapGateway.PagedBuild

/-! # The size of a page

`wbxml_compile_page` keeps its pages within `page_bytes`, or within the least it works with: what
the navigation costs and 128 bytes more. A page is packed to `limit`, the links and the title it
goes out with are no longer than those it was measured with, and only a block that cannot be cut
goes out on a page of its own, whatever its size. -/

namespace BoatRudder.Wbxml

open Wml

/-! ## Splits fit -/

variable {k pages : ℕ}

/-- What a page takes with `blocks` on it, apart from its navigation and the blank of an empty
one. -/
def contentSize (title base : Bytes) (blocks : List Node) : ℕ :=
  14 + (putStr title).length + (compileNodes (some base) blocks).length

/-- A card takes at least its content. -/
theorem contentSize_le_cardSize (title base : Bytes) (blocks : List Node) :
    contentSize title base blocks ≤ cardSize title blocks [] base := by
  rw [contentSize, cardSize, length_compileCard]
  split_ifs with h
  · simp [(List.append_eq_nil_iff.mp h).1]
  · omega

/-- Whether a text has a `$(name:conversion)` with a blank in it. -/
def SpacedReference (t : Bytes) : Prop :=
  ∃ i, t[i]? = some 32 ∧ 41 ∈ t.drop i ∧ ∃ u, 36 :: u <:+ t.take i ∧ opensRef u

/-- The end of a text has no reference the text does not have. -/
theorem SpacedReference.of_suffix {s t : Bytes} (hs : s <:+ t) (h : SpacedReference s) :
    SpacedReference t := by
  obtain ⟨pre, rfl⟩ := hs
  obtain ⟨i, hi, hmem, u, hu, hopen⟩ := h
  refine ⟨pre.length + i, ?_, ?_, u, ?_, hopen⟩
  · rwa [List.getElem?_append_right (Nat.le_add_right _ _), Nat.add_sub_cancel_left]
  · rwa [List.drop_length_add_append]
  · rw [List.take_length_add_append]
    exact hu.trans (List.suffix_append _ _)

/-- A block none of whose texts has such a reference. -/
def Trimmable (blk : Node) : Prop := ∀ t, .text t ∈ blk.kids → ¬ SpacedReference t

section Split

variable {t : Bytes} {blk : Node} {m : ℕ}
variable {room : Room} {name : Bytes} {attrs : List (Bytes × Bytes)} {kids : List Node}

variable (room name attrs kids) in
/-- The whole children the first loop keeps fit. -/
theorem fits_fitKids (m : ℕ) : fitKids room name attrs kids m = m ∨
    room.fits (prefixOf name attrs kids (fitKids room name attrs kids m) [] 0) = true := by
  fun_induction fitKids room name attrs kids m with
  | case1 m hm ih =>
    rcases ih with ih | ih
    · rw [ih]
      exact Or.inr hm.2
    · exact Or.inr ih
  | case2 m hm => exact Or.inl rfl

/-- The size of a block, children taken together. -/
theorem length_compileNode_elem_le {base : Option Bytes} {ks ks' : List Node}
    (h : (compileNodes base ks).length ≤ (compileNodes base ks').length) :
    (compileNode base (.elem name attrs ks)).length ≤
      (compileNode base (.elem name attrs ks')).length := by
  rw [compileNode, compileNode]
  split
  · exact h
  · exact length_element_le le_rfl h

/-- A head that fits leaves the page within its limit. -/
theorem contentSize_of_fits {n : Node} (h : room.fits n = true) :
    contentSize room.title room.base (room.cur ++ [n]) ≤ room.limit :=
  (contentSize_le_cardSize _ _ _).trans (of_decide_eq_true h)

variable (name attrs) in
/-- Tidying a seam makes the head no longer. -/
theorem length_compileNode_tidy (base : Option Bytes)
    (ht : kids[m]? = some (.text t)) (hclean : ¬ SpacedReference t)
    (hlt : trimDanglingTail t < t.length) :
    (compileNode base (prefixOf name attrs kids m t (trimDanglingTail t))).length ≤
      (compileNode base (prefixOf name attrs kids (m + 1) [] 0)).length := by
  have hnext : kids.take (m + 1) = kids.take m ++ [.text t] := by
    obtain ⟨hm, hget⟩ := List.getElem?_eq_some_iff.mp ht
    rw [List.take_succ_eq_append_getElem hm, hget]
  apply length_compileNode_elem_le
  simp only [List.take_nil, textKid, if_true, List.append_nil, hnext, compileNodes_append,
    List.length_append, compileNodes, compileNode]
  rcases wordBoundary_trimDanglingTail t with h0 | ⟨-, hend⟩
  · simp [h0, compileNodes]
  · have hblank : t[trimDanglingTail t]? = some 32 :=
      hend.resolve_left (by simpa using hlt)
    split_ifs with hnil
    · simp [compileNodes]
    · have hpos : 0 < trimDanglingTail t := Nat.pos_of_ne_zero fun h => hnil (by simp [h])
      have hle := length_putStr_take_le hpos hblank (by
        by_contra hcon
        simp only [not_or, not_forall, not_not] at hcon
        obtain ⟨⟨u, hu, hopen⟩, hmem⟩ := hcon
        exact hclean ⟨_, hblank, hmem, u, hu, hopen⟩)
      simpa [compileNodes, compileNode] using hle

/-- **The head of a split fits the page it ends.** -/
theorem splitToFit_fits {head : Node} {rest : Option Node}
    (h : splitToFit room blk = some (head, rest)) (hclean : Trimmable blk) :
    contentSize room.title room.base (room.cur ++ [head]) ≤ room.limit := by
  cases blk with
  | text t => simp [splitToFit_text] at h
  | elem name attrs kids =>
    simp only [splitToFit] at h
    split_ifs at h with hnil hall hzero
    simp only [Option.some.injEq, Prod.mk.injEq] at h
    obtain ⟨rfl, -⟩ := h
    have hkids := fits_fitKids room name attrs kids 0
    generalize fitKids room name attrs kids 0 = m at hall hzero hkids ⊢
    by_cases hcut : 0 < fitCut room name attrs kids m
    · -- a text is cut at the edge
      have hc : tidySeam kids ⟨m, fitCut room name attrs kids m⟩ =
          ⟨m, fitCut room name attrs kids m⟩ := if_neg fun h0 => hcut.ne' h0.1
      rw [hc, headOf]
      exact contentSize_of_fits (fits_fitCut hcut)
    · have hcut0 : fitCut room name attrs kids m = 0 := by omega
      rw [hcut0] at hzero ⊢
      by_cases hpos : 0 < m
      swap
      · exact absurd (by simp [tidySeam, Nat.le_zero.mp (not_lt.mp hpos)]) hzero
      have hfits := hkids.resolve_left hpos.ne'
      have hwhole : contentSize room.title room.base
          (room.cur ++ [headOf name attrs kids ⟨m, 0⟩]) ≤ room.limit := by
        have heq : headOf name attrs kids ⟨m, 0⟩ = prefixOf name attrs kids m [] 0 := by
          simp [headOf, prefixOf]
        rw [heq]
        exact contentSize_of_fits hfits
      simp only [tidySeam, true_and, if_pos hpos]
      split
      · next t ht =>
          split_ifs with htrim
          · -- the seam is tidied: the head ends earlier
            obtain ⟨k, rfl⟩ : ∃ k, m = k + 1 := ⟨m - 1, by omega⟩
            rw [Nat.add_sub_cancel] at ht ⊢
            have hmem : .text t ∈ kids := List.mem_of_getElem? ht
            have hle := length_compileNode_tidy name attrs (some room.base) ht (hclean t hmem)
              htrim
            have hedge : edgeText kids ⟨k, trimDanglingTail t⟩ = t := by simp [edgeText, ht]
            have := contentSize_of_fits hfits
            rw [headOf, hedge]
            simp only [contentSize, compileNodes_append, compileNodes, List.append_nil,
              List.length_append] at this ⊢
            omega
          · exact hwhole
      · exact hwhole

/-- The end of a block cut in two has no reference with a blank in it either. -/
theorem Trimmable.rest {head rest : Node} (hclean : Trimmable blk)
    (h : splitToFit room blk = some (head, some rest)) : Trimmable rest := by
  cases blk with
  | text t => simp [splitToFit_text] at h
  | elem name attrs kids =>
    rcases splitToFit_cases h with ⟨pre, k, post, rfl, -, -, -, hrest⟩ |
      ⟨pre, t, cut, post, rfl, -, -, -, hrest⟩
    · obtain rfl := Option.some.inj hrest
      intro s hs
      exact hclean s (List.mem_append_right _ hs)
    · unfold wrapRest at hrest
      split_ifs at hrest
      obtain rfl := Option.some.inj hrest
      intro s hs
      rcases List.mem_append.mp hs with hs | hs
      · have hsuf : skipLeadingSeparators (t.drop cut) <:+ t :=
          (skipLeadingSeparators_suffix _).trans (List.drop_suffix _ _)
        have heq : s = skipLeadingSeparators (t.drop cut) := by
          unfold textKid at hs
          split_ifs at hs
          · cases hs
          · simpa using hs
        rw [heq]
        exact fun hspaced => hclean t (by simp [Tree.kids]) (hspaced.of_suffix hsuf)
      · exact hclean s (by simp [Tree.kids, hs])

/-! ## Blocks that cannot be cut -/

/-- Behind the first `m` children nothing more fits: neither the next child whole nor, if that is a
text, its first word. -/
def NothingBehind (room : Room) (name : Bytes) (attrs : List (Bytes × Bytes)) (kids : List Node)
    (m : ℕ) : Prop :=
  room.fits (prefixOf name attrs kids (m + 1) [] 0) = false ∧
    ∀ t i, kids[m]? = some (.text t) → (wordCuts t maxWords).head? = some i →
      room.fits (prefixOf name attrs kids m t i) = false

/-- A block that is not cut, since nothing of it can be put on the page: it has no children, or
nothing of its first child fits, or nothing fits behind a first child that is a text without a word
that can end a line. -/
def Uncuttable (room : Room) (blk : Node) : Prop :=
  splitToFit room blk = none ∧
    match blk with
    | .text _ => True
    | .elem name attrs kids => kids = [] ∨ NothingBehind room name attrs kids 0 ∨
        (NothingBehind room name attrs kids 1 ∧
          ∃ t, kids.head? = some (.text t) ∧ trimDanglingTail t = 0)

variable (room name attrs kids) in
/-- The binary search stays within its bounds. -/
theorem le_fitWords (m : ℕ) (t : Bytes) (cuts : List ℕ) (lo hi : ℕ) :
    lo ≤ fitWords room name attrs kids m t cuts lo hi := by
  fun_induction fitWords room name attrs kids m t cuts lo hi with
  | case1 lo hi hlt mid hfit ih => omega
  | case2 lo hi hlt mid hfit ih => exact ih
  | case3 lo hi hlt => exact le_rfl

variable (room name attrs kids) in
/-- The binary search stays within its bounds. -/
theorem fitWords_le (m : ℕ) (t : Bytes) (cuts : List ℕ) {lo hi : ℕ} (h : lo ≤ hi) :
    fitWords room name attrs kids m t cuts lo hi ≤ hi := by
  fun_induction fitWords room name attrs kids m t cuts lo hi with
  | case1 lo hi hlt mid hfit ih => exact ih (by omega)
  | case2 lo hi hlt mid hfit ih => exact (ih (by omega)).trans (by omega)
  | case3 lo hi hlt => exact h

/-- When the binary search keeps no word, the first one does not fit. -/
theorem not_fits_first_word {cuts : List ℕ} {hi : ℕ} (hpos : 0 < hi)
    (h : fitWords room name attrs kids m t cuts 0 hi = 0) :
    room.fits (prefixOf name attrs kids m t (cuts.getD 0 0)) = false := by
  induction hi using Nat.strong_induction_on with
  | _ hi ih =>
    rw [fitWords, if_pos hpos] at h
    simp only at h
    split_ifs at h with hfit
    · have := le_fitWords room name attrs kids m t cuts ((0 + hi + 1) / 2) hi
      omega
    · by_cases h1 : (0 + hi + 1) / 2 - 1 = 0
      · rw [h1] at hfit
        simpa using hfit
      · exact ih _ (by omega) (by omega) h

/-- When no word of the child at the edge is kept, its first one does not fit. -/
theorem not_fits_of_fitCut {i : ℕ} (h : fitCut room name attrs kids m = 0)
    (ht : kids[m]? = some (.text t)) (hi : (wordCuts t maxWords).head? = some i) :
    room.fits (prefixOf name attrs kids m t i) = false := by
  have hcuts : 0 < (wordCuts t maxWords).length :=
    List.length_pos_iff.mpr fun h0 => by simp [h0] at hi
  have hfirst : (wordCuts t maxWords).getD 0 0 = i := by
    rw [List.getD_eq_getElem?_getD, ← List.head?_eq_getElem?, hi]
    rfl
  rw [← hfirst]
  apply not_fits_first_word hcuts
  unfold fitCut at h
  rw [ht] at h
  simp only at h
  split_ifs at h with hn
  · -- a cut is past the start of its text
    have hlt := fitWords_le room name attrs kids m t (wordCuts t maxWords)
      (Nat.zero_le (wordCuts t maxWords).length)
    have hidx : fitWords room name attrs kids m t (wordCuts t maxWords) 0
        (wordCuts t maxWords).length - 1 < (wordCuts t maxWords).length := by omega
    rw [List.getD_eq_getElem?_getD, List.getElem?_eq_getElem hidx, Option.getD_some] at h
    have := (wordBoundary_of_mem_wordCuts (List.getElem_mem hidx)).1
    omega
  · exact Nat.le_zero.mp (not_lt.mp hn)

/-- The loop over whole children stops at the end, or before a child that does not fit. -/
theorem not_fits_of_fitKids (m : ℕ) (h : fitKids room name attrs kids m < kids.length) :
    room.fits (prefixOf name attrs kids (fitKids room name attrs kids m + 1) [] 0) = false := by
  fun_induction fitKids room name attrs kids m with
  | case1 m hm ih => exact ih h
  | case2 m hm => exact Bool.eq_false_iff.mpr fun hfits => hm ⟨h, hfits⟩

/-- Where the search for a cut stops, nothing more fits. -/
theorem nothingBehind_of_search (hall : fitKids room name attrs kids 0 < kids.length)
    (hcut : fitCut room name attrs kids (fitKids room name attrs kids 0) = 0) :
    NothingBehind room name attrs kids (fitKids room name attrs kids 0) :=
  ⟨not_fits_of_fitKids 0 hall, fun _ _ ht hi => not_fits_of_fitCut hcut ht hi⟩

/-- A seam that is tidied down to nothing was before the first child, or after a first child that
is a text without a word that can end a line. -/
theorem tidySeam_eq_zero {c : Cut} (h : (tidySeam kids c).m = 0 ∧ (tidySeam kids c).cut = 0) :
    c.cut = 0 ∧ (c.m = 0 ∨
      c.m = 1 ∧ ∃ t, kids.head? = some (.text t) ∧ trimDanglingTail t = 0) := by
  unfold tidySeam at h
  split_ifs at h with hseam
  swap
  · exact ⟨h.2, Or.inl h.1⟩
  refine ⟨hseam.1, ?_⟩
  split at h
  · next t ht =>
      split_ifs at h
      · -- the seam goes back into the text before it
        have hm : c.m = 1 := by
          have : c.m - 1 = 0 := h.1
          omega
        rw [hm, Nat.sub_self, ← List.head?_eq_getElem?] at ht
        exact Or.inr ⟨hm, t, ht, h.2⟩
      · exact Or.inl h.1
  · exact Or.inl h.1

/-- **A block that `split_to_fit` does not cut cannot be cut**, unless it fits whole. -/
theorem uncuttable_of_splitToFit (h : splitToFit room blk = none)
    (hbig : room.fits blk = false) : Uncuttable room blk := by
  refine ⟨h, ?_⟩
  cases blk with
  | text t => trivial
  | elem name attrs kids =>
    simp only [splitToFit] at h
    split_ifs at h with hnil hall hzero
    · exact Or.inl hnil
    · -- every child fits, so the block does
      exfalso
      rcases fits_fitKids room name attrs kids 0 with h0 | hfits
      · rw [h0] at hall
        exact hnil (List.eq_nil_of_length_eq_zero hall.symm)
      · rw [hall] at hfits
        simp [prefixOf, textKid, hbig] at hfits
    · right
      obtain ⟨hcut, hm⟩ := tidySeam_eq_zero hzero
      have hlt := lt_of_le_of_ne (fitKids_le room name attrs (Nat.zero_le kids.length)) hall
      have hstop := nothingBehind_of_search hlt hcut
      rcases hm with hm | ⟨hm, hdangling⟩
      · exact Or.inl (hm ▸ hstop)
      · exact Or.inr ⟨hm ▸ hstop, hdangling⟩

end Split

/-! ## The packing loop -/

/-- A page that keeps to its limit, or carries nothing but a block that cannot be cut. -/
def Bounded (title base : Bytes) (limit : ℕ) (page : List Node) : Prop :=
  contentSize title base page ≤ limit ∨
    ∃ blk, page = [blk] ∧ Uncuttable ⟨[], title, limit, base⟩ blk

/-- **Every page that is packed is bounded.** -/
theorem pack_bounded {title base : Bytes} {limit : ℕ} {queue cur : List Node}
    (hqueue : ∀ blk ∈ queue, Trimmable blk)
    (hcur : cur = [] ∨ contentSize title base cur ≤ limit) :
    ∀ page ∈ pack title limit base queue cur, Bounded title base limit page := by
  fun_induction pack title limit base queue cur with
  | case1 => simp
  | case2 cur hne =>
    intro page hpage
    obtain rfl := List.mem_singleton.mp hpage
    exact Or.inl (hcur.resolve_left hne)
  | case3 blk queue cur hfits ih =>
    refine ih (fun b hb => hqueue b (by simp [hb])) (Or.inr ?_)
    exact (contentSize_le_cardSize _ _ _).trans hfits
  | case4 blk queue cur hfits head rest hsplit ih =>
    have hs := splitToFit_of_splitOff hsplit
    have hblk := hqueue blk (by simp)
    simp only [List.mem_cons, forall_eq_or_imp] at hqueue ⊢
    refine ⟨Or.inl (splitToFit_fits hs hblk), ih ?_ (Or.inl rfl)⟩
    exact List.forall_mem_cons.mpr ⟨hblk.rest hs, hqueue.2⟩
  | case5 blk queue cur hfits head hsplit ih =>
    have hs := splitToFit_of_splitOff hsplit
    have hblk := hqueue blk (by simp)
    simp only [List.mem_cons, forall_eq_or_imp] at hqueue ⊢
    exact ⟨Or.inl (splitToFit_fits hs hblk), ih hqueue.2 (Or.inl rfl)⟩
  | case6 blk queue hfits hsplit ih =>
    simp only [List.mem_cons, forall_eq_or_imp] at hqueue ⊢
    refine ⟨Or.inr ⟨blk, rfl, uncuttable_of_splitToFit ?_ ?_⟩, ih hqueue.2 (Or.inl rfl)⟩
    · -- on an empty page a split is always worth it
      unfold splitOff at hsplit
      split at hsplit
      · assumption
      · simp at hsplit
    · simpa [Room.fits] using hfits
  | case7 blk queue cur hfits hsplit hne ih =>
    rw [List.forall_mem_cons]
    exact ⟨Or.inl (hcur.resolve_left hne), ih hqueue (Or.inl rfl)⟩

/-! ## The navigation and the title -/

/-- The numbers of pages and links, as far as they are measured. -/
theorem decimal_small (n : ℕ) (hn : n < 100) :
    (decimal n).length ≤ 2 ∧ ∀ c ∈ decimal n, isDigit c = true :=
  ⟨(length_decimal_le_iff (by decide)).mpr hn, fun _ => isDigit_of_mem_decimal⟩

theorem notMem_decimal {n : ℕ} (hn : n < 100) {c : UInt8} (hc : isDigit c = false) :
    c ∉ decimal n := by
  intro hmem
  rw [(decimal_small n hn).2 c hmem] at hc
  cases hc

/-- The size of a link. -/
theorem length_compileNode_navLink (base : Option Bytes) (label href : Bytes) :
    (compileNode base (navLink label href)).length =
      (putStr (withBase base attrHref href)).length + (putStr label).length + 6 := by
  have hp : elementCode (lit "p") = some 0x20 := by decide
  have ha : elementCode (lit "a") = some 0x1C := by decide
  have hhref : attrCode (lit "href") = some attrHref := by decide
  have hvalue : valueAttrCode (lit "href") href = none := by
    have h : ∀ e ∈ valueAttrs, eqNoCase e.1.1 (lit "href") = false := by decide
    rw [valueAttrCode, Option.map_eq_none_iff, List.find?_eq_none]
    intro e he
    simp [h e he]
  simp only [navLink, compileNode, compileNodes, hp, ha, compileAttr, hvalue, hhref,
    List.flatMap_cons, List.flatMap_nil, List.append_nil, element, closed, putStr_ne_nil,
    if_false, List.cons_ne_nil, List.length_cons, List.length_append, List.length_nil, if_true,
    List.cons_append]
  omega

/-- What is kept for the navigation is what its links take. -/
theorem navCost_eq (title path base : Bytes) :
    navCost title path base =
      (compileNode (some base) (navLink prevLabel (setPageParam path 98 1100))).length +
        (compileNode (some base) (navLink nextLabel (setPageParam path 99 1100))).length := by
  have hpos := length_compileNode_navLink (some base) prevLabel (setPageParam path 98 1100)
  simp only [navCost, cardSize, length_compileCard, compileNodes, List.nil_append,
    List.append_nil, List.length_append, List.length_nil, if_true]
  rw [if_neg]
  · omega
  · intro h
    have := congrArg List.length (List.append_eq_nil_iff.mp h).1
    rw [hpos, List.length_nil] at this
    omega

/-- A page parameter of at most two digits ends a name and has nothing of the `$`-syntax. -/
theorem pageSuffix_plain (uri : Bytes) {k : ℕ} (hk : k < 100) :
    Breaks (pageSuffix uri k) ∧ 36 ∉ pageSuffix uri k ∧ 41 ∉ pageSuffix uri k := by
  have h36 := notMem_decimal hk (c := 36) (by decide)
  have h41 := notMem_decimal hk (c := 41) (by decide)
  have hsep : ∀ sep ∈ [lit "&", lit "?"], Breaks (sep ++ pageParamName ++ decimal k) ∧
      36 ∉ sep ++ pageParamName ++ decimal k ∧
      41 ∉ sep ++ pageParamName ++ decimal k := by
    have hplain : ∀ sep ∈ [lit "&", lit "?"], (∀ c ∈ sep.head?, IsBreak c) ∧ sep ≠ [] ∧
        36 ∉ sep ++ pageParamName ∧ 41 ∉ sep ++ pageParamName := by
        decide +kernel
    intro sep hsep
    obtain ⟨hb, hne, hd, hc⟩ := hplain sep hsep
    refine ⟨?_, fun h => (List.mem_append.mp h).elim hd h36,
      fun h => (List.mem_append.mp h).elim hc h41⟩
    intro c hc
    rw [List.append_assoc, List.head?_append_of_ne_nil _ hne] at hc
    exact hb c hc
  unfold pageSuffix
  split_ifs
  · simp [Breaks]
  · exact hsep _ (by simp)
  · exact hsep _ (by simp)

/-- The page parameter of a link is no longer than those that are measured. -/
theorem length_pageSuffix_le (uri : Bytes) (hk : k < 100) {j : ℕ} (hj : j = 98 ∨ j = 99) :
    (pageSuffix uri k).length ≤ (pageSuffix uri j).length := by
  have hk' := (decimal_small k hk).1
  have hj' : (decimal j).length = 2 := by rcases hj with rfl | rfl <;> decide
  have hj0 : j ≠ 0 := by omega
  simp only [pageSuffix, if_neg hj0]
  by_cases h0 : k = 0
  · simp [h0]
  · simp only [if_neg h0, List.length_append]
    omega

/-- The page parameter of a link takes no more than those that are measured. -/
theorem shorter_pageSuffix (uri : Bytes) (hk : k < 100) {j : ℕ} (hj : j = 98 ∨ j = 99) :
    Shorter (pageSuffix uri k) (pageSuffix uri j) := by
  obtain ⟨hb, hd, -⟩ := pageSuffix_plain uri hk
  obtain ⟨hb', hd', -⟩ := pageSuffix_plain uri (k := j) (by omega)
  exact Shorter.literal hb hb' hd hd' (length_pageSuffix_le uri hk hj)

/-- **The title of a page takes no more than the one it was measured with.** -/
theorem length_putStr_pageTitle_le (title : Bytes) (hk : k < pages)
    (h1 : 1 < pages) (hpages : pages < 100) :
    (putStr (pageTitleOf title k pages)).length ≤ (putStr (title ++ titleSuffix)).length := by
  have hdigits : ∀ c, isDigit c = false → c ∉ decimal (k + 1) := fun c hc =>
    notMem_decimal (by omega) hc
  have hdigits' : ∀ c, isDigit c = false → c ∉ decimal pages := fun c hc => notMem_decimal hpages hc
  have hk' := (decimal_small (k + 1) (by omega)).1
  have hpages' := (decimal_small pages hpages).1
  have hlast : titleSuffix = lit " (99/99" ++ [41] := by decide
  -- the suffix without its bracket
  set inner := lit " (" ++ decimal (k + 1) ++ lit "/" ++ decimal pages with hinner
  have htitle : pageTitleOf title k pages = title ++ (inner ++ [41]) := by
    have hclose : lit ")" = [41] := by decide
    rw [pageTitleOf, if_pos h1, hclose, hinner]
    simp
  have hnotMem : ∀ c : UInt8, isDigit c = false → c ∉ lit " (" → c ∉ lit "/" → c ∉ inner := by
    intro c hc hopen hslash
    simp [hinner, hdigits c hc, hdigits' c hc, hopen, hslash]
  have h36 : 36 ∉ inner := hnotMem 36 (by decide) (by decide) (by decide)
  have h41 : 41 ∉ inner := hnotMem 41 (by decide) (by decide) (by decide)
  have hshorter : Shorter (inner ++ [41]) titleSuffix := by
    apply Shorter.literal
    · have hblank : lit " (" = [32, 40] := by decide
      intro c hc
      have hc32 : 32 = c := by simpa [hinner, hblank] using hc
      rw [← hc32]
      decide
    · unfold Breaks
      decide +kernel
    · simpa using h36
    · decide
    · have hopen : (lit " (").length = 2 := by decide
      have hslash : (lit "/").length = 1 := by decide
      have hmax : titleSuffix.length = 8 := by decide
      simp only [hinner, List.length_append, List.length_cons, List.length_nil, hopen, hslash, hmax]
      omega
  have hle := length_putStrFrom_append_le hshorter (s := title)
    (Or.inr (Or.inr ⟨⟨by simp, afterByte_append h41 []⟩, by decide, by decide⟩)) []
  have hsuffix : titleSuffix ≠ [] := by decide
  rwa [htitle, putStr_of_ne_nil (by simp), putStr_of_ne_nil (by simp [hsuffix])]

/-! ## Addresses -/

/-- An address the navigation is measured for: absolute, with a scheme and a host of ordinary bytes
and a path that starts with one slash, within the buffers of `paged_build`. -/
structure SiteUri (scheme host path : Bytes) : Prop where
  /-- The scheme is letters. -/
  scheme_alpha : ∀ c ∈ scheme, isAlpha c = true
  /-- The host ends at the path. -/
  host_clean : ∀ c ∈ host, c ∉ lit "/?&#$"
  /-- The path starts with a slash. -/
  path_head : path.head? = some 47
  /-- So it does without its page parameter. -/
  pageless_head : (pagelessUri path).head? = some 47
  /-- There is no second slash. -/
  pageless_next : ((pagelessUri path).drop 1).head? ≠ some 47
  /-- The address fits. -/
  length_le : (originOf scheme host ++ path).length ≤ 1023
  /-- The origin fits. -/
  origin_le : (originOf scheme host).length ≤ 511

section Uri

variable {j : ℕ}
variable {scheme host path : Bytes}

/-- The bytes of an origin. -/
theorem SiteUri.origin_clean (h : SiteUri scheme host path) :
    ∀ c ∈ originOf scheme host, c ≠ 63 ∧ c ≠ 38 ∧ c ≠ 35 ∧ c ≠ 36 := by
  intro c hc
  have hplain : ∀ c ∈ lit "://", c ≠ 63 ∧ c ≠ 38 ∧ c ≠ 35 ∧ c ≠ 36 := by decide
  rcases List.mem_append.mp hc with hc | hc
  · rcases List.mem_append.mp hc with hc | hc
    · have hletter := h.scheme_alpha c hc
      refine ⟨?_, ?_, ?_, ?_⟩ <;> (rintro rfl; revert hletter; decide)
    · exact hplain c hc
  · have hhost := h.host_clean c hc
    refine ⟨?_, ?_, ?_, ?_⟩ <;> (rintro rfl; exact hhost (by decide))

/-- An origin starts with a letter of its scheme, or with the colon after it. -/
theorem SiteUri.origin_head (h : SiteUri scheme host path) :
    ∃ c s, originOf scheme host = c :: s ∧ c ≠ 95 ∧ c ≠ 47 := by
  cases hs : scheme with
  | nil => exact ⟨58, 47 :: 47 :: host, rfl, by decide, by decide⟩
  | cons c s =>
    have hletter := h.scheme_alpha c (by simp [hs])
    refine ⟨c, s ++ lit "://" ++ host, by simp [originOf], ?_, ?_⟩ <;>
      (rintro rfl; revert hletter; decide)

theorem SiteUri.isOrigin (h : SiteUri scheme host path) : IsOrigin (originOf scheme host) where
  clean c hc := ⟨(h.origin_clean c hc).1, (h.origin_clean c hc).2.1, (h.origin_clean c hc).2.2.1⟩
  start := by
    obtain ⟨c, s, heq, hc, -⟩ := h.origin_head
    simpa [heq] using hc

theorem SiteUri.colon_notMem (h : SiteUri scheme host path) : 58 ∉ scheme := by
  intro hmem
  have := h.scheme_alpha 58 hmem
  revert this
  decide

theorem SiteUri.slash_notMem (h : SiteUri scheme host path) : 47 ∉ host :=
  fun hmem => h.host_clean 47 hmem (by decide)

/-- The prefix pages are measured with is at least as long as the one they go out with, and plain. -/
theorem SiteUri.measureBase_plain (h : SiteUri scheme host path) :
    36 ∉ measureBase (originOf scheme host) ∧
      (originOf scheme host).length ≤ (measureBase (originOf scheme host)).length := by
  have hplain : 36 ∉ originOf scheme host := fun hmem => (h.origin_clean 36 hmem).2.2.2 rfl
  unfold measureBase
  split_ifs with hlong
  · exact ⟨hplain, le_rfl⟩
  · exact ⟨by decide, not_lt.mp hlong⟩

/-- What a link to page 98 or 99 of the path is measured as. -/
theorem SiteUri.withBase_setPageParam (h : SiteUri scheme host path) (base : Bytes)
    (hj : j = 98 ∨ j = 99) : withBase (some base) attrHref (setPageParam path j 1100) =
      base ++ (pagelessUri path ++ pageSuffix path j) := by
  obtain ⟨t, ht⟩ : ∃ t, pagelessUri path = 47 :: t := by
    cases hp : pagelessUri path with
    | nil => simpa [hp] using h.pageless_head
    | cons c t => exact ⟨t, by simpa [hp] using h.pageless_head⟩
  have hj0 : j ≠ 0 := by omega
  have hnext : (t ++ pageSuffix path j).head? ≠ some 47 := by
    have hnext := h.pageless_next
    rw [ht] at hnext
    cases t with
    | nil =>
      have hamp : lit "&" = [38] := by decide
      have hmark : lit "?" = [63] := by decide
      rw [List.nil_append, pageSuffix, if_neg hj0, hamp, hmark]
      split_ifs <;> simp
    | cons c t => simpa using hnext
  rw [setPageParam_eq _ (by rcases hj with rfl | rfl <;> decide), ht, List.cons_append]
  exact if_pos ⟨Or.inl rfl, rfl, hnext⟩

/-- **A link of a page takes no more than the one it was measured with.** -/
theorem SiteUri.length_link_le (h : SiteUri scheme host path) {k : ℕ} (hk : k < 100)
    (hj : j = 98 ∨ j = 99) : (putStr (withBase (some (originOf scheme host)) attrHref
      (setPageParam (originOf scheme host ++ path) k 1100))).length ≤
    (putStr (withBase (some (measureBase (originOf scheme host))) attrHref
      (setPageParam path j 1100))).length := by
  obtain ⟨hplain, hle⟩ := h.measureBase_plain
  obtain ⟨c, s, horigin, -, hc⟩ := h.origin_head
  have hplain' : 36 ∉ originOf scheme host := fun hmem =>
    (h.origin_clean 36 hmem).2.2.2 rfl
  have hpageless := pagelessUri_origin h.isOrigin h.path_head h.length_le
  have hdecimal : ∀ n < 100, (decimal n).length ≤ 64 := fun n hn =>
    (decimal_small n hn).1.trans (by decide)
  -- the same parameter goes behind the address and behind its path
  have hsuffix : pageSuffix (originOf scheme host ++ path) k = pageSuffix path k := by
    have hmark : 63 ∉ originOf scheme host := fun hmem => (h.origin_clean 63 hmem).1 rfl
    simp [pageSuffix, hpageless, hmark]
  have hactual : withBase (some (originOf scheme host)) attrHref
      (setPageParam (originOf scheme host ++ path) k 1100) =
      originOf scheme host ++ (pagelessUri path ++ pageSuffix path k) := by
    rw [setPageParam_eq _ (hdecimal k hk), hpageless, hsuffix, List.append_assoc]
    simp [withBase, horigin, hc]
  have hmeasured := h.withBase_setPageParam (measureBase (originOf scheme host)) hj
  rw [hactual, hmeasured, putStr_append hplain' (by simp [horigin]), putStr_append hplain]
  · exact length_putStrFrom_append_le_of_le (shorter_pageSuffix path hk hj)
      ⟨(pageSuffix_plain path hk).2.2, (pageSuffix_plain path (by omega)).2.2⟩ hle _
  · intro hnil
    rw [hnil, horigin] at hle
    simp at hle

/-- A link of a page with a relative address takes no more than the one it was measured with. -/
theorem length_relative_link_le (uri : Bytes) {k : ℕ} (hk : k < 100) (hj : j = 98 ∨ j = 99) :
    (putStr (withBase none attrHref (setPageParam uri k 1100))).length ≤
      (putStr (withBase (some (measureBase [])) attrHref (setPageParam uri j 1100))).length := by
  have hdecimal : ∀ n < 100, (decimal n).length ≤ 64 := fun n hn =>
    (decimal_small n hn).1.trans (by decide)
  refine le_trans ?_ (baseLe_none (b := measureBase []) (by decide) attrHref _)
  simp only [withBase]
  rw [setPageParam_eq _ (hdecimal k hk), setPageParam_eq _ (hdecimal j (by omega))]
  by_cases hnil : pagelessUri uri ++ pageSuffix uri k = []
  · rw [hnil]
    exact two_le_length_putStr _
  · have hj0 : pagelessUri uri ++ pageSuffix uri j ≠ [] := by
      have : j ≠ 0 := by omega
      have hname : pageParamName ≠ [] := by decide
      simp [pageSuffix, this, hname]
    rw [putStr_of_ne_nil hnil, putStr_of_ne_nil hj0]
    exact length_putStrFrom_append_le_of_le (shorter_pageSuffix uri hk hj)
      ⟨(pageSuffix_plain uri hk).2.2, (pageSuffix_plain uri (by omega)).2.2⟩ le_rfl _

end Uri

/-! ## The page that goes out -/

/-- The most a page is allowed to take: `page_bytes`, but no less than its navigation and 128
bytes. -/
def sizeBound (pageBytes navCost : ℕ) : ℕ := max pageBytes (navCost + 128)

/-- What a page is packed to leaves room for the navigation. -/
theorem pageLimit_add_le (pageBytes navCost : ℕ) :
    pageLimit pageBytes navCost + navCost ≤ sizeBound pageBytes navCost := by
  unfold pageLimit sizeBound
  split_ifs <;> omega

/-- The links of a page take no more than those it was measured with. -/
theorem length_compileNodes_navOf_le {uri path : Bytes} {base : Option Bytes} {base' : Bytes}
    (title : Bytes) (hk : k < pages) (hpages : pages < 100)
    (hlink : ∀ i : ℕ, i < 100 → ∀ j : ℕ, j = 98 ∨ j = 99 →
      (putStr (withBase base attrHref (setPageParam uri i 1100))).length ≤
        (putStr (withBase (some base') attrHref (setPageParam path j 1100))).length) :
    (compileNodes base (navOf uri k pages)).length ≤ navCost title path base' := by
  have hprev : (compileNodes base
      (if 0 < k then [navLink prevLabel (setPageParam uri (k - 1) 1100)] else [])).length ≤
      (compileNode (some base') (navLink prevLabel (setPageParam path 98 1100))).length := by
    split_ifs with h0
    · have hcast : (k : ℤ) - 1 = ((k - 1 : ℕ) : ℤ) := by omega
      have := hlink (k - 1) (by omega) 98 (Or.inl rfl)
      rw [hcast]
      simpa [compileNodes, length_compileNode_navLink] using this
    · simp [compileNodes]
  have hnext : (compileNodes base
      (if k < pages - 1 then [navLink nextLabel (setPageParam uri (k + 1) 1100)] else [])).length ≤
      (compileNode (some base') (navLink nextLabel (setPageParam path 99 1100))).length := by
    split_ifs with hlast
    · have hcast : (k : ℤ) + 1 = ((k + 1 : ℕ) : ℤ) := rfl
      have := hlink (k + 1) (by omega) 99 (Or.inr rfl)
      rw [hcast]
      simpa [compileNodes, length_compileNode_navLink] using this
    · simp [compileNodes]
  rw [navOf, compileNodes_append, List.length_append, navCost_eq]
  omega

/-- A page between others has a link. -/
theorem compileNodes_navOf_ne_nil (uri : Bytes) (base : Option Bytes) (k : ℕ)
    (h1 : 1 < pages) : compileNodes base (navOf uri k pages) ≠ [] := by
  have hlink : ∀ label href, compileNode base (navLink label href) ≠ [] := by
    intro label href h
    have := length_compileNode_navLink base label href
    rw [h, List.length_nil] at this
    omega
  intro h
  rw [navOf, compileNodes_append, List.append_eq_nil_iff] at h
  by_cases h0 : 0 < k
  · simp only [if_pos h0, compileNodes, List.append_nil] at h
    exact hlink _ _ h.1
  · rw [if_pos (show k < pages - 1 by omega)] at h
    simp only [compileNodes, List.append_nil] at h
    exact hlink _ _ h.2

/-- The pages of a deck on more than one page are those that were packed. -/
theorem pagesOf_eq_pack {card : Node} {base path : Bytes} {pageBytes : ℕ}
    (h : 1 < (pagesOf card base path pageBytes).length) :
    pagesOf card base path pageBytes =
      pack (baseTitleOf card ++ titleSuffix)
        (pageLimit pageBytes (navCost (baseTitleOf card ++ titleSuffix) path (measureBase base)))
        (measureBase base) (blocksOf card) [] := by
  simp only [pagesOf] at h ⊢
  split_ifs at h ⊢ with hwhole hnone
  · simp at h
  · simp at h
  · rfl

/-- **Every page that goes out is within its bound**, unless it carries a single block that cannot
be cut: the content keeps to the limit, and the links and the title to what was kept for them. -/
theorem wbxmlCompilePage_bounded (wml : Bytes) (latin1 : Bool) (uri : Bytes) (page : ℤ)
    (pageBytes : ℕ)
    (huri : (∃ scheme host path, SiteUri scheme host path ∧ uri = originOf scheme host ++ path) ∨
      findSub (lit "://") uri = none)
    (hblocks : ∀ blk ∈ blocksOf (cardOf (parseWml (cstr (deckSource wml latin1)))), Trimmable blk)
    (hsplit : 1 < (pagedBuild (deckSource wml latin1) uri true page pageBytes).pages.length)
    (hpages : (pagedBuild (deckSource wml latin1) uri true page pageBytes).pages.length < 100) :
    let pg := pagedBuild (deckSource wml latin1) uri true page pageBytes
    let title := pg.baseTitle ++ titleSuffix
    let cost := navCost title (uriPath uri) (measureBase pg.base)
    (wbxmlCompilePage wml latin1 uri page pageBytes).length ≤ sizeBound pageBytes cost ∨
      ∃ blk, pg.pages.getD pg.page [] = [blk] ∧
        Uncuttable ⟨[], title, pageLimit pageBytes cost, measureBase pg.base⟩ blk := by
  intro pg title cost
  -- the prefix and the links that go out against those that were measured
  obtain ⟨hbase, hlink⟩ : BaseLe (if pg.base = [] then none else some pg.base)
      (some (measureBase pg.base)) ∧ ∀ i : ℕ, i < 100 → ∀ j : ℕ, j = 98 ∨ j = 99 →
        (putStr (withBase (if pg.base = [] then none else some pg.base) attrHref
          (setPageParam uri i 1100))).length ≤
        (putStr (withBase (some (measureBase pg.base)) attrHref
          (setPageParam (uriPath uri) j 1100))).length := by
    rcases huri with ⟨scheme, host, path, hsite, rfl⟩ | hrel
    · have hb : pg.base = originOf scheme host := by
        have := uriBase_origin hsite.colon_notMem hsite.slash_notMem hsite.path_head
        rwa [List.take_of_length_le hsite.origin_le] at this
      obtain ⟨c, s, horigin, -, -⟩ := hsite.origin_head
      obtain ⟨hplain, hle⟩ := hsite.measureBase_plain
      rw [hb, if_neg (by simp [horigin]),
        uriPath_origin hsite.colon_notMem hsite.slash_notMem hsite.path_head]
      exact ⟨baseLe_of_length_le (fun hmem => (hsite.origin_clean 36 hmem).2.2.2 rfl) hplain hle,
        fun i hi j hj => hsite.length_link_le hi hj⟩
    · have hb : pg.base = [] := (uriPath_relative hrel).2
      rw [hb, if_pos rfl, (uriPath_relative hrel).1]
      exact ⟨baseLe_none (by decide), fun i hi j hj => length_relative_link_le uri hi hj⟩
  have hpack := pagesOf_eq_pack hsplit
  have hk : pg.page < pg.pages.length := by
    have : pg.page = min page.toNat (pg.pages.length - 1) := rfl
    have : 1 < pg.pages.length := hsplit
    omega
  have hmem : pg.pages.getD pg.page [] ∈ pack title (pageLimit pageBytes cost)
      (measureBase pg.base) (blocksOf (cardOf (parseWml (cstr (deckSource wml latin1))))) [] := by
    have hmem' : pg.pages.getD pg.page [] ∈ pg.pages := by
      rw [List.getD_eq_getElem?_getD, List.getElem?_eq_getElem hk, Option.getD_some]
      exact List.getElem_mem hk
    exact (congrArg (fun l => pg.pages.getD pg.page [] ∈ l) hpack).mp hmem'
  refine (pack_bounded hblocks (Or.inl rfl) _ hmem).imp_left fun hfits => ?_
  have htitle : _ ≤ (putStr title).length :=
    length_putStr_pageTitle_le pg.baseTitle hk hsplit hpages
  have hcontent := length_compileNodes_le hbase (pg.pages.getD pg.page [])
  have hnav : _ ≤ cost := length_compileNodes_navOf_le title hk hpages hlink
  have hlimit := pageLimit_add_le pageBytes cost
  have hne := compileNodes_navOf_ne_nil uri (if pg.base = [] then none else some pg.base) pg.page
    hsplit
  have hsize : (wbxmlCompilePage wml latin1 uri page pageBytes).length =
      14 + (putStr (pageTitleOf pg.baseTitle pg.page pg.pages.length)).length +
        ((compileNodes (if pg.base = [] then none else some pg.base)
            (pg.pages.getD pg.page [])).length +
          (compileNodes (if pg.base = [] then none else some pg.base)
            (navOf uri pg.page pg.pages.length)).length) := by
    have := length_compileCard pg.pageTitle (pg.pages.getD pg.page []) pg.nav
      (if pg.base = [] then none else some pg.base)
    have htitleEq : pg.pageTitle = pageTitleOf pg.baseTitle pg.page pg.pages.length := rfl
    have hnavEq : pg.nav = navOf uri pg.page pg.pages.length := rfl
    rwa [htitleEq, hnavEq, if_neg fun h => hne (List.append_eq_nil_iff.mp h).2] at this
  rw [hsize]
  simp only [contentSize] at hfits
  omega

/-- A block whose texts have no `$` has no reference in them. -/
theorem trimmable_of_plain {blk : Node}
    (h : blk.kids.all (fun k => match k with
      | .text t => !t.contains 36
      | .elem _ _ _ => true) = true) : Trimmable blk := by
  intro t ht hspaced
  obtain ⟨i, -, -, u, hu, -⟩ := hspaced
  have hmem : 36 ∈ t := List.mem_of_mem_take (hu.subset (by simp))
  have := List.all_eq_true.mp h _ ht
  simp [hmem] at this

/-- A deck of four blocks of one word each. -/
def wordsDeck : Bytes :=
  lit "<card>" ++ (List.replicate 4 (lit "<p>aaaaaaaaaaaaaaaaaaaaaaaaaaaaaa</p>")).flatten ++
    lit "</card>"

/-- The words deck, cut into pages of 150 bytes. -/
theorem wordsDeck_bounded :
    let uri := lit "http://h/x"
    let pg := pagedBuild (deckSource wordsDeck false) uri true 1 150
    let title := pg.baseTitle ++ titleSuffix
    let cost := navCost title (uriPath uri) (measureBase pg.base)
    (wbxmlCompilePage wordsDeck false uri 1 150).length ≤ sizeBound 150 cost ∨
      ∃ blk, pg.pages.getD pg.page [] = [blk] ∧
        Uncuttable ⟨[], title, pageLimit 150 cost, measureBase pg.base⟩ blk := by
  have hsite : SiteUri (lit "http") (lit "h") (lit "/x") :=
    ⟨by decide, by decide, by decide, by decide, by decide,
      by decide, by decide⟩
  refine wbxmlCompilePage_bounded wordsDeck false (lit "http://h/x") 1 150
    (Or.inl ⟨_, _, _, hsite, by decide⟩) (fun blk hblk => trimmable_of_plain ?_)
    (by decide +kernel) (by decide +kernel)
  have hplain : ((blocksOf (cardOf (parseWml (cstr (deckSource wordsDeck false))))).all fun b =>
      b.kids.all (fun k => match k with
        | .text t => !t.contains 36
        | .elem _ _ _ => true)) = true := by decide +kernel
  exact List.all_eq_true.mp hplain blk hblk

/-- A deck whose first block starts with an element of many words. -/
def boldDeck : Bytes :=
  lit "<card><p><b>" ++ (List.replicate 60 (lit "word ")).flatten ++ lit "</b></p><p>end</p></card>"

/-- The words deck on its first page, when pages of ten bytes are asked for. -/
theorem wordsDeck_firstPage :
    (let pg := pagedBuild (deckSource wordsDeck false) (lit "http://h/x") true 0 10
    1 < pg.pages.length ∧ 1 < (pg.pages.getD pg.page []).length) ∧
      ¬ (wbxmlCompilePage wordsDeck false (lit "http://h/x") 0 10).length ≤ 10 :=
  ⟨by decide +kernel, by decide +kernel⟩

/-- The bold deck has its element whole on the first of its pages. -/
theorem boldDeck_firstPage :
    let pg := pagedBuild (deckSource boldDeck false) (lit "http://h/x") true 0 300
    1 < pg.pages.length ∧ (∃ t, pg.pages.getD pg.page [] =
        [.elem (lit "p") [] [.elem (lit "b") [] [.text t]]] ∧ 1 < (words t).length) ∧
      ¬ (wbxmlCompilePage boldDeck false (lit "http://h/x") 0 300).length ≤ 300 := by
  have hpages : 1 < (pagedBuild (deckSource boldDeck false) (lit "http://h/x") true 0 300).pages.length := by
    decide +kernel
  have hfirst : let pg := pagedBuild (deckSource boldDeck false) (lit "http://h/x") true 0 300
      pg.pages.getD pg.page [] =
        [.elem (lit "p") [] [.elem (lit "b") [] [.text (List.replicate 60 (lit "word ")).flatten]]] := by
    decide +kernel
  have hsize : ¬ (wbxmlCompilePage boldDeck false (lit "http://h/x") 0 300).length ≤ 300 := by
    decide +kernel
  exact ⟨hpages, ⟨_, hfirst, by decide⟩, hsize⟩

/-- Pages can be longer than what was asked for: when that is less than the least a page is packed
to, with several blocks on one page, and when a block starts with an element that does not fit,
with many words in it. -/
theorem pages_not_within_pageBytes :
    let pg := pagedBuild (deckSource wordsDeck false) (lit "http://h/x") true 0 10
    let pg' := pagedBuild (deckSource boldDeck false) (lit "http://h/x") true 0 300
    (1 < pg.pages.length ∧ 1 < (pg.pages.getD pg.page []).length ∧
      ¬ (wbxmlCompilePage wordsDeck false (lit "http://h/x") 0 10).length ≤ 10) ∧
    (1 < pg'.pages.length ∧ (∃ t, pg'.pages.getD pg'.page [] =
        [.elem (lit "p") [] [.elem (lit "b") [] [.text t]]] ∧ 1 < (words t).length) ∧
      ¬ (wbxmlCompilePage boldDeck false (lit "http://h/x") 0 300).length ≤ 300) := by
  exact ⟨⟨wordsDeck_firstPage.1.1, wordsDeck_firstPage.1.2, wordsDeck_firstPage.2⟩, boldDeck_firstPage⟩

end BoatRudder.Wbxml
