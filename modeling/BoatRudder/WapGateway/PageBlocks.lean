import BoatRudder.WapGateway.CutTexts
import BoatRudder.WapGateway.PagingLossless

/-! # The blocks of a page

What holds of every block of a deck, and of both slices of a block that is split, holds of every
block of its pages. Slices of blocks that read back when they are written do so themselves. -/

namespace BoatRudder.Wbxml

open Wml

/-! ## Packing -/

/-- A property both slices of a split block have when the block has it. -/
def KeptBySplits (Q : Node → Prop) : Prop :=
  ∀ room blk head rest, Q blk → splitToFit room blk = some (head, rest) →
    Q head ∧ ∀ r ∈ rest, Q r

/-- **What the blocks of a deck have, the blocks of its pages have.** -/
theorem KeptBySplits.pack {Q : Node → Prop} (hQ : KeptBySplits Q) (title : Bytes) (limit : ℕ)
    (base : Bytes) {queue cur : List Node} (hqueue : ∀ b ∈ queue, Q b) (hcur : ∀ b ∈ cur, Q b) :
    ∀ page ∈ Wbxml.pack title limit base queue cur, ∀ b ∈ page, Q b := by
  fun_induction Wbxml.pack title limit base queue cur with
  | case1 => simp
  | case2 cur hne => simpa using hcur
  | case3 blk queue cur hfits ih =>
    obtain ⟨hblk, hqueue⟩ := List.forall_mem_cons.mp hqueue
    exact ih hqueue (List.forall_mem_append.mpr ⟨hcur, by simpa using hblk⟩)
  | case4 blk queue cur hfits head rest hsplit ih =>
    obtain ⟨hblk, hqueue⟩ := List.forall_mem_cons.mp hqueue
    obtain ⟨hhead, hrest⟩ := hQ _ _ _ _ hblk (splitToFit_of_splitOff hsplit)
    exact List.forall_mem_cons.mpr ⟨List.forall_mem_append.mpr ⟨hcur, by simpa using hhead⟩,
      ih (List.forall_mem_cons.mpr ⟨hrest rest rfl, hqueue⟩) (by simp)⟩
  | case5 blk queue cur hfits head hsplit ih =>
    obtain ⟨hblk, hqueue⟩ := List.forall_mem_cons.mp hqueue
    obtain ⟨hhead, -⟩ := hQ _ _ _ _ hblk (splitToFit_of_splitOff hsplit)
    exact List.forall_mem_cons.mpr ⟨List.forall_mem_append.mpr ⟨hcur, by simpa using hhead⟩,
      ih hqueue (by simp)⟩
  | case6 blk queue hfits hsplit ih =>
    obtain ⟨hblk, hqueue⟩ := List.forall_mem_cons.mp hqueue
    exact List.forall_mem_cons.mpr ⟨by simpa using hblk, ih hqueue (by simp)⟩
  | case7 blk queue cur hfits hsplit hne ih =>
    exact List.forall_mem_cons.mpr ⟨hcur, ih hqueue (by simp)⟩

/-- The blocks of the pages of a card. -/
theorem KeptBySplits.pagesOf {Q : Node → Prop} (hQ : KeptBySplits Q) {card : Node} (base path : Bytes)
    (pageBytes : ℕ) (hblocks : ∀ b ∈ blocksOf card, Q b) :
    ∀ page ∈ Wbxml.pagesOf card base path pageBytes, ∀ b ∈ page, Q b := by
  simp only [Wbxml.pagesOf]
  split_ifs
  · simpa using hblocks
  · simp
  · exact hQ.pack _ _ _ hblocks (by simp)

/-! ## Slices -/

/-- The words of a slice of a text are words of the text. -/
theorem words_slices_subset {t : Bytes} {cut : ℕ} (hcut : cut = 0 ∨ WordBoundary t cut) :
    words (t.take cut) ⊆ words t ∧ words (skipLeadingSeparators (t.drop cut)) ⊆ words t := by
  have hwords : words t = words (t.take cut) ++ words (t.drop cut) := by
    rcases hcut with rfl | hcut
    · simp
    · exact words_take_append_drop hcut.2
  obtain ⟨dropped, -, hskip⟩ := words_skipLeadingSeparators (t.drop cut)
  rw [hwords, hskip]
  exact ⟨List.subset_append_left _ _,
    List.Subset.trans (List.subset_append_right _ _) (List.subset_append_right _ _)⟩

/-- A property of nodes that depends on the words of a text, and on the tag of an element with
children, is kept by splits. -/
theorem keptBySplits_every {P : Node → Prop}
    (helem : ∀ name attrs kids kids', kids ≠ [] → P (.elem name attrs kids) →
      P (.elem name attrs kids'))
    (htext : ∀ t t', words t' ⊆ words t → P (.text t) → P (.text t')) :
    KeptBySplits (Tree.Every P) := by
  intro room blk head rest hblk hsplit
  cases blk with
  | text t => simp [splitToFit_text] at hsplit
  | elem name attrs kids =>
    obtain ⟨hroot, hkids⟩ := Tree.every_elem.mp hblk
    have hslice : ∀ kids' : List Node, (∀ k ∈ kids', k.Every P) →
        kids ≠ [] → (Tree.elem name attrs kids').Every P := fun kids' hkids' hne =>
      Tree.every_elem.mpr ⟨helem _ _ _ _ hne hroot, hkids'⟩
    rcases splitToFit_cases hsplit with ⟨pre, k, post, rfl, -, -, rfl, rfl⟩ |
      ⟨pre, t, cut, post, rfl, -, hcut, rfl, rfl⟩
    · refine ⟨hslice _ (fun l hl => hkids l (by simp [hl])) (by simp), fun r hr => ?_⟩
      obtain rfl := Option.mem_some_iff.mp hr
      exact hslice _ (fun l hl => hkids l (List.mem_append_right _ hl)) (by simp)
    · obtain ⟨htake, hskip⟩ := words_slices_subset hcut
      have hkid : ∀ t', words t' ⊆ words t → ∀ l ∈ textKid t', l.Every P := by
        intro t' hsub l hl
        unfold textKid at hl
        split_ifs at hl
        · cases hl
        · obtain rfl := List.mem_singleton.mp hl
          exact htext t t' hsub (hkids (.text t) (by simp))
      refine ⟨hslice _ (List.forall_mem_append.mpr
        ⟨fun l hl => hkids l (by simp [hl]), hkid _ htake⟩) (by simp), fun r hr => ?_⟩
      unfold wrapRest at hr
      split_ifs at hr
      · cases hr
      · obtain rfl := Option.mem_some_iff.mp hr
        exact hslice _ (List.forall_mem_append.mpr
          ⟨hkid _ hskip, fun l hl => hkids l (by simp [hl])⟩) (by simp)

/-- Slices are elements. -/
theorem keptBySplits_isElem : KeptBySplits fun n => n.isElem = true := by
  intro room blk head rest hblk hsplit
  cases blk with
  | text t => cases hblk
  | elem name attrs kids =>
    rcases splitToFit_cases hsplit with ⟨pre, k, post, -, -, -, rfl, rfl⟩ |
      ⟨pre, t, cut, post, -, -, -, rfl, rfl⟩
    · exact ⟨rfl, fun r hr => by obtain rfl := Option.mem_some_iff.mp hr; rfl⟩
    · refine ⟨rfl, fun r hr => ?_⟩
      unfold wrapRest at hr
      split_ifs at hr
      · cases hr
      · obtain rfl := Option.mem_some_iff.mp hr
        rfl

theorem depth_of_mem_textKid {t : Bytes} {k : Node} (h : k ∈ textKid t) : k.depth = 0 := by
  unfold textKid at h
  split_ifs at h
  · cases h
  · obtain rfl := List.mem_singleton.mp h
    rfl

/-- Slices are nested no deeper than the block. -/
theorem keptBySplits_depth (d : ℕ) : KeptBySplits fun n => n.depth ≤ d := by
  intro room blk head rest hblk hsplit
  cases blk with
  | text t => simp [splitToFit_text] at hsplit
  | elem name attrs kids =>
    obtain ⟨e, rfl⟩ : ∃ e, d = e + 1 := ⟨d - 1, by rw [Tree.depth] at hblk; omega⟩
    simp only [Tree.depth, Nat.add_le_add_iff_right, Tree.depthIn_le_iff] at hblk
    have hslice : ∀ kids' : List Node, (∀ k ∈ kids', k.depth ≤ e) →
        (Tree.elem name attrs kids').depth ≤ e + 1 := fun kids' hkids' =>
      Nat.succ_le_succ (Tree.depthIn_le_iff.mpr hkids')
    have hkid : ∀ t : Bytes, ∀ k ∈ textKid t, k.depth ≤ e := fun t k hk => by
      rw [depth_of_mem_textKid hk]
      exact Nat.zero_le e
    rcases splitToFit_cases hsplit with ⟨pre, k, post, rfl, -, -, rfl, rfl⟩ |
      ⟨pre, t, cut, post, rfl, -, -, rfl, rfl⟩
    · refine ⟨hslice _ fun l hl => hblk l (by simp [hl]), fun r hr => ?_⟩
      obtain rfl := Option.mem_some_iff.mp hr
      exact hslice _ fun l hl => hblk l (List.mem_append_right _ hl)
    · refine ⟨hslice _ (List.forall_mem_append.mpr ⟨fun l hl => hblk l (by simp [hl]), hkid _⟩),
        fun r hr => ?_⟩
      unfold wrapRest at hr
      split_ifs at hr
      · cases hr
      · obtain rfl := Option.mem_some_iff.mp hr
        exact hslice _ (List.forall_mem_append.mpr ⟨hkid _, fun l hl => hblk l (by simp [hl])⟩)

/-! ## Slices that read back -/

/-- A blank that stands alone dangles. -/
theorem trimDanglingTail_blank : trimDanglingTail (lit " ") = 0 := by
  have hblank : lit " " = [32] := by decide
  rw [trimDanglingTail, hblank, trimFrom]
  rfl

/-- Nothing is left of it at the start of a page. -/
theorem skipLeadingSeparators_drop_blank (cut : ℕ) :
    skipLeadingSeparators ((lit " ").drop cut) = [] := by
  have hblank : lit " " = [32] := by decide
  rw [hblank]
  cases cut with
  | zero => rw [List.drop_zero, skipLeadingSeparators]; rfl
  | succ cut => rw [List.drop_succ_cons, List.drop_nil, skipLeadingSeparators]; rfl

/-- **What reads back when it is written does so in slices.** -/
theorem keptBySplits_readsBack : KeptBySplits ReadsBack := by
  intro room blk head rest hblk hsplit
  cases blk with
  | text t => simp [splitToFit_text] at hsplit
  | elem name attrs kids =>
    obtain ⟨⟨⟨hname, hattrs, hvoid, hshaped⟩, hclean⟩, hkids⟩ := Tree.every_elem.mp hblk
    have hclean : Uninterrupted kids := hclean
    have hslice : ∀ kids' : List Node, kids ≠ [] → ShapedKids name kids' → Uninterrupted kids' →
        (∀ k ∈ kids', ReadsBack k) → ReadsBack (.elem name attrs kids') :=
      fun kids' hne hshaped hclean hkids => Tree.every_elem.mpr
        ⟨⟨⟨hname, hattrs, fun hv => absurd (hvoid hv) hne, hshaped⟩, hclean⟩, hkids⟩
    have htext : ∀ t, ReadsBack (.text t) := fun t =>
      show _ ∧ _ from ⟨trivial, List.isChain_nil, by simp [Tree.kids]⟩
    rcases splitToFit_edges hsplit with ⟨pre, k, post, rfl, hpre, hk, hdangle, rfl, rfl⟩ |
      ⟨pre, t, cut, post, rfl, hpos, hcut, rfl, rfl⟩
    · refine ⟨hslice pre (by simp) hshaped.left (hclean.left ?_) fun l hl => hkids l (by simp [hl]),
        fun r hr => ?_⟩
      · -- a blank before the cut would dangle
        intro l hl
        cases l with
        | elem n as ks => rfl
        | text u =>
          obtain ⟨p, hp⟩ : ∃ p, pre = p ++ [.text u] := List.getLast?_eq_some_iff.mp hl
          rcases hshaped p u (k :: post) (by simp [hp]) with hu | ⟨rfl, -⟩
          · exact hu.1
          · refine absurd ?_ (hdangle (lit " ") hl)
            rw [trimDanglingTail_blank]
            decide
      · obtain rfl := Option.mem_some_iff.mp hr
        exact hslice _ (by simp) (hshaped.right (by simpa using hk)) hclean.right
          fun l hl => hkids l (List.mem_append_right _ hl)
    · -- the text that is cut is no single blank
      have hcollapsed : t ≠ lit " " → Collapsed t := fun hne =>
        (hshaped pre t post rfl).resolve_right fun h => hne h.1
      have hbefore : ∀ l ∈ pre, ReadsBack l := fun l hl => hkids l (by simp [hl])
      have hafter : ∀ l ∈ post, ReadsBack l := fun l hl => hkids l (by simp [hl])
      refine ⟨?_, fun r hr => ?_⟩
      · by_cases h0 : cut = 0
        · have hnone : pre ++ textKid (t.take cut) = pre := by simp [h0, textKid]
          rw [hnone]
          exact hslice pre (by simp) hshaped.left hclean.before hbefore
        · obtain ⟨hb, hlt⟩ := hcut.resolve_left h0
          have hne : t ≠ lit " " := by
            rintro rfl
            have : (lit " ").length = 1 := rfl
            omega
          have htake := (hcollapsed hne).take (Nat.pos_of_ne_zero h0) hb hlt
          rw [textKid, if_neg htake.ne_nil]
          exact hslice _ (by simp) (hshaped.left.snoc htake) (hclean.snoc htake)
            (List.forall_mem_append.mpr ⟨hbefore, by simpa using htext _⟩)
      · unfold wrapRest at hr
        split_ifs at hr with hnil
        · cases hr
        obtain rfl := Option.mem_some_iff.mp hr
        have hsame : pre ++ .text t :: post = (pre ++ [.text t]) ++ post := by simp
        have hpost : ShapedKids name post := ShapedKids.right (hsame ▸ hshaped) hclean.head
        by_cases hskip : skipLeadingSeparators (t.drop cut) = []
        · rw [textKid, if_pos hskip, List.nil_append]
          exact hslice _ (by simp) hpost (Uninterrupted.right (hsame ▸ hclean)) hafter
        · have hne : t ≠ lit " " := by
            rintro rfl
            exact hskip (skipLeadingSeparators_drop_blank cut)
          have hu := (hcollapsed hne).skip hskip
          rw [textKid, if_neg hskip, List.singleton_append]
          exact hslice _ (by simp) (hpost.cons hclean.head hu) (hclean.cons hu)
            (List.forall_mem_cons.mpr ⟨htext _, hafter⟩)

end BoatRudder.Wbxml
