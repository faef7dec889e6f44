import BoatRudder.WapGateway.Wbxml
import Mathlib.Data.List.Range

/-! # Cutting a block at a page's end

`split_to_fit` and what it calls: the largest run of whole children that fits what is left of a
page, then the words of the text child at the edge, then the tidying of the seam. A wrapper node of
C borrows its children; here the pieces share them. -/

namespace BoatRudder.Wbxml

open Wml

variable {t : Bytes} {stop : ℕ}

/-- `page_size_with`: the size of a page holding `cur` and `extra`. -/
def pageSizeWith (title : Bytes) (cur : List Node) (extra : Node) (base : Bytes) : ℕ :=
  cardSize title (cur ++ [extra]) [] base

/-! ## Words -/

/-- `MAX_WORDS`. -/
def maxWords : ℕ := 4096

/-- Whether `i` is just past a word of `t`: at the end, or at a blank that follows another byte. -/
def isWordEnd (t : Bytes) (i : ℕ) : Bool :=
  i == t.length || (t[i]? == some 32 && t[i - 1]? != some 32)

/-- `word_cuts`: the offsets in `t` just past each word, at most `max` of them. -/
def wordCuts (t : Bytes) (max : ℕ) : List ℕ :=
  ((List.range' 1 t.length).filter (isWordEnd t)).take max

/-- `has_alnum`: a letter, a digit or a byte of a multi-byte character. -/
def hasAlnum (w : Bytes) : Bool := w.any (fun c => isAlnum c || 0x80 ≤ c)

/-- The opening brackets. -/
def openers : Bytes := [40, 91, 123, 60]

/-- The bare separators: `|,;:-`. -/
def separators : Bytes := lit "|,;:-"

/-- `ends_line`: whether a word can end a page's last line. -/
def endsLine (w : Bytes) : Bool :=
  hasAlnum w || (!w.any (openers.contains ·) && w.any (fun c => !separators.contains c))

/-- The end of the last word of `t.take stop`: `stop` less the blanks before it. -/
def trimBlanks (t : Bytes) : ℕ → ℕ
  | 0 => 0
  | stop + 1 => if t[stop]? = some 32 then trimBlanks t stop else stop + 1

/-- The start of the word of `t` that ends at `stop`. -/
def wordStart (t : Bytes) : ℕ → ℕ
  | 0 => 0
  | stop + 1 => if t[stop]? = some 32 then stop + 1 else wordStart t stop

theorem trimBlanks_le (t : Bytes) (stop : ℕ) : trimBlanks t stop ≤ stop := by
  induction stop with
  | zero => simp [trimBlanks]
  | succ stop ih =>
    simp only [trimBlanks]
    split <;> omega

theorem wordStart_le (t : Bytes) (stop : ℕ) : wordStart t stop ≤ stop := by
  induction stop with
  | zero => simp [wordStart]
  | succ stop ih =>
    simp only [wordStart]
    split <;> omega

/-- The last byte before a trimmed end is no blank. -/
theorem getElem?_trimBlanks {k : ℕ} (h : trimBlanks t stop = k + 1) : t[k]? ≠ some 32 := by
  induction stop with
  | zero => simp [trimBlanks] at h
  | succ stop ih =>
    simp only [trimBlanks] at h
    split at h
    · exact ih h
    · next hb =>
        obtain rfl : stop = k := by omega
        exact hb

/-- A word that ends after a byte other than a blank is not empty. -/
theorem wordStart_lt {k : ℕ} (h : t[k]? ≠ some 32) : wordStart t (k + 1) < k + 1 := by
  have := wordStart_le t k
  simp only [wordStart, if_neg h]
  omega

/-- The loop of `trim_dangling_tail` at `stop`. -/
def trimFrom (t : Bytes) (stop : ℕ) : ℕ :=
  match _h : trimBlanks t stop with
  | 0 => 0
  | k + 1 =>
    let start := wordStart t (k + 1)
    if endsLine ((t.drop start).take (k + 1 - start)) then k + 1 else trimFrom t start
termination_by stop
decreasing_by
  have h1 := trimBlanks_le t stop
  have h2 := wordStart_lt (getElem?_trimBlanks _h)
  omega

/-- `trim_dangling_tail`: the length of `t` up to the end of its last word that can end a line. -/
def trimDanglingTail (t : Bytes) : ℕ := trimFrom t t.length

/-- `skip_leading_separators`: `t` past its leading blanks and bare separator words. -/
def skipLeadingSeparators (t : Bytes) : Bytes :=
  let t' := t.dropWhile (· == 32)
  let w := t'.takeWhile (· ≠ 32)
  if w = [] ∨ hasAlnum w ∨ !w.all (separators.contains ·) then t'
  else skipLeadingSeparators (t'.drop w.length)
termination_by t.length
decreasing_by
  rename_i hw
  have h1 : t'.length ≤ t.length := length_dropWhile_le (· == 32) t
  have h2 : 0 < w.length := List.length_pos_iff.mpr fun h => hw (Or.inl h)
  have h3 : w.length ≤ t'.length := (List.takeWhile_prefix _).length_le
  change (t'.drop w.length).length < t.length
  rw [List.length_drop]
  omega

/-! ## The split -/

section Split

/-- The page being filled: the blocks already on it, the title and links it is measured with, and
the most bytes it may take. -/
structure Room where
  /-- `cur`. -/
  cur : List Node
  /-- `title`. -/
  title : Bytes
  /-- `limit`. -/
  limit : ℕ
  /-- `base`. -/
  base : Bytes

/-- Whether the page still fits with `n` on it. -/
def Room.fits (room : Room) (n : Node) : Bool :=
  pageSizeWith room.title room.cur n room.base ≤ room.limit

/-- A text child, left out when it is empty. -/
def textKid (t : Bytes) : List Node := if t = [] then [] else [.text t]

variable (room : Room) (name : Bytes) (attrs : List (Bytes × Bytes)) (kids : List Node)

/-- `prefix_of`: the block's first `m` children and the first `cut` bytes of the text `t`. -/
def prefixOf (m : ℕ) (t : Bytes) (cut : ℕ) : Node :=
  .elem name attrs (kids.take m ++ textKid (t.take cut))

/-- The first loop of `split_to_fit` from `m`: whole children while they fit. -/
def fitKids (m : ℕ) : ℕ :=
  if m < kids.length ∧ room.fits (prefixOf name attrs kids (m + 1) [] 0) then fitKids (m + 1) else m
termination_by kids.length - m

/-- The binary search of `split_to_fit`: the most of `cuts` that fit after `m` children. -/
def fitWords (m : ℕ) (t : Bytes) (cuts : List ℕ) (lo hi : ℕ) : ℕ :=
  if lo < hi then
    let mid := (lo + hi + 1) / 2
    if room.fits (prefixOf name attrs kids m t (cuts.getD (mid - 1) 0)) then
      fitWords m t cuts mid hi
    else fitWords m t cuts lo (mid - 1)
  else lo
termination_by hi - lo

/-- The cut in the text child at the edge: just past the last of its words that fits. -/
def fitCut (m : ℕ) : ℕ :=
  match kids[m]? with
  | some (.text t) =>
    let cuts := wordCuts t maxWords
    let n := fitWords room name attrs kids m t cuts 0 cuts.length
    if 0 < n then cuts.getD (n - 1) 0 else 0
  | _ => 0

/-- Where a block is cut: after `m` whole children and the first `cut` bytes of the next one's
text. -/
structure Cut where
  /-- The whole children before the cut. -/
  m : ℕ
  /-- The bytes of text kept of child `m`. -/
  cut : ℕ

/-- The tidying of a seam between two children: a head that would end in a dangling separator or
an opening bracket is cut back to the last word that can end a line. -/
def tidySeam (c : Cut) : Cut :=
  if c.cut = 0 ∧ 0 < c.m then
    match kids[c.m - 1]? with
    | some (.text t) =>
      if trimDanglingTail t < t.length then ⟨c.m - 1, trimDanglingTail t⟩ else c
    | _ => c
  else c

/-- The children left for the next page: the rest of the edge text less the separators it would
open with, then the other children. -/
def restKids (c : Cut) : List Node :=
  match kids[c.m]? with
  | some (.text t) => textKid (skipLeadingSeparators (t.drop c.cut)) ++ kids.drop (c.m + 1)
  | _ => kids.drop c.m

/-- The edge text of a cut, empty when the edge is an element. -/
def edgeText (c : Cut) : Bytes :=
  match kids[c.m]? with
  | some (.text t) => t
  | _ => []

/-- The head of a cut block: the slice that stays on this page. -/
def headOf (c : Cut) : Node := prefixOf name attrs kids c.m (edgeText kids c) c.cut

/-- The slice of a block that starts the next page: none when no child is left. -/
def wrapRest (ks : List Node) : Option Node := if ks = [] then none else some (.elem name attrs ks)

end Split

/-- `split_to_fit`: the head that goes on this page and the rest, if any, that starts the next;
nothing when not even a word fits, or `blk` has no children to split. -/
def splitToFit (room : Room) (blk : Node) : Option (Node × Option Node) :=
  match blk with
  | .text _ => none
  | .elem name attrs kids =>
    if kids = [] then none
    else
      let m := fitKids room name attrs kids 0
      if m = kids.length then none
      else
        let c := tidySeam kids ⟨m, fitCut room name attrs kids m⟩
        if c.m = 0 ∧ c.cut = 0 then none
        else
          some (headOf name attrs kids c, wrapRest name attrs (restKids kids c))

/-! ## What a split can be -/

/-- Whether `i` stands between two words of `t`: at its end or before a blank. -/
def WordBoundary (t : Bytes) (i : ℕ) : Prop := i ≤ t.length ∧ (t[i]? = none ∨ t[i]? = some 32)

/-- Every cut `word_cuts` returns is a word boundary past the start. -/
theorem wordBoundary_of_mem_wordCuts {max i : ℕ} (h : i ∈ wordCuts t max) :
    0 < i ∧ WordBoundary t i := by
  have hmem := List.mem_filter.mp (List.mem_of_mem_take h)
  have hrange := List.mem_range'_1.mp hmem.1
  refine ⟨by omega, by omega, ?_⟩
  have hend := hmem.2
  simp only [isWordEnd, Bool.or_eq_true, Bool.and_eq_true, beq_iff_eq] at hend
  rcases hend with hlen | ⟨hblank, -⟩
  · exact Or.inl (by simp [hlen])
  · exact Or.inr hblank

/-- Blanks are trimmed down to a boundary of the same words. -/
theorem wordBoundary_trimBlanks (h : WordBoundary t stop) : WordBoundary t (trimBlanks t stop) := by
  induction stop with
  | zero => exact h
  | succ stop ih =>
    simp only [trimBlanks]
    split
    · next hb => exact ih ⟨by have := h.1; omega, Or.inr hb⟩
    · exact h

/-- A word starts at the text's start, or after a blank. -/
theorem getElem?_wordStart (h : 0 < wordStart t stop) : t[wordStart t stop - 1]? = some 32 := by
  induction stop with
  | zero => simp [wordStart] at h
  | succ stop ih =>
    simp only [wordStart] at h ⊢
    split at h
    · next hb => simp [hb]
    · next hb => simpa [hb] using ih h

/-- Where `trim_dangling_tail` may stand: between two words, or just past a blank. -/
def TrimPoint (t : Bytes) (stop : ℕ) : Prop :=
  WordBoundary t stop ∨ (0 < stop ∧ t[stop - 1]? = some 32)

/-- Trimming the blanks before such a point leads to a boundary. -/
theorem TrimPoint.wordBoundary (h : TrimPoint t stop) : WordBoundary t (trimBlanks t stop) := by
  rcases h with h | ⟨hpos, hb⟩
  · exact wordBoundary_trimBlanks h
  · obtain ⟨k, rfl⟩ : ∃ k, stop = k + 1 := ⟨stop - 1, by omega⟩
    rw [Nat.add_sub_cancel] at hb
    obtain ⟨hk, -⟩ := List.getElem?_eq_some_iff.mp hb
    rw [trimBlanks, if_pos hb]
    exact wordBoundary_trimBlanks ⟨hk.le, Or.inr hb⟩

/-- `trim_dangling_tail` keeps nothing, or stops at a word boundary. -/
theorem wordBoundary_trimFrom (h : TrimPoint t stop) :
    trimFrom t stop = 0 ∨ WordBoundary t (trimFrom t stop) := by
  fun_induction trimFrom t stop with
  | case1 stop hstop => exact Or.inl rfl
  | case2 stop k hstop start hend => exact Or.inr (by simpa [hstop] using h.wordBoundary)
  | case3 stop k hstop start hend ih =>
    by_cases hpos : 0 < start
    · exact ih (Or.inr ⟨hpos, getElem?_wordStart hpos⟩)
    · obtain h0 : start = 0 := by omega
      left
      rw [h0, trimFrom]
      simp [trimBlanks]

/-- `trim_dangling_tail` keeps nothing, or stops at a word boundary of the text. -/
theorem wordBoundary_trimDanglingTail (t : Bytes) :
    trimDanglingTail t = 0 ∨ WordBoundary t (trimDanglingTail t) :=
  wordBoundary_trimFrom (Or.inl ⟨le_rfl, Or.inl (by simp)⟩)

section Spec

variable {m : ℕ}
variable {room : Room} {name : Bytes} {attrs : List (Bytes × Bytes)} {kids : List Node}

variable (room name attrs) in
/-- The loop over whole children stops within the block. -/
theorem fitKids_le (h : m ≤ kids.length) : fitKids room name attrs kids m ≤ kids.length := by
  fun_induction fitKids room name attrs kids m with
  | case1 m hm ih => exact ih hm.1
  | case2 m hm => exact h

/-- The cut found by the binary search is valid. -/
theorem fitCut_boundary (h : 0 < fitCut room name attrs kids m) :
    ∃ t, kids[m]? = some (.text t) ∧ WordBoundary t (fitCut room name attrs kids m) := by
  unfold fitCut at h ⊢
  split at h
  · next t ht =>
      simp only at h ⊢
      split_ifs at h with hn
      swap
      · exact absurd h (lt_irrefl 0)
      rw [if_pos hn]
      refine ⟨t, ht, ?_⟩
      rw [List.getD_eq_getElem?_getD] at h ⊢
      cases hget : (wordCuts t maxWords)[fitWords room name attrs kids m t (wordCuts t maxWords) 0
          (wordCuts t maxWords).length - 1]? with
      | none => rw [hget] at h; simp at h
      | some i => exact (wordBoundary_of_mem_wordCuts (List.mem_of_getElem? hget)).2
  · simp at h

/-- The words the binary search keeps fit. -/
theorem fits_fitWords {t : Bytes} {cuts : List ℕ} (lo hi : ℕ) :
    fitWords room name attrs kids m t cuts lo hi = lo ∨ room.fits (prefixOf name attrs kids m t
        (cuts.getD (fitWords room name attrs kids m t cuts lo hi - 1) 0)) = true := by
  fun_induction fitWords room name attrs kids m t cuts lo hi with
  | case1 lo hi hlt mid hfit ih =>
    rcases ih with ih | ih
    · rw [ih]
      exact Or.inr hfit
    · exact Or.inr ih
  | case2 lo hi hlt mid hfit ih => exact ih
  | case3 lo hi hlt => exact Or.inl rfl

/-- The text cut at the edge is one of its words' ends, and with it the page fits. -/
theorem fits_fitCut (h : 0 < fitCut room name attrs kids m) :
    room.fits (prefixOf name attrs kids m (edgeText kids ⟨m, fitCut room name attrs kids m⟩)
      (fitCut room name attrs kids m)) = true := by
  simp only [edgeText]
  unfold fitCut at h ⊢
  split at h
  · next t ht =>
      simp only at h ⊢
      split_ifs at h with hn
      swap
      · exact absurd h (lt_irrefl 0)
      rw [if_pos hn]
      exact (fits_fitWords 0 _).resolve_left hn.ne'
  · exact absurd h (lt_irrefl 0)

variable (room name attrs) in
/-- The child the loop over whole children stops at does not fit. -/
theorem not_fits_fitKids (h : fitKids room name attrs kids m < kids.length) :
    room.fits (prefixOf name attrs kids (fitKids room name attrs kids m + 1) [] 0) = false := by
  fun_induction fitKids room name attrs kids m with
  | case1 m hm ih => exact ih h
  | case2 m hm => simpa [h] using hm

/-- A text child that does not fit whole is not cut at its end. -/
theorem fitCut_lt {t : Bytes} (ht : kids[fitKids room name attrs kids 0]? = some (.text t))
    (hpos : 0 < fitCut room name attrs kids (fitKids room name attrs kids 0)) :
    fitCut room name attrs kids (fitKids room name attrs kids 0) < t.length := by
  obtain ⟨hlt, hget⟩ := List.getElem?_eq_some_iff.mp ht
  have hfits := fits_fitCut hpos
  have hbig := not_fits_fitKids room name attrs hlt
  obtain ⟨u, hu, hle, -⟩ := fitCut_boundary hpos
  rw [ht] at hu
  obtain rfl : t = u := by simpa using hu
  refine lt_of_le_of_ne hle fun heq => ?_
  -- with the whole text the head is the block's first children
  have hne : t ≠ [] := by
    rintro rfl
    rw [heq] at hpos
    cases hpos
  have hsame : prefixOf name attrs kids (fitKids room name attrs kids 0) t t.length =
      prefixOf name attrs kids (fitKids room name attrs kids 0 + 1) [] 0 := by
    rw [prefixOf, prefixOf, List.take_length, List.take_succ_eq_append_getElem hlt, hget]
    simp [textKid, hne]
  have hedge : edgeText kids ⟨fitKids room name attrs kids 0,
      fitCut room name attrs kids (fitKids room name attrs kids 0)⟩ = t := by
    simp [edgeText, ht]
  rw [hedge, heq, hsame, hbig] at hfits
  cases hfits

variable (kids) in
/-- A seam is left as it is, or moved into the text that would dangle at it. -/
theorem tidySeam_cases (c : Cut) :
    (tidySeam kids c = c ∧ (c.cut = 0 → ∀ t, 0 < c.m → kids[c.m - 1]? = some (.text t) →
      ¬ trimDanglingTail t < t.length)) ∨
    ∃ t, 0 < c.m ∧ kids[c.m - 1]? = some (.text t) ∧ trimDanglingTail t < t.length ∧
      tidySeam kids c = ⟨c.m - 1, trimDanglingTail t⟩ := by
  unfold tidySeam
  split_ifs with h0
  · split
    · next t ht =>
        split_ifs with htrim
        · exact Or.inr ⟨t, h0.2, ht, htrim, rfl⟩
        · refine Or.inl ⟨rfl, fun _ u _ hu => ?_⟩
          rw [ht] at hu
          obtain rfl : t = u := by simpa using hu
          exact htrim
    · next hother => exact Or.inl ⟨rfl, fun _ t _ ht => absurd ht (hother t)⟩
  · exact Or.inl ⟨rfl, fun hcut t hpos _ => absurd ⟨hcut, hpos⟩ h0⟩

/-- A place in a list of children. -/
theorem exists_split_of_lt (h : m < kids.length) :
    ∃ pre k post, kids = pre ++ k :: post ∧ pre.length = m ∧ kids[m]? = some k := by
  refine ⟨kids.take m, kids.get ⟨m, h⟩, kids.drop (m + 1), by simp, ?_, by simp [h]⟩
  rw [List.length_take, min_eq_left h.le]

/-- **What a split can be**: before an element child, with both slices whole and no text before it
that dangles, or inside a text child, at a word boundary, whose leading separators are then skipped. -/
theorem splitToFit_edges {head : Node} {rest : Option Node}
    (h : splitToFit room (.elem name attrs kids) = some (head, rest)) :
    (∃ pre k post, kids = pre ++ k :: post ∧ pre ≠ [] ∧ k.isElem = true ∧
      (∀ t, pre.getLast? = some (.text t) → ¬ trimDanglingTail t < t.length) ∧
      head = .elem name attrs pre ∧ rest = some (.elem name attrs (k :: post))) ∨
    (∃ pre t cut post, kids = pre ++ .text t :: post ∧ (pre ≠ [] ∨ 0 < cut) ∧
      (cut = 0 ∨ WordBoundary t cut ∧ cut < t.length) ∧
      head = .elem name attrs (pre ++ textKid (t.take cut)) ∧
      rest = wrapRest name attrs (textKid (skipLeadingSeparators (t.drop cut)) ++ post)) := by
  simp only [splitToFit] at h
  split_ifs at h with hnil hall hzero
  simp only [Option.some.injEq, Prod.mk.injEq] at h
  obtain ⟨hhead, hrest⟩ := h
  have hm : fitKids room name attrs kids 0 < kids.length :=
    lt_of_le_of_ne (fitKids_le room name attrs (Nat.zero_le _)) hall
  -- the cut the loops find
  have helem : ∀ n as ks, kids[fitKids room name attrs kids 0]? = some (.elem n as ks) →
      fitCut room name attrs kids (fitKids room name attrs kids 0) = 0 := by
    intro n as ks hget
    simp [fitCut, hget]
  have htext : ∀ t, kids[fitKids room name attrs kids 0]? = some (.text t) →
      fitCut room name attrs kids (fitKids room name attrs kids 0) = 0 ∨
        WordBoundary t (fitCut room name attrs kids (fitKids room name attrs kids 0)) ∧
          fitCut room name attrs kids (fitKids room name attrs kids 0) < t.length := by
    intro t hget
    refine (Nat.eq_zero_or_pos _).imp_right fun hpos => ?_
    obtain ⟨u, hu, hb⟩ := fitCut_boundary hpos
    rw [hget] at hu
    obtain rfl : t = u := by simpa using hu
    exact ⟨hb, fitCut_lt hget hpos⟩
  generalize fitCut room name attrs kids (fitKids room name attrs kids 0) = cut at *
  generalize fitKids room name attrs kids 0 = m at *
  -- the two slices, when the cut stands in a text
  have hslices : ∀ c : Cut, tidySeam kids ⟨m, cut⟩ = c → ∀ pre t post,
      kids = pre ++ .text t :: post → pre.length = c.m →
      (c.cut = 0 ∨ WordBoundary t c.cut ∧ c.cut < t.length) →
      ∃ pre t cut post, kids = pre ++ .text t :: post ∧ (pre ≠ [] ∨ 0 < cut) ∧
        (cut = 0 ∨ WordBoundary t cut ∧ cut < t.length) ∧
        head = .elem name attrs (pre ++ textKid (t.take cut)) ∧
        rest = wrapRest name attrs (textKid (skipLeadingSeparators (t.drop cut)) ++ post) := by
    rintro c hc pre t post hkids hlen hcut
    rw [hc] at hhead hrest hzero
    refine ⟨pre, t, c.cut, post, hkids, ?_, hcut, ?_, ?_⟩
    · rw [← List.length_pos_iff, hlen]
      omega
    · simp [← hhead, headOf, prefixOf, edgeText, hkids, ← hlen]
    · simp [← hrest, restKids, hkids, ← hlen]
  rcases tidySeam_cases kids ⟨m, cut⟩ with ⟨hc, htidy⟩ | ⟨t, hpos, hget, htrim, hc⟩
  · obtain ⟨pre, k, post, hkids, hlen, hget⟩ := exists_split_of_lt hm
    cases k with
    | elem n as ks =>
      obtain rfl := helem n as ks hget
      rw [hc] at hhead hrest hzero
      have hpos : 0 < m := Nat.pos_of_ne_zero fun h0 => hzero ⟨h0, rfl⟩
      have hpre : pre ≠ [] := List.length_pos_iff.mp (hlen ▸ hpos)
      refine Or.inl ⟨pre, _, post, hkids, hpre, rfl, fun t ht => htidy rfl t hpos ?_, ?_, ?_⟩
      · rw [List.getLast?_eq_getElem?, hlen] at ht
        rw [hkids, List.getElem?_append_left (by rw [hlen]; exact Nat.sub_lt hpos Nat.one_pos)]
        exact ht
      · simp [← hhead, headOf, prefixOf, textKid, hkids, ← hlen]
      · simp [← hrest, wrapRest, restKids, hkids, ← hlen]
    | text t => exact Or.inr (hslices _ hc pre t post hkids hlen (htext t hget))
  · obtain ⟨pre, k, post, hkids, hlen, hk⟩ :=
      exists_split_of_lt (show m - 1 < kids.length by omega)
    rw [hget] at hk
    obtain rfl : Tree.text t = k := by simpa using hk
    refine Or.inr (hslices _ hc pre t post hkids hlen ?_)
    exact (wordBoundary_trimDanglingTail t).imp_right fun hb => ⟨hb, htrim⟩

/-- What a split can be, apart from what stands at its edges. -/
theorem splitToFit_cases {head : Node} {rest : Option Node}
    (h : splitToFit room (.elem name attrs kids) = some (head, rest)) :
    (∃ pre k post, kids = pre ++ k :: post ∧ pre ≠ [] ∧ k.isElem = true ∧
      head = .elem name attrs pre ∧ rest = some (.elem name attrs (k :: post))) ∨
    (∃ pre t cut post, kids = pre ++ .text t :: post ∧ (pre ≠ [] ∨ 0 < cut) ∧
      (cut = 0 ∨ WordBoundary t cut) ∧ head = .elem name attrs (pre ++ textKid (t.take cut)) ∧
      rest = wrapRest name attrs (textKid (skipLeadingSeparators (t.drop cut)) ++ post)) := by
  rcases splitToFit_edges h with ⟨pre, k, post, hkids, hpre, hk, -, hhead, hrest⟩ |
    ⟨pre, t, cut, post, hkids, hpos, hcut, hhead, hrest⟩
  · exact Or.inl ⟨pre, k, post, hkids, hpre, hk, hhead, hrest⟩
  · exact Or.inr ⟨pre, t, cut, post, hkids, hpos, hcut.imp_right And.left, hhead, hrest⟩

/-- A text block is never split. -/
theorem splitToFit_text (t : Bytes) : splitToFit room (.text t) = none := rfl

end Spec

/-! ## A rest is smaller -/

/-- What a child of a block weighs: a text as many bytes as it has and one more, an element one. -/
def kidWeight : Node → ℕ
  | .text t => t.length + 1
  | .elem _ _ _ => 1

/-- What is left to place of a block. -/
def blockWeight (n : Node) : ℕ := (n.kids.map kidWeight).sum + 1

/-- Skipping separators drops bytes, if any. -/
theorem skipLeadingSeparators_suffix (t : Bytes) : skipLeadingSeparators t <:+ t := by
  fun_induction skipLeadingSeparators t with
  | case1 t t' w h => exact List.dropWhile_suffix _
  | case2 t t' w h ih => exact ih.trans ((List.drop_suffix _ _).trans (List.dropWhile_suffix _))

/-- The weight of a text child left out when it is empty. -/
theorem textKid_weight_le (t : Bytes) : ((textKid t).map kidWeight).sum ≤ t.length + 1 := by
  unfold textKid
  split_ifs <;> simp [kidWeight]

/-- Every child weighs something. -/
theorem kidWeight_pos (n : Node) : 0 < kidWeight n := by cases n <;> simp [kidWeight]

/-- **A rest is smaller than its block.** -/
theorem splitToFit_rest_lt {room : Room} {blk head rest : Node}
    (h : splitToFit room blk = some (head, some rest)) : blockWeight rest < blockWeight blk := by
  cases blk with
  | text t => simp [splitToFit_text] at h
  | elem name attrs kids =>
    rcases splitToFit_cases h with ⟨pre, k, post, rfl, hpre, -, -, hrest⟩ |
      ⟨pre, t, cut, post, rfl, hpos, hb, -, hrest⟩
    · obtain rfl := Option.some.inj hrest
      obtain ⟨p, ps, rfl⟩ := List.exists_cons_of_ne_nil hpre
      have := kidWeight_pos p
      simp only [blockWeight, Tree.kids, List.cons_append, List.map_cons, List.map_append,
        List.sum_cons, List.sum_append]
      omega
    · unfold wrapRest at hrest
      split_ifs at hrest
      obtain rfl := Option.some.inj hrest
      have hkid := textKid_weight_le (skipLeadingSeparators (t.drop cut))
      have hskip := (skipLeadingSeparators_suffix (t.drop cut)).length_le
      rw [List.length_drop] at hskip
      simp only [blockWeight, Tree.kids, List.map_cons, List.map_append, List.sum_cons,
        List.sum_append, kidWeight]
      rcases hpos with hpre | hcut
      · obtain ⟨p, ps, rfl⟩ := List.exists_cons_of_ne_nil hpre
        have := kidWeight_pos p
        simp only [List.map_cons, List.sum_cons]
        omega
      · have hle := (hb.resolve_left hcut.ne').1
        omega

end BoatRudder.Wbxml
