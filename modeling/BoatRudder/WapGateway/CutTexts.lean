import BoatRudder.WapGateway.WmlReadBack

/-! # Texts and siblings that are cut

A text with its blanks collapsed is still so when it is cut at a word boundary, and what is left of
a list of children before or behind a cut is shaped as the children of the element were. -/

namespace BoatRudder.Wml

open Wbxml

/-! ## Texts that are cut -/

/-- A text without other blanks than single spaces. -/
structure Tight (t : Bytes) : Prop where
  spaces : ∀ c ∈ t, isBlank c = true → c = 32
  single : t.IsChain fun a b => ¬ (a = 32 ∧ b = 32)

theorem Tight.part {s t : Bytes} (h : Tight t) (hs : s <:+: t) : Tight s :=
  ⟨fun c hc => h.spaces c (hs.subset hc), List.IsChain.infix h.single hs⟩

/-- What is collapsed is tight. -/
theorem tight_collapseBlanks (space any : Bool) (s : Bytes) :
    Tight (collapseBlanks space any s) := by
  induction s generalizing space any with
  | nil =>
    rw [collapseBlanks]
    split_ifs
    · exact ⟨by simp, List.isChain_singleton _⟩
    · exact ⟨by simp, List.isChain_nil⟩
  | cons c s ih =>
    rw [collapseBlanks]
    split_ifs with hc hspace
    · exact ih true any
    · have hne : c ≠ 32 := by
        rintro rfl
        exact hc (by decide)
      have ih := ih false true
      refine ⟨?_, ?_⟩
      · intro d hd hblank
        simp only [List.singleton_append, List.mem_cons] at hd
        rcases hd with rfl | rfl | hd
        · rfl
        · exact absurd hblank hc
        · exact ih.spaces d hd hblank
      · rw [List.singleton_append, List.isChain_cons_cons]
        exact ⟨fun h => hne h.2, ih.single.cons fun d _ h => hne h.1⟩
    · have hne : c ≠ 32 := by
        rintro rfl
        exact hc (by decide)
      have ih := ih false true
      refine ⟨?_, ih.single.cons fun d _ h => hne h.1⟩
      intro d hd hblank
      rcases List.mem_cons.mp hd with rfl | hd
      · exact absurd hblank hc
      · exact ih.spaces d hd hblank

/-- A tight text that starts with no blank has no blanks to collapse. -/
theorem collapseBlanks_tight {t : Bytes} (h : Tight t) :
    collapseBlanks false true t = t ∧ (t.head? ≠ some 32 → collapseBlanks true true t = 32 :: t) := by
  have h32 : isBlank 32 = true := by decide
  induction t with
  | nil => exact ⟨rfl, fun _ => rfl⟩
  | cons c t ih =>
    obtain ⟨ihafter, ihspace⟩ := ih (h.part (List.suffix_cons c t).isInfix)
    by_cases hc : isBlank c = true
    · obtain rfl := h.spaces c (by simp) hc
      have hnext : t.head? ≠ some 32 := fun ht => by
        obtain ⟨u, rfl⟩ : ∃ u, t = 32 :: u := by
          cases t with
          | nil => cases ht
          | cons d u => exact ⟨u, by simpa using ht⟩
        exact (List.isChain_cons_cons.mp h.single).1 ⟨rfl, rfl⟩
      refine ⟨?_, fun hne => absurd rfl hne⟩
      rw [collapseBlanks, if_pos hc, ihspace hnext]
    · refine ⟨?_, fun _ => ?_⟩
      · rw [collapseBlanks, if_neg hc, ihafter]
        rfl
      · rw [collapseBlanks, if_neg hc, ihafter]
        rfl

/-- What is collapsed is a tight text that is not all blank. -/
theorem collapsed_iff {t : Bytes} : Collapsed t ↔ t.all isBlank = false ∧ Tight t := by
  constructor
  · intro h
    refine ⟨h.1, ?_⟩
    rw [← h.2]
    exact tight_collapseBlanks false false t
  · rintro ⟨hblank, htight⟩
    refine ⟨hblank, ?_⟩
    -- behind the first byte that is no blank the rest is as it is
    have hstart : ∀ {c : UInt8} {u : Bytes}, Tight (c :: u) → isBlank c = false → ∀ space,
        collapseBlanks space false (c :: u) = (if space then [32] else []) ++ c :: u := by
      intro c u hu hc space
      rw [collapseBlanks, if_neg (by simp [hc]),
        (collapseBlanks_tight (hu.part (List.suffix_cons c u).isInfix)).1]
    cases t with
    | nil => cases hblank
    | cons c u =>
      by_cases hc : isBlank c = true
      · obtain rfl := htight.spaces c (by simp) hc
        rw [collapseBlanks, if_pos hc]
        cases u with
        | nil => simp [hc] at hblank
        | cons d v =>
          have hd : isBlank d = false := by
            by_contra hd
            have h32 := htight.spaces d (by simp) (by simpa using hd)
            exact (List.isChain_cons_cons.mp htight.single).1 ⟨rfl, h32⟩
          rw [hstart (htight.part (List.suffix_cons 32 _).isInfix) hd]
          rfl
      · rw [hstart htight (by simpa using hc)]
        rfl

/-- A collapsed text up to a word boundary. -/
theorem Collapsed.take {t : Bytes} (h : Collapsed t) {cut : ℕ} (hpos : 0 < cut)
    (hcut : WordBoundary t cut) (hlt : cut < t.length) : Collapsed (t.take cut) := by
  obtain ⟨-, htight⟩ := collapsed_iff.mp h
  refine collapsed_iff.mpr ⟨?_, htight.part (List.take_prefix cut t).isInfix⟩
  obtain ⟨k, rfl⟩ : ∃ k, cut = k + 1 := ⟨cut - 1, by omega⟩
  have h32 : t[k + 1] = 32 := by
    rcases hcut.2 with hnone | hblank
    · exact absurd (List.getElem?_eq_none_iff.mp hnone) (by omega)
    · simpa [List.getElem?_eq_getElem hlt] using hblank
  -- the byte before the blank is none
  have hword : isBlank t[k] = false := by
    by_contra hblank
    have := List.isChain_iff_getElem.mp htight.single k (by omega)
    exact this ⟨htight.spaces _ (List.getElem_mem _) (by simpa using hblank), h32⟩
  rw [List.all_eq_false]
  refine ⟨t[k], ?_, by simp [hword]⟩
  rw [List.mem_take_iff_getElem]
  exact ⟨k, by omega, rfl⟩

/-- What separators are skipped from starts with no blank. -/
theorem head?_skipLeadingSeparators (t : Bytes) : (skipLeadingSeparators t).head? ≠ some 32 := by
  fun_induction skipLeadingSeparators t with
  | case1 t t' w h =>
    intro h32
    have := List.head?_dropWhile_not (· == 32) t
    rw [h32] at this
    simp at this
  | case2 t t' w h ih => exact ih

/-- What is left of a collapsed text behind a cut. -/
theorem Collapsed.skip {t : Bytes} (h : Collapsed t) {cut : ℕ}
    (hne : skipLeadingSeparators (t.drop cut) ≠ []) :
    Collapsed (skipLeadingSeparators (t.drop cut)) := by
  obtain ⟨-, htight⟩ := collapsed_iff.mp h
  have htail : Tight (skipLeadingSeparators (t.drop cut)) := htight.part
    ((skipLeadingSeparators_suffix _).trans (List.drop_suffix cut t)).isInfix
  refine collapsed_iff.mpr ⟨?_, htail⟩
  have hhead := head?_skipLeadingSeparators (t.drop cut)
  obtain ⟨c, u, hcu⟩ := List.exists_cons_of_ne_nil hne
  rw [hcu] at hhead htail ⊢
  have hc : isBlank c = false := by
    by_contra hc
    exact hhead (by rw [htail.spaces c (by simp) (by simpa using hc)]; rfl)
  simp [hc]

/-! ## Siblings that are cut -/

section Slices

variable {name : Bytes} {pre post : List Node}

theorem ShapedKids.left (h : ShapedKids name (pre ++ post)) : ShapedKids name pre := by
  rintro p t q rfl
  exact h p t (q ++ post) (by simp)

/-- The children from some place on, when no text stands there. -/
theorem ShapedKids.right (h : ShapedKids name (pre ++ post))
    (hhead : ∀ k ∈ post.head?, k.isElem = true) : ShapedKids name post := by
  rintro p t q rfl
  cases p with
  | nil => cases hhead (.text t) rfl
  | cons k p =>
    refine (h (pre ++ k :: p) t q (by simp)).imp_right fun hgap => ⟨hgap.1, ?_⟩
    simpa only [inlineGap, List.getLast?_append_cons] using hgap.2

theorem ShapedKids.snoc (h : ShapedKids name pre) {t : Bytes} (ht : Collapsed t) :
    ShapedKids name (pre ++ [.text t]) := by
  intro p u q heq
  rcases List.append_eq_append_iff.mp heq with ⟨z, hp, hz⟩ | ⟨z, hpre, hz⟩
  · cases z with
    | nil =>
      obtain ⟨hu, -⟩ := List.cons.inj hz
      cases hu
      exact Or.inl ht
    | cons k z => simp at hz
  · cases z with
    | nil =>
      obtain ⟨hu, -⟩ := List.cons.inj hz
      cases hu
      exact Or.inl ht
    | cons k z =>
      obtain ⟨rfl, -⟩ := List.cons.inj hz
      exact h p u z hpre

theorem ShapedKids.cons (h : ShapedKids name post) (hhead : ∀ k ∈ post.head?, k.isElem = true)
    {t : Bytes} (ht : Collapsed t) : ShapedKids name (.text t :: post) := by
  intro p u q heq
  cases p with
  | nil =>
    obtain ⟨hu, -⟩ := List.cons.inj heq
    cases hu
    exact Or.inl ht
  | cons k p =>
    obtain ⟨-, rfl⟩ := List.cons.inj heq
    cases p with
    | nil => cases hhead (.text u) rfl
    | cons l p =>
      refine (h (l :: p) u q rfl).imp_right fun hgap => ⟨hgap.1, ?_⟩
      simpa only [inlineGap, List.getLast?_cons_cons] using hgap.2

/-- The siblings after a text are elements. -/
theorem Uninterrupted.head {t : Bytes} (h : Uninterrupted (pre ++ .text t :: post)) :
    ∀ k ∈ post.head?, k.isElem = true := by
  intro k hk
  cases post with
  | nil => cases hk
  | cons l post =>
    obtain rfl := Option.some.inj hk
    have := List.isChain_cons_cons.mp (h.1.suffix (List.suffix_append pre _))
    simpa [Tree.isElem] using this.1

theorem Uninterrupted.right (h : Uninterrupted (pre ++ post)) : Uninterrupted post := by
  refine ⟨h.1.suffix (List.suffix_append pre post), fun k hk => h.2 k ?_⟩
  rw [List.getLast?_append]
  exact Option.mem_def.mpr (by rw [Option.mem_def.mp hk]; rfl)

theorem Uninterrupted.left (h : Uninterrupted (pre ++ post))
    (hlast : ∀ k ∈ pre.getLast?, isBlankText k = false) : Uninterrupted pre :=
  ⟨h.1.left_of_append, hlast⟩

/-- The siblings before a text: the last of them is an element. -/
theorem Uninterrupted.before {t : Bytes} (h : Uninterrupted (pre ++ .text t :: post)) :
    Uninterrupted pre := by
  refine h.left fun k hk => ?_
  have hchain := (List.isChain_append.mp h.1).2.2 k hk (.text t) rfl
  cases k with
  | elem name attrs kids => rfl
  | text u => simp [Tree.isElem] at hchain

/-- A text may stand for another. -/
theorem Uninterrupted.snoc {t u : Bytes} (h : Uninterrupted (pre ++ .text t :: post))
    (hu : Collapsed u) : Uninterrupted (pre ++ [.text u]) := by
  refine ⟨?_, ?_⟩
  · have hchain := (show (pre ++ [Tree.text t] ++ post).IsChain _ by simpa using h.1).left_of_append
    rw [List.isChain_append] at hchain ⊢
    refine ⟨hchain.1, List.isChain_singleton _, fun a ha b hb => ?_⟩
    obtain rfl := Option.some.inj hb
    exact hchain.2.2 a ha (.text t) rfl
  · intro k hk
    rw [List.getLast?_concat] at hk
    obtain rfl := Option.some.inj hk
    exact hu.1

theorem Uninterrupted.cons {t u : Bytes} (h : Uninterrupted (pre ++ .text t :: post))
    (hu : Collapsed u) : Uninterrupted (.text u :: post) := by
  have hright := h.right
  refine ⟨?_, ?_⟩
  · cases post with
    | nil => exact List.isChain_singleton _
    | cons k post =>
      have hchain := List.isChain_cons_cons.mp hright.1
      exact List.isChain_cons_cons.mpr ⟨by simpa [Tree.isElem] using hchain.1, hchain.2⟩
  · intro k hk
    cases post with
    | nil =>
      obtain rfl := Option.some.inj hk
      exact hu.1
    | cons l post => exact hright.2 k (by simpa using hk)

end Slices

end BoatRudder.Wml
