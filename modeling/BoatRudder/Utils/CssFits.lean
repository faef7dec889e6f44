import BoatRudder.Utils.CssSpacing

/-! # Which white space changes no feature

The features whose needles hold a colon are found in some spellings of it only: `display:grid` with one
blank behind the colon or none, `container-type` with one in front of it or none, and a selector such as
`:has(` with none behind it. A property's name is not found with a form feed behind it. Where the white
space keeps to that (`SpaceFits`) every feature is found as it is without (`uses_spaced`). -/

namespace BoatRudder.Utils

open Css

variable {l w₁ w₂ r : Bytes}

/-! ## The needles -/

/-- `Clean`, decided. -/
def isClean (m : Bytes) : Bool := m != [] && m.all fun b => !Css.isWhite b && b != 58

theorem clean_of_isClean {m : Bytes} (h : isClean m = true) : Clean m := by
  simp only [isClean, Bool.and_eq_true, bne_iff_ne, List.all_eq_true, Bool.not_eq_true'] at h
  exact ⟨h.1, h.2⟩

/-- A colon and something behind it, without another colon and without white space at the ends. -/
def isPseudo : Bytes → Bool
  | 58 :: c :: q => !Css.isWhite c && (c :: q).all (· != 58) && !(c :: q).getLast?.any Css.isWhite
  | _ => false

theorem exists_of_isPseudo {m : Bytes} (h : isPseudo m = true) : ∃ c q, m = 58 :: c :: q ∧
    Css.isWhite c = false ∧ 58 ∉ c :: q ∧ ∃ x d, c :: q = x ++ [d] ∧ Css.isWhite d = false := by
  unfold isPseudo at h
  split at h
  · next c q =>
      simp only [Bool.and_eq_true, Bool.not_eq_true', List.all_eq_true, bne_iff_ne] at h
      refine ⟨c, q, rfl, h.1.1, fun hmem => h.1.2 58 hmem rfl, ?_⟩
      refine ⟨(c :: q).dropLast, (c :: q).getLast (by simp), ?_, ?_⟩
      · rw [List.dropLast_append_getLast]
      · have hlast := h.2
        rwa [List.getLast?_eq_some_getLast (by simp), Option.any_some] at hlast
  · cases h

/-- The feature of a grid. -/
def gridFeature : CssFeature :=
  ⟨"display: grid", .text, ["display:grid", "display: grid"], "57", "52", "10.1"⟩

/-- The feature of container queries. -/
def containerFeature : CssFeature :=
  ⟨"container queries", .text, ["@container", "container-type:", "container-type :"],
    "105", "110", "16"⟩

/-- The needles of a feature hold no colon, or begin with one, but for two features. -/
theorem clean_or_colon : ∀ f ∈ cssFeatures, (∀ w ∈ f.needle, isClean (lit w) = true) ∨
    (f.kind = .text ∧ ∀ w ∈ f.needle, isPseudo (lit w) = true) ∨
      f = gridFeature ∨ f = containerFeature := by
  decide

theorem clean_of_property : ∀ f ∈ cssFeatures, f.kind = .property →
    ∀ w ∈ f.needle, isClean (lit w) = true := by
  decide

theorem pseudo_of_colon : ∀ f ∈ cssFeatures, ∀ w ∈ f.needle, (lit w).head? = some 58 →
    f.kind = .text ∧ ∀ w' ∈ f.needle, isPseudo (lit w') = true := by
  decide

theorem gridFeature_mem : gridFeature ∈ cssFeatures := by decide

theorem containerFeature_mem : containerFeature ∈ cssFeatures := by decide

/-- A feature has three needles at most. -/
theorem uses_iff {text : Bytes} {f : CssFeature} (hf : f ∈ cssFeatures) :
    uses text f = true ↔ ∃ w ∈ f.needle, f.kind.found text (lit w) = true := by
  have hthree : f.needle.take 3 = f.needle := by
    revert f
    decide
  rw [uses, hthree, List.any_eq_true]

theorem uses_gridFeature {text : Bytes} : uses text gridFeature = true ↔
    lit "display" ++ 58 :: lit "grid" <:+: text ∨
      lit "display" ++ 58 :: 32 :: lit "grid" <:+: text := by
  rw [uses_iff gridFeature_mem]
  simp only [gridFeature, MatchKind.found, isSome_findSub_iff, List.mem_cons, List.not_mem_nil,
    or_false, exists_eq_or_imp, exists_eq_left]
  rfl

theorem uses_containerFeature {text : Bytes} : uses text containerFeature = true ↔
    lit "@container" <:+: text ∨ lit "container-type" ++ [58] <:+: text ∨
      lit "container-type" ++ [32] ++ [58] <:+: text := by
  rw [uses_iff containerFeature_mem]
  simp only [containerFeature, MatchKind.found, isSome_findSub_iff, List.mem_cons, List.not_mem_nil,
    or_false, exists_eq_or_imp, exists_eq_left]
  rfl

/-! ## Over the colon -/

/-- Where a needle with a colon is found. -/
theorem infix_spaced_colon {p q : Bytes} (hp : 58 ∉ p) (hq : 58 ∉ q)
    (h₁ : Blanks w₁) (h₂ : Blanks w₂)
    (hfirst : ∃ c x, p ++ 58 :: q = c :: x ∧ Css.isWhite c = false)
    (hlast : ∃ x c, p ++ 58 :: q = x ++ [c] ∧ Css.isWhite c = false) :
    p ++ 58 :: q <:+: spaced l w₁ w₂ r ↔
      (p ++ 58 :: q <:+: l ∨ p ++ 58 :: q <:+: r) ∨ (p <:+ l ++ w₁ ∧ q <+: w₂ ++ r) := by
  rw [spaced, infix_colon_iff hp hq, or_assoc]
  obtain ⟨c, x, hcx, hc⟩ := hfirst
  obtain ⟨y, d, hyd, hd⟩ := hlast
  have hl : p ++ 58 :: q <:+: l ++ w₁ ↔ p ++ 58 :: q <:+: l := by
    rw [hyd]
    exact infix_append_blanks h₁ hd
  have hr : p ++ 58 :: q <:+: w₂ ++ r ↔ p ++ 58 :: q <:+: r := by
    rw [hcx]
    exact infix_blanks_append h₂ hc
  rw [hl, hr]

/-- A needle that begins with a colon is found over it without white space behind. -/
theorem pseudo_spaced {c : UInt8} {q : Bytes} (hc : Css.isWhite c = false)
    (hcolon : 58 ∉ c :: q) (hlast : ∃ x d, c :: q = x ++ [d] ∧ Css.isWhite d = false)
    (h₁ : Blanks w₁) (h₂ : Blanks w₂) : 58 :: c :: q <:+: spaced l w₁ w₂ r ↔
      (58 :: c :: q <:+: l ∨ 58 :: c :: q <:+: r) ∨ (w₂ = [] ∧ c :: q <+: r) := by
  obtain ⟨x, d, hxd, hd⟩ := hlast
  have h := @infix_spaced_colon l w₁ w₂ r [] (c :: q) List.not_mem_nil hcolon h₁ h₂
    ⟨58, c :: q, rfl, rfl⟩ ⟨58 :: x, d, by rw [List.nil_append, hxd]; rfl, hd⟩
  rw [List.nil_append] at h
  rw [h, prefix_blanks_append h₂ hc]
  simp only [List.nil_suffix, true_and]

/-- A grid is found with one blank behind the colon, or none. -/
theorem grid_spaced (h₁ : Blanks w₁) (h₂ : Blanks w₂) :
    uses (spaced l w₁ w₂ r) gridFeature = true ↔
      (uses l gridFeature = true ∨ uses r gridFeature = true) ∨
        (lit "display" <:+ l ∧ w₁ = [] ∧
          ((w₂ = [] ∧ (lit "grid" <+: r ∨ 32 :: lit "grid" <+: r)) ∨
            (w₂ = [32] ∧ lit "grid" <+: r))) := by
  have hone := @infix_spaced_colon l w₁ w₂ r (lit "display") (lit "grid") (by decide) (by decide)
    h₁ h₂ ⟨100, lit "isplay:grid", by decide, rfl⟩ ⟨lit "display:gri", 100, by decide, rfl⟩
  have htwo := @infix_spaced_colon l w₁ w₂ r (lit "display") (32 :: lit "grid") (by decide)
    (by decide) h₁ h₂ ⟨100, lit "isplay: grid", by decide, rfl⟩
    ⟨lit "display: gri", 100, by decide, rfl⟩
  have hdisplay : lit "display" = lit "displa" ++ [121] := by decide
  have hgrid : lit "grid" = 103 :: lit "rid" := by decide
  have hsuf : lit "display" <:+ l ++ w₁ ↔ w₁ = [] ∧ lit "display" <:+ l := by
    rw [hdisplay]
    exact suffix_append_blanks h₁ rfl
  have hpre : lit "grid" <+: w₂ ++ r ↔ w₂ = [] ∧ lit "grid" <+: r := by
    rw [hgrid]
    exact prefix_blanks_append h₂ rfl
  have hpre' : 32 :: lit "grid" <+: w₂ ++ r ↔
      (w₂ = [] ∧ 32 :: lit "grid" <+: r) ∨ (w₂ = [32] ∧ lit "grid" <+: r) := by
    rw [hgrid]
    exact prefix_blanks_append_cons h₂ rfl
  rw [uses_gridFeature, uses_gridFeature, uses_gridFeature, hone, htwo, hsuf, hpre, hpre']
  clear hone htwo hsuf hpre hpre' hdisplay hgrid
  generalize lit "display" ++ 58 :: lit "grid" = m
  generalize lit "display" ++ 58 :: 32 :: lit "grid" = m'
  generalize lit "display" = d, 32 :: lit "grid" = g', lit "grid" = g
  tauto

/-- Container queries are found with one blank in front of the colon, or none. -/
theorem container_spaced (h₁ : Blanks w₁) (h₂ : Blanks w₂) (hl : EndsInName l) :
    uses (spaced l w₁ w₂ r) containerFeature = true ↔
      (uses l containerFeature = true ∨ uses r containerFeature = true) ∨
        (lit "container-type" <:+ l ∧ (w₁ = [] ∨ w₁ = [32])) := by
  have hclean : lit "@container" <:+: spaced l w₁ w₂ r ↔
      lit "@container" <:+: l ∨ lit "@container" <:+: r :=
    (clean_of_isClean (by decide)).infix_spaced h₁ h₂
  have hone := @infix_spaced_colon l w₁ w₂ r (lit "container-type") [] (by decide) (by decide)
    h₁ h₂ ⟨99, lit "ontainer-type:", by decide, rfl⟩ ⟨lit "container-type", 58, rfl, rfl⟩
  have htwo := @infix_spaced_colon l w₁ w₂ r (lit "container-type" ++ [32]) [] (by decide)
    (by decide) h₁ h₂ ⟨99, lit "ontainer-type :", by decide, rfl⟩
    ⟨lit "container-type" ++ [32], 58, rfl, rfl⟩
  have hname : lit "container-type" = lit "container-typ" ++ [101] := by decide
  have hsuf : lit "container-type" <:+ l ++ w₁ ↔ w₁ = [] ∧ lit "container-type" <:+ l := by
    rw [hname]
    exact suffix_append_blanks h₁ rfl
  have hsuf' : lit "container-type" ++ [32] <:+ l ++ w₁ ↔
      w₁ = [32] ∧ lit "container-type" <:+ l := by
    rw [hname]
    exact suffix_append_blanks_concat h₁ hl rfl
  rw [uses_containerFeature, uses_containerFeature, uses_containerFeature, hclean, hone, htwo, hsuf,
    hsuf']
  simp only [List.nil_prefix, and_true]
  clear hclean hone htwo hsuf hsuf' hname
  generalize lit "@container" = m, lit "container-type" ++ [58] = m'
  generalize lit "container-type" ++ [32] ++ [58] = m''
  generalize lit "container-type" = d
  tauto

/-! ## White space that fits -/

/-- White space around the colon of a name that changes none of the features, in lower case: not that
of a grid, of container queries, of the selectors that begin with a colon, or of a property. -/
structure SpaceFits (l w₁ w₂ r : Bytes) : Prop where
  grid : lit "display" <:+ l → lit "grid" <+: r → w₁ = [] ∧ (w₂ = [] ∨ w₂ = [32])
  gridBlank : lit "display" <:+ l → 32 :: lit "grid" <+: r → w₁ = [] ∧ w₂ = []
  container : lit "container-type" <:+ l → w₁ = [] ∨ w₁ = [32]
  selectors : ∀ f ∈ cssFeatures, ∀ w ∈ f.needle, ∀ q, lit w = 58 :: q → q <+: r → w₂ = []
  properties : ∀ f ∈ cssFeatures, f.kind = .property → ∀ w ∈ f.needle, EndsDeclared (lit w) l →
    12 ∉ w₁

/-- **White space that fits changes no feature.** -/
theorem uses_spaced (h₁ : Blanks w₁) (h₂ : Blanks w₂) (hl : EndsInName l)
    (h : SpaceFits l w₁ w₂ r) {f : CssFeature} (hf : f ∈ cssFeatures) :
    uses (spaced l w₁ w₂ r) f = uses (spaced l [] [] r) f := by
  rw [Bool.eq_iff_iff]
  rcases clean_or_colon f hf with hclean | ⟨hkind, hpseudo⟩ | rfl | rfl
  · rw [uses_iff hf, uses_iff hf]
    refine exists_congr fun w => and_congr_right fun hw => ?_
    rw [(clean_of_isClean (hclean w hw)).found_spaced h₁ h₂ hl
      fun hkind => h.properties f hf hkind w hw]
  · rw [uses_iff hf, uses_iff hf, hkind]
    refine exists_congr fun w => and_congr_right fun hw => ?_
    obtain ⟨c, q, hcq, hc, hcolon, hlast⟩ := exists_of_isPseudo (hpseudo w hw)
    rw [MatchKind.found, MatchKind.found, isSome_findSub_iff, isSome_findSub_iff, hcq,
      pseudo_spaced hc hcolon hlast h₁ h₂, pseudo_spaced hc hcolon hlast blanks_nil blanks_nil]
    refine or_congr_right (and_congr_left fun hpre => ?_)
    exact iff_of_true (h.selectors f hf w hw (c :: q) hcq hpre) rfl
  · rw [grid_spaced h₁ h₂, grid_spaced blanks_nil blanks_nil]
    refine or_congr_right (and_congr_right fun hdisplay => ?_)
    have hgrid := h.grid hdisplay
    have hblank := h.gridBlank hdisplay
    constructor
    · rintro ⟨-, ⟨-, hr⟩ | ⟨-, hr⟩⟩
      · exact ⟨rfl, Or.inl ⟨rfl, hr⟩⟩
      · exact ⟨rfl, Or.inl ⟨rfl, Or.inl hr⟩⟩
    · rintro ⟨-, ⟨-, hr | hr⟩ | ⟨hnil, -⟩⟩
      · obtain ⟨hw₁, hw₂ | hw₂⟩ := hgrid hr
        · exact ⟨hw₁, Or.inl ⟨hw₂, Or.inl hr⟩⟩
        · exact ⟨hw₁, Or.inr ⟨hw₂, hr⟩⟩
      · obtain ⟨hw₁, hw₂⟩ := hblank hr
        exact ⟨hw₁, Or.inl ⟨hw₂, Or.inr hr⟩⟩
      · cases hnil
  · rw [container_spaced h₁ h₂ hl, container_spaced blanks_nil blanks_nil hl]
    refine or_congr_right (and_congr_right fun hcontainer => ?_)
    exact iff_of_true (h.container hcontainer) (Or.inl rfl)

/-- **Only white space that fits does**, where no further feature is in the name and the value: in
neither of them there is a colon or an at-sign. -/
theorem spaceFits_of_uses_spaced (h₁ : Blanks w₁) (h₂ : Blanks w₂) (hl : EndsInName l)
    (hlbytes : ∀ b ∈ l, b ≠ 58 ∧ b ≠ 64) (hrbytes : ∀ b ∈ r, b ≠ 58 ∧ b ≠ 64)
    (h : ∀ f ∈ cssFeatures, uses (spaced l w₁ w₂ r) f = uses (spaced l [] [] r) f) :
    SpaceFits l w₁ w₂ r := by
  have hin : ∀ {m : Bytes} {b : UInt8}, b ∈ m → b = 58 ∨ b = 64 → ¬ (m <:+: l ∨ m <:+: r) := by
    rintro m b hb hor (hm | hm)
    · have := hlbytes b (hm.subset hb)
      grind
    · have := hrbytes b (hm.subset hb)
      grind
  have hgrid : ¬ (uses l gridFeature = true ∨ uses r gridFeature = true) := by
    rw [uses_gridFeature, uses_gridFeature, or_or_or_comm]
    exact not_or.mpr ⟨hin (b := 58) (by simp) (Or.inl rfl), hin (b := 58) (by simp) (Or.inl rfl)⟩
  have hgridUses := h gridFeature gridFeature_mem
  rw [Bool.eq_iff_iff, grid_spaced h₁ h₂, grid_spaced blanks_nil blanks_nil] at hgridUses
  refine ⟨fun hdisplay hr => ?_, fun hdisplay hr => ?_, fun hcontainer => ?_, ?_, ?_⟩
  · have hused := hgridUses.mpr (Or.inr ⟨hdisplay, rfl, Or.inl ⟨rfl, Or.inl hr⟩⟩)
    obtain ⟨-, hw₁, hor⟩ := hused.resolve_left hgrid
    exact ⟨hw₁, hor.imp And.left And.left⟩
  · have hused := hgridUses.mpr (Or.inr ⟨hdisplay, rfl, Or.inl ⟨rfl, Or.inr hr⟩⟩)
    obtain ⟨-, hw₁, ⟨hw₂, -⟩ | ⟨-, hgr⟩⟩ := hused.resolve_left hgrid
    · exact ⟨hw₁, hw₂⟩
    · -- the value begins with a blank
      obtain ⟨x, rfl⟩ := hr
      obtain ⟨y, hy⟩ := hgr
      cases (List.cons.inj hy).1
  · have hcontainerUses := h containerFeature containerFeature_mem
    rw [Bool.eq_iff_iff, container_spaced h₁ h₂ hl, container_spaced blanks_nil blanks_nil hl]
      at hcontainerUses
    have hused := hcontainerUses.mpr (Or.inr ⟨hcontainer, Or.inl rfl⟩)
    refine (hused.resolve_left ?_).2
    rw [uses_containerFeature, uses_containerFeature, or_or_or_comm,
      @or_or_or_comm (lit "container-type" ++ [58] <:+: l)]
    refine not_or.mpr ⟨hin (b := 64) (by decide) (Or.inr rfl), not_or.mpr ⟨?_, ?_⟩⟩
    · exact hin (b := 58) (by simp) (Or.inl rfl)
    · exact hin (b := 58) (by simp) (Or.inl rfl)
  · intro f hf w hw q hwq hq
    obtain ⟨hkind, hpseudo⟩ := pseudo_of_colon f hf w hw (by rw [hwq]; rfl)
    have hfound : ∀ w' ∈ f.needle, ∀ {w₁ w₂}, Blanks w₁ → Blanks w₂ →
        (f.kind.found (spaced l w₁ w₂ r) (lit w') = true ↔
          w₂ = [] ∧ ∃ q', lit w' = 58 :: q' ∧ q' <+: r) := by
      intro w' hw' w₁ w₂ h₁ h₂
      obtain ⟨c, q', hcq, hc, hcolon, hlast⟩ := exists_of_isPseudo (hpseudo w' hw')
      rw [hkind, MatchKind.found, isSome_findSub_iff, hcq, pseudo_spaced hc hcolon hlast h₁ h₂,
        or_iff_right (hin (List.mem_cons_self ..) (Or.inl rfl))]
      simp
    have hused := h f hf
    rw [Bool.eq_iff_iff, uses_iff hf, uses_iff hf] at hused
    obtain ⟨w', hw', hw'found⟩ :=
      hused.mpr ⟨w, hw, (hfound w hw blanks_nil blanks_nil).mpr ⟨rfl, q, hwq, hq⟩⟩
    exact ((hfound w' hw' h₁ h₂).mp hw'found).1
  · intro f hf hkind w hw hends
    have hclean := clean_of_property f hf hkind
    have hused := h f hf
    rw [Bool.eq_iff_iff, uses_iff hf, uses_iff hf, hkind] at hused
    have hplain : hasProperty (spaced l [] [] r) (lit w) = true :=
      ((clean_of_isClean (hclean w hw)).hasProperty_spaced blanks_nil blanks_nil hl).mpr
        (Or.inl ⟨hends, List.not_mem_nil⟩)
    obtain ⟨w', hw', hfound⟩ := hused.mpr ⟨w, hw, hplain⟩
    -- the colon behind a property's name is the one that has white space around it
    rcases ((clean_of_isClean (hclean w' hw')).hasProperty_spaced h₁ h₂ hl).mp hfound with
      ⟨-, h12⟩ | ⟨a, b, rfl, -, -, hcolon, -⟩ | ⟨a, b, rfl, -, hcolon, -⟩
    · exact h12
    · have hmem := (List.dropWhile_suffix isSkipped).subset (List.mem_of_mem_head? hcolon)
      exact absurd rfl (hlbytes 58 (by simp [hmem])).1
    · have hmem := (List.dropWhile_suffix isSkipped).subset (List.mem_of_mem_head? hcolon)
      exact absurd rfl (hrbytes 58 (by simp [hmem])).1

end BoatRudder.Utils
