import BoatRudder.Utils.CssFits

/-! # Warnings and the code of a stylesheet

Which warnings a stylesheet has is told by the features found in it, and with rules that serve every
browser all of them are told (`sameWarnings_iff`). So the contents of comments and strings change no
warning, and neither do those of a `url(...)` without a closing parenthesis in them. Where there is one
they do in some stylesheet, however plain the rest of that is (`sameWarnings_url_iff`): what follows the
parenthesis is looked through, or opens a string or a comment over the rest. -/

namespace BoatRudder.Utils

open Css

/-! ## Warnings -/

/-- Two stylesheets have the same warnings, whatever the rules are. -/
def SameWarnings (css css' : Bytes) : Prop :=
  ∀ rules dashboard max,
    cssCompatCheck css rules dashboard max = cssCompatCheck css' rules dashboard max

/-- Rules that serve every browser. -/
def servesAll : BrowserDetection := ⟨epochModern, [], []⟩

theorem stillServed_servesAll : ∀ f ∈ cssFeatures, stillServed servesAll false f ≠ [] := by
  decide

/-- A feature is known by its name. -/
theorem eq_of_feature : ∀ f ∈ cssFeatures, ∀ g ∈ cssFeatures, lit f.feature = lit g.feature → f = g := by
  decide

/-- These rules tell the features of a stylesheet by its warnings. -/
theorem uses_iff_warning {css : Bytes} {f : CssFeature} (hf : f ∈ cssFeatures) :
    uses (strip css) f = true ↔
      ∃ w ∈ cssCompatCheck css servesAll false cssFeatures.length, w.feature = lit f.feature := by
  rw [cssCompatCheck, List.take_of_length_le (List.length_filterMap_le _ _)]
  simp only [List.mem_filterMap]
  constructor
  · intro huses
    have hw : ∃ needs served,
        cssWarning (strip css) servesAll false f = some ⟨lit f.feature, needs, served⟩ :=
      ⟨_, _, if_pos (by simp [huses, stillServed_servesAll f hf])⟩
    obtain ⟨needs, served, hw⟩ := hw
    exact ⟨_, ⟨f, hf, hw⟩, rfl⟩
  · rintro ⟨w, ⟨g, hg, hw⟩, hfeature⟩
    rw [cssWarning] at hw
    split_ifs at hw with hcond
    cases hw
    rw [Bool.and_eq_true] at hcond
    rw [← eq_of_feature g hg f hf hfeature]
    exact hcond.1

/-- **The warnings are told by the features found.** -/
theorem sameWarnings_iff {css css' : Bytes} : SameWarnings css css' ↔
    ∀ f ∈ cssFeatures, uses (strip css) f = uses (strip css') f := by
  constructor
  · intro h f hf
    rw [Bool.eq_iff_iff, uses_iff_warning hf, uses_iff_warning hf, h]
  · intro h rules dashboard max
    rw [cssCompatCheck, cssCompatCheck]
    refine congrArg (List.take max) (List.filterMap_congr fun f hf => ?_)
    rw [cssWarning, cssWarning, h f hf]

/-- The warnings are those of the stripped sheet. -/
theorem sameWarnings_of_strip {css css' : Bytes} (h : strip css = strip css') :
    SameWarnings css css' :=
  sameWarnings_iff.mpr fun f _ => by rw [h]

/-! ## Contents -/

theorem tokenText_eq {t t' : CssToken} (h : t.SameCode t') : tokenText t = tokenText t' := by
  cases t <;> cases t' <;> first | exact h.elim | rfl | exact congrArg lower h

/-- Tokens with the same code leave the same text. -/
theorem sheetText_eq {sheet sheet' : List CssToken} (h : List.Forall₂ CssToken.SameCode sheet sheet') :
    sheetText sheet = sheetText sheet' := by
  induction h with
  | nil => rfl
  | cons ht _ ih => rw [sheetText_cons, sheetText_cons, tokenText_eq ht, ih]

/-- **The contents change no warning** in stylesheets that are read as CSS reads them. -/
theorem sameWarnings_of_sameCode {sheet sheet' : List CssToken} (h : IsSheet sheet)
    (h' : IsSheet sheet') (hplain : ∀ t ∈ sheet, PlainToken t) (hplain' : ∀ t ∈ sheet', PlainToken t)
    (hcode : List.Forall₂ CssToken.SameCode sheet sheet') :
    SameWarnings (renderSheet sheet) (renderSheet sheet') := by
  apply sameWarnings_of_strip
  rw [strip_renderSheet h hplain, strip_renderSheet h' hplain', sheetText_eq hcode]

/-! ## What stands behind a parenthesis -/

/-- Letters in lower case and colons, with which nothing begins or ends. -/
def Inert (r : Bytes) : Prop := ∀ b ∈ r, isLower b = true ∨ b = 58

instance : DecidablePred Inert := fun r =>
  inferInstanceAs (Decidable (∀ b ∈ r, isLower b = true ∨ b = 58))

/-- The end of a text that ends in a closing parenthesis. -/
def EndsParen (w : Bytes) : Prop := w = [] ∨ ∃ x, w = x ++ [41]

variable {w r : Bytes}

theorem Inert.ne (h : Inert r) {b : UInt8} (hb : b ∈ r) :
    isQuote b = false ∧ b ≠ 92 ∧ b ≠ 47 ∧ b ≠ 40 ∧ toLower b = b := by
  rcases h b hb with hlower | rfl
  · simp only [isLower, Bool.and_eq_true, decide_eq_true_eq, UInt8.le_iff_toNat_le] at hlower
    have hnat : UInt8.toNat 97 = 97 ∧ UInt8.toNat 122 = 122 := by decide
    refine ⟨?_, ?_, ?_, ?_, ?_⟩
    · rw [Bool.eq_false_iff]
      intro hquote
      simp only [isQuote, Bool.or_eq_true, beq_iff_eq] at hquote
      rcases hquote with rfl | rfl <;> revert hlower <;> decide
    · rintro rfl
      revert hlower
      decide
    · rintro rfl
      revert hlower
      decide
    · rintro rfl
      revert hlower
      decide
    · rw [toLower, if_neg]
      simp only [isUpper, Bool.and_eq_true, decide_eq_true_eq, UInt8.le_iff_toNat_le]
      have hupper : UInt8.toNat 65 = 65 ∧ UInt8.toNat 90 = 90 := by decide
      omega
  · decide

theorem Inert.plainRun (h : Inert r) : PlainRun r := by
  refine ⟨fun b hb => (h.ne hb).1, fun hin => ?_, fun hin => ?_⟩
  · exact (h.ne (hin.subset (by simp : (47 : UInt8) ∈ _))).2.2.1 rfl
  · obtain ⟨b, hb, heq⟩ := List.mem_map.mp (hin.subset (by decide : (40 : UInt8) ∈ lit "url("))
    obtain ⟨-, -, -, h40, hlower⟩ := h.ne hb
    exact h40 (hlower.symm.trans heq)

theorem Inert.lower_eq (h : Inert r) : lower r = r := by
  rw [lower]
  exact (List.map_congr_left fun b hb => (h.ne hb).2.2.2.2).trans (List.map_id r)

theorem Inert.strip_eq (h : Inert r) : strip r = r := by
  have := strip_run h.plainRun (Or.inl rfl)
  rwa [List.append_nil, strip_nil, List.append_nil, h.lower_eq] at this

theorem EndsParen.of_suffix (h : EndsParen w) {v : Bytes} (hv : v <:+ w) : EndsParen v := by
  rcases List.eq_nil_or_concat v with rfl | ⟨y, c, rfl⟩
  · exact Or.inl rfl
  · obtain ⟨z, hz⟩ := hv
    rcases h with rfl | ⟨x, rfl⟩
    · simp at hz
    · rw [List.concat_eq_append, ← List.append_assoc] at hz
      obtain ⟨-, hc⟩ := List.append_inj' hz rfl
      rw [(List.cons.inj hc).1]
      exact Or.inr ⟨y, by simp⟩

theorem EndsParen.mem (h : EndsParen w) (hne : w ≠ []) : 41 ∈ w := by
  obtain ⟨x, rfl⟩ := h.resolve_left hne
  simp

/-- A string that is open at the end stays open. -/
theorem afterString_open {q : UInt8} (hq : isQuote q = true) (hr : Inert r) :
    afterString q r = [] := by
  fun_induction afterString q r with
  | case1 => rfl
  | case2 => rfl
  | case3 d s =>
    have := (hr.ne (List.mem_cons_self ..)).1
    rw [hq] at this
    cases this
  | case4 d s _ ih => exact absurd rfl (hr.ne (List.mem_cons_self ..)).2.1
  | case5 c d s _ _ ih => exact ih fun b hb => hr b (List.mem_cons_of_mem c hb)

/-- Behind a string: it has been closed in `w`, or it is open at the end. -/
theorem afterString_cases {q : UInt8} (hq : isQuote q = true) (hw : EndsParen w) :
    (∀ r, afterString q (w ++ r) = afterString q w ++ r) ∨
      (afterString q w = [] ∧ ∀ r, Inert r → afterString q (w ++ r) = []) := by
  fun_induction afterString q w with
  | case1 => exact Or.inr ⟨rfl, fun r hr => afterString_open hq hr⟩
  | case2 c =>
    refine Or.inr ⟨rfl, fun r hr => ?_⟩
    obtain ⟨x, hx⟩ := hw.resolve_left (by simp)
    obtain rfl : c = 41 := by
      have := congrArg List.getLast? hx
      simpa using this
    cases r with
    | nil => rfl
    | cons d r =>
      rw [List.singleton_append, afterString, if_neg, if_neg (by decide)]
      · exact afterString_open hq hr
      · rintro rfl
        cases hq
  | case3 d s => exact Or.inl fun r => by rw [List.cons_append, List.cons_append, afterString, if_pos rfl]
  | case4 d s h ih =>
    rcases ih (hw.of_suffix ⟨[92, d], rfl⟩) with ih | ⟨hnil, ih⟩
    · refine Or.inl fun r => ?_
      rw [List.cons_append, List.cons_append, afterString, if_neg h, if_pos rfl]
      exact ih r
    · refine Or.inr ⟨hnil, fun r hr => ?_⟩
      rw [List.cons_append, List.cons_append, afterString, if_neg h, if_pos rfl]
      exact ih r hr
  | case5 c d s h h' ih =>
    rcases ih (hw.of_suffix ⟨[c], rfl⟩) with ih | ⟨hnil, ih⟩
    · refine Or.inl fun r => ?_
      rw [List.cons_append, List.cons_append, afterString, if_neg h, if_neg h']
      exact ih r
    · refine Or.inr ⟨hnil, fun r hr => ?_⟩
      rw [List.cons_append, List.cons_append, afterString, if_neg h, if_neg h']
      exact ih r hr

/-- Behind a comment too. -/
theorem afterComment_cases (w : Bytes) :
    (∀ r, afterComment (w ++ r) = afterComment w ++ r) ∨
      (afterComment w = [] ∧ ∀ r, Inert r → afterComment (w ++ r) = []) := by
  cases hfind : findSub [42, 47] w with
  | some i =>
    refine Or.inl fun r => ?_
    have hle := (findSub_add_le hfind).resolve_right (by simp)
    rw [afterComment, afterComment, hfind, findSub_append hfind r]
    exact List.drop_append_of_le_length hle
  | none =>
    refine Or.inr ⟨by rw [afterComment, hfind], fun r hr => ?_⟩
    have hno : findSub [42, 47] (w ++ r) = none := by
      rw [findSub_eq_none_iff] at hfind ⊢
      rintro ⟨x, y, heq⟩
      -- the slash of it would be harmless
      have heq : (x ++ [42, 47]) ++ y = w ++ r := heq
      rcases List.append_eq_append_iff.mp heq with ⟨z, rfl, -⟩ | ⟨z, hz, rfl⟩
      · exact hfind ⟨x, z, rfl⟩
      · rcases List.eq_nil_or_concat z with rfl | ⟨z, c, rfl⟩
        · exact hfind ⟨x, [], by simpa using hz⟩
        · have hc : c = 47 := by
            have := congrArg List.getLast? hz
            simpa using this.symm
          exact (hr.ne (by simp)).2.2.1 hc
    rw [afterComment, hno]

theorem afterParen_append_of_mem {s : Bytes} (h : 41 ∈ s) (r : Bytes) :
    afterParen (s ++ r) = afterParen s ++ r := by
  obtain ⟨x, y, rfl, hx⟩ := List.eq_append_cons_of_mem h
  rw [List.append_assoc, List.cons_append, afterParen_append hx, afterParen_append hx]

/-- What looks like the beginning of a `url(...)` does not reach over a closing parenthesis. -/
theorem eqNoCase_url_append (hw : EndsParen w) (hne : w ≠ []) (r : Bytes) :
    eqNoCase ((w ++ r).take 4) (lit "url(") = eqNoCase (w.take 4) (lit "url(") := by
  by_cases hlen : 4 ≤ w.length
  · rw [List.take_append_of_le_length hlen]
  · have hno : ∀ v : Bytes, 41 ∈ v → eqNoCase v (lit "url(") = false := by
      intro v hv
      rw [Bool.eq_false_iff]
      intro heq
      rw [eqNoCase_iff] at heq
      have hmem : 41 ∈ lower v := List.mem_map.mpr ⟨41, hv, rfl⟩
      rw [heq] at hmem
      revert hmem
      decide
    rw [hno, hno]
    · rw [List.take_of_length_le (by omega)]
      exact hw.mem hne
    · rw [List.take_append, List.take_of_length_le (by omega)]
      exact List.mem_append_left _ (hw.mem hne)

/-- Stripping leaves something of a word. -/
theorem strip_ne_nil (hne : w ≠ []) : strip w ≠ [] := by
  cases w with
  | nil => exact absurd rfl hne
  | cons c s =>
    rw [strip]
    split_ifs <;> exact List.cons_ne_nil _ _

/-- **What follows a parenthesis is looked through as it is, or none of it is**: the text in front of it
leaves something open, or it does not. -/
theorem strip_append_cases (hw : EndsParen w) :
    (∀ r, Inert r → strip (w ++ r) = strip w ++ r) ∨
      ∀ r, Inert r → strip (w ++ r) = strip w := by
  fun_induction strip w with
  | case1 => exact Or.inl fun r hr => hr.strip_eq
  | case2 c s h ih =>
    obtain ⟨rfl, hstar⟩ := h
    obtain ⟨s, rfl⟩ : ∃ t, s = 42 :: t := by
      cases s with
      | nil => cases hstar
      | cons d s => exact ⟨s, by simpa using hstar⟩
    simp only [List.drop_one, List.tail_cons] at ih ⊢
    rcases afterComment_cases s with hclosed | ⟨hnil, hopen⟩
    · have hends : EndsParen (afterComment s) :=
        hw.of_suffix ((afterComment_suffix s).trans ⟨[47, 42], rfl⟩)
      rcases ih hends with ih | ih
      · refine Or.inl fun r hr => ?_
        rw [List.cons_append, List.cons_append, strip_comment, hclosed, ih r hr]
        rfl
      · refine Or.inr fun r hr => ?_
        rw [List.cons_append, List.cons_append, strip_comment, hclosed, ih r hr]
    · refine Or.inr fun r hr => ?_
      rw [List.cons_append, List.cons_append, strip_comment, hopen r hr, hnil]
  | case3 c s hcomment hquote ih =>
    have hq : isQuote c = true := by simpa [isQuote] using hquote
    rcases afterString_cases hq (hw.of_suffix (List.suffix_cons c s)) with hclosed | ⟨hnil, hopen⟩
    · have hends : EndsParen (afterString c s) :=
        hw.of_suffix ((afterString_suffix c s).trans (List.suffix_cons c s))
      rcases ih hends with ih | ih
      · refine Or.inl fun r hr => ?_
        rw [List.cons_append, strip_quote hq, hclosed, ih r hr]
        rfl
      · refine Or.inr fun r hr => ?_
        rw [List.cons_append, strip_quote hq, hclosed, ih r hr]
    · refine Or.inr fun r hr => ?_
      rw [List.cons_append, strip_quote hq, hopen r hr, hnil]
  | case4 c s hcomment hquote hurl ih =>
    have hc : toLower c = 117 := by
      rw [eqNoCase_iff] at hurl
      exact (List.cons.inj hurl).1
    have hmem : 41 ∈ s := by
      refine (List.mem_cons.mp (hw.mem (by simp))).resolve_left ?_
      rintro rfl
      revert hc
      decide
    have hends : EndsParen (afterParen s) :=
      hw.of_suffix ((afterParen_suffix s).trans (List.suffix_cons c s))
    have hstep : ∀ r, strip (c :: s ++ r) = 32 :: strip (afterParen s ++ r) := by
      intro r
      have htake := eqNoCase_url_append hw (by simp) r
      rw [hurl] at htake
      rw [List.cons_append] at htake ⊢
      rw [strip_url htake, afterParen_append_of_mem hmem]
    rcases ih hends with ih | ih
    · exact Or.inl fun r hr => by rw [hstep, ih r hr]; rfl
    · exact Or.inr fun r hr => by rw [hstep, ih r hr]
  | case5 c s hcomment hquote hurl ih =>
    have hq : isQuote c = false := by
      rw [Bool.eq_false_iff]
      intro hq
      exact hquote (by simpa [isQuote] using hq)
    have hstep : ∀ r, strip (c :: s ++ r) = toLower c :: strip (s ++ r) := by
      intro r
      have htake := eqNoCase_url_append hw (by simp) r
      rw [Bool.eq_false_iff.mpr hurl, List.cons_append] at htake
      rw [List.cons_append, strip_copy ?_ hq htake]
      rintro ⟨rfl, hstar⟩
      cases s with
      | nil =>
        obtain ⟨x, hx⟩ := hw.resolve_left (by simp)
        have := congrArg List.getLast? hx
        simp at this
      | cons d s => exact hcomment ⟨rfl, by simpa using hstar⟩
    rcases ih (hw.of_suffix (List.suffix_cons c s)) with ih | ih
    · exact Or.inl fun r hr => by rw [hstep, ih r hr]; rfl
    · exact Or.inr fun r hr => by rw [hstep, ih r hr]

/-! ## Contents that change the warnings -/

/-- A needle that begins with a letter is not begun in a text without it. -/
theorem infix_append_of_notMem {c : UInt8} {m a : Bytes} (ha : c ∉ a) (t : Bytes) :
    c :: m <:+: a ++ t ↔ c :: m <:+: t := by
  rw [← isSome_findSub_iff, ← isSome_findSub_iff, findSub_cons_append_of_notMem ha,
    Option.isSome_map]

/-- **What stands between the two halves of a grid changes it**, with something in front of it or behind
it, or with neither or both: a blank alone is a grid in both only. -/
theorem exists_uses_grid_ne {x : Bytes} (hx : x ≠ []) : ∃ a b, (a = [] ∨ a = lit "display:") ∧
    (b = [] ∨ b = lit "grid") ∧
      uses (a ++ 32 :: (x ++ b)) gridFeature ≠ uses (a ++ 32 :: b) gridFeature := by
  by_contra hall
  push Not at hall
  have hbefore := hall (lit "display:") [] (Or.inr rfl) (Or.inl rfl)
  have hbehind := hall [] (lit "grid") (Or.inl rfl) (Or.inr rfl)
  have hboth := hall (lit "display:") (lit "grid") (Or.inr rfl) (Or.inr rfl)
  have hone : uses (lit "display:" ++ 32 :: lit "grid") gridFeature = true := by decide
  have hno : uses (lit "display:" ++ [32]) gridFeature = false := by decide
  have hno' : uses (32 :: lit "grid") gridFeature = false := by decide
  rw [List.append_nil, hno] at hbefore
  rw [List.nil_append, List.nil_append, hno'] at hbehind
  have hbehind' : ∀ m : Bytes, 100 :: m <:+: lit "isplay:" ++ 32 :: (x ++ lit "grid") →
      100 :: m <:+: 32 :: (x ++ lit "grid") := fun m h => (infix_append_of_notMem (by decide) _).mp h
  rw [hone, uses_gridFeature] at hboth
  rw [← Bool.not_eq_true, uses_gridFeature, not_or] at hbefore hbehind
  have hdisplay : lit "display" = 100 :: lit "isplay" := by decide
  have hfront : lit "display:" = 100 :: lit "isplay:" := by decide
  have hcolon : lit "display:" = lit "display" ++ [58] := by decide
  rcases hboth with hin | hin
  · rw [hfront, List.cons_append, List.infix_cons_iff, ← List.cons_append, ← hfront] at hin
    rcases hin with hpre | hin
    · -- a blank stands behind the colon
      rw [hcolon, List.append_assoc, List.prefix_append_right_inj] at hpre
      revert hpre
      rw [show lit "grid" = 103 :: lit "rid" by decide]
      rintro ⟨t, ht⟩
      cases (List.cons.inj (List.cons.inj ht).2).1
    · rw [hdisplay, List.cons_append] at hbehind hin
      exact hbehind.1 (hbehind' _ hin)
  · rw [hfront, List.cons_append, List.infix_cons_iff, ← List.cons_append, ← hfront] at hin
    rcases hin with hpre | hin
    · rw [hcolon, List.append_assoc, List.prefix_append_right_inj, List.singleton_append,
        List.cons_prefix_cons, List.cons_prefix_cons] at hpre
      obtain ⟨-, -, hpre⟩ := hpre
      by_cases hlen : 4 ≤ x.length
      · -- the grid is all behind the first half
        obtain ⟨t, rfl⟩ := List.prefix_of_prefix_length_le hpre (List.prefix_append x _) hlen
        exact hbefore.2 ⟨[], t, by rw [hcolon]; simp⟩
      · rw [show lit "grid" = [103, 114, 105, 100] by decide] at hpre
        match x with
        | [] => exact hx rfl
        | [_] => simp at hpre
        | [_, _] => simp at hpre
        | [_, _, _] => simp at hpre
        | _ :: _ :: _ :: _ :: _ => exact hlen (by simp)
    · rw [hdisplay, List.cons_append] at hbehind hin
      exact hbehind.2 (hbehind' _ hin)

end BoatRudder.Utils
