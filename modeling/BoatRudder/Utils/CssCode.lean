import BoatRudder.Utils.CssWarnings

/-! # Warnings depend on the code

What the contents of the tokens and the white space around a colon change of the warnings: nothing in
stylesheets that `strip` reads as CSS does, with white space that fits. The conditions are those of one
token and of one declaration, and neither can be left out: contents with a closing parenthesis change
the warnings of some plain stylesheet, white space that does not fit those of the declaration itself. -/

namespace BoatRudder.Utils

open Css

/-! ## Contents of a `url(...)` -/

variable {content l name w₁ w₂ : Bytes}

/-- A run, if there is one. -/
def runTokens (a : Bytes) : List CssToken := if a = [] then [] else [.code a]

theorem renderSheet_runTokens (a : Bytes) : renderSheet (runTokens a) = a := by
  unfold runTokens
  split_ifs with h
  · exact h.symm
  · simp [CssToken.render]

theorem plainToken_of_mem_runTokens {a : Bytes} (h : PlainRun a) : ∀ t ∈ runTokens a, PlainToken t := by
  intro t ht
  unfold runTokens at ht
  split_ifs at ht
  · cases ht
  · obtain rfl := List.mem_singleton.mp ht
    exact h

/-- A `url(...)` between two runs. -/
theorem isSheet_url {a b name content : Bytes} (ha : readCode .outside a = some .outside)
    (hb : readCode .outside b ≠ none) (h : (CssToken.url name content).Valid) :
    IsSheet (runTokens a ++ .url name content :: runTokens b) := by
  have hvalid : ∀ {c : Bytes}, readCode .outside c ≠ none → ∀ t ∈ runTokens c, t.Valid := by
    intro c hc t ht
    unfold runTokens at ht
    split_ifs at ht with hnil
    · cases ht
    · obtain rfl := List.mem_singleton.mp ht
      exact ⟨hnil, hc⟩
  constructor
  · intro t ht
    rcases List.mem_append.mp ht with ht | ht
    · exact hvalid (by rw [ha]; simp) t ht
    · rcases List.mem_cons.mp ht with rfl | ht
      · exact h
      · exact hvalid hb t ht
  · unfold runTokens
    split_ifs
    · exact .singleton _
    · exact List.isChain_cons_cons.mpr ⟨trivial, .singleton _⟩
    · exact List.isChain_cons_cons.mpr ⟨ha, .singleton _⟩
    · exact List.isChain_cons_cons.mpr ⟨ha, List.isChain_cons_cons.mpr ⟨trivial, .singleton _⟩⟩

/-- What is left of such a stylesheet: the `url(...)` ends at the first parenthesis in it. -/
theorem strip_around {a before s : Bytes} (ha : Inert a) (hname : lower name = lit "url")
    (hbefore : 41 ∉ before) :
    strip (a ++ (name ++ 40 :: (before ++ 41 :: s))) = a ++ 32 :: strip s := by
  obtain ⟨c, d, e, rfl, hurl, -⟩ := exists_of_lower_eq_url hname
  have hends : EndsRun ([c, d, e] ++ 40 :: (before ++ 41 :: s)) :=
    Or.inr ⟨c, _, rfl, Or.inr (Or.inr (List.cons.inj (eqNoCase_iff.mp hurl)).1)⟩
  rw [strip_run ha.plainRun hends, ha.lower_eq, strip_url_append hname hbefore]

/-- Stylesheets that differ in the contents of one `url(...)` have the same warnings. -/
def UrlUnseen (name content : Bytes) : Prop :=
  ∀ pre post, IsSheet (pre ++ .url name content :: post) → IsSheet (pre ++ .url name [] :: post) →
    (∀ t ∈ pre ++ post, PlainToken t) →
      SameWarnings (renderSheet (pre ++ .url name content :: post))
        (renderSheet (pre ++ .url name [] :: post))

/-- **The contents of a `url(...)` change no warning of any stylesheet** exactly where there is no
closing parenthesis in them. -/
theorem urlUnseen_iff (h : (CssToken.url name content).Valid) :
    UrlUnseen name content ↔ 41 ∉ content := by
  constructor
  · intro hall hmem
    obtain ⟨before, after, rfl, hbefore⟩ := List.eq_append_cons_of_mem hmem
    have hempty : (CssToken.url name []).Valid :=
      ⟨h.1, @UrlContent.unquoted [] [] [] (by simp) (by simp) rfl⟩
    -- the features are those of what is left behind the parenthesis, and of a blank
    have huses : ∀ {a b : Bytes}, Inert a → readCode .outside a = some .outside → Inert b →
        readCode .outside b ≠ none →
          uses (a ++ 32 :: strip (after ++ [41] ++ b)) gridFeature =
            uses (a ++ 32 :: b) gridFeature := by
      intro a b ha harun hb hbrun
      have hsame := hall (runTokens a) (runTokens b) (isSheet_url harun hbrun h)
        (isSheet_url harun hbrun hempty) (by
          intro t ht
          rcases List.mem_append.mp ht with ht | ht
          · exact plainToken_of_mem_runTokens ha.plainRun t ht
          · exact plainToken_of_mem_runTokens hb.plainRun t ht)
      have hone : renderSheet (runTokens a ++ .url name (before ++ 41 :: after) :: runTokens b) =
          a ++ (name ++ 40 :: (before ++ 41 :: (after ++ [41] ++ b))) := by
        simp [renderSheet_runTokens, CssToken.render]
      have htwo : renderSheet (runTokens a ++ .url name [] :: runTokens b) =
          a ++ (name ++ 40 :: ([] ++ 41 :: b)) := by
        simp [renderSheet_runTokens, CssToken.render]
      have hfeature := sameWarnings_iff.mp hsame gridFeature gridFeature_mem
      rw [hone, htwo, strip_around ha h.1 hbefore, strip_around ha h.1 List.not_mem_nil, hb.strip_eq]
        at hfeature
      exact hfeature
    have hrun : ∀ c ∈ [[], lit "display:", lit "grid", lit "display:grid"],
        Inert c ∧ readCode .outside c ≠ none := by
      decide
    have hends : EndsParen (after ++ [41]) := Or.inr ⟨after, rfl⟩
    rcases strip_append_cases hends with hseen | hopen
    · obtain ⟨a, b, ha, hb, hne⟩ :=
        exists_uses_grid_ne (strip_ne_nil (by simp : after ++ [41] ≠ []))
      have hba : Inert b ∧ readCode .outside b ≠ none := by
        apply hrun
        rcases hb with rfl | rfl <;> simp
      have haa : Inert a ∧ readCode .outside a = some .outside := by
        rcases ha with rfl | rfl
        · exact ⟨(hrun [] (by simp)).1, rfl⟩
        · exact ⟨(hrun _ (by simp)).1, by decide⟩
      apply hne
      rw [← hseen b hba.1]
      exact huses haa.1 haa.2 hba.1 hba.2
    · -- what has been opened takes a whole grid and nothing for the same
      have hnone := @huses [] [] (hrun [] (by simp)).1 rfl (hrun [] (by simp)).1 (by simp [readCode])
      have hgrid := @huses [] (lit "display:grid") (hrun [] (by simp)).1 rfl
        (hrun _ (by simp)).1 (hrun _ (by simp)).2
      rw [hopen _ (hrun [] (by simp)).1] at hnone
      rw [hopen _ (hrun _ (by simp)).1, hnone] at hgrid
      revert hgrid
      decide
  · intro hcontent pre post hsheet hsheet' hplain
    have hall : ∀ c : Bytes, 41 ∉ c →
        ∀ t ∈ pre ++ CssToken.url name c :: post, PlainToken t := by
      intro c hc t ht
      rcases List.mem_append.mp ht with ht | ht
      · exact hplain t (List.mem_append_left post ht)
      · rcases List.mem_cons.mp ht with rfl | ht
        · exact hc
        · exact hplain t (List.mem_append_right pre ht)
    apply sameWarnings_of_strip
    rw [strip_renderSheet hsheet (hall content hcontent),
      strip_renderSheet hsheet' (hall [] List.not_mem_nil)]
    simp [tokenText]

/-! ## White space around a colon -/

theorem lower_eq_of_blanks {w : Bytes} (h : Blanks w) : lower w = w := by
  rw [lower]
  refine (List.map_congr_left fun b hb => ?_).trans (List.map_id w)
  have hb := h b hb
  simp only [Css.isWhite, isNewline, Bool.or_eq_true, beq_iff_eq] at hb
  rcases hb with (rfl | rfl) | (rfl | rfl) | rfl <;> decide

theorem lower_spaced {r : Bytes} (h₁ : Blanks w₁) (h₂ : Blanks w₂) :
    lower (spaced l w₁ w₂ r) = spaced (lower l) w₁ w₂ (lower r) := by
  have hw₁ := lower_eq_of_blanks h₁
  have hw₂ := lower_eq_of_blanks h₂
  simp only [lower, spaced, List.map_append, List.map_cons] at hw₁ hw₂ ⊢
  rw [hw₁, hw₂]
  rfl

/-- The bytes of names stay such in lower case. -/
theorem isNameByte_toLower {b : UInt8} (h : isNameByte b = true) : isNameByte (toLower b) = true := by
  unfold toLower
  split_ifs with hup
  · simp only [isUpper, Bool.and_eq_true, decide_eq_true_eq, UInt8.le_iff_toNat_le] at hup
    have hlower : isLower (b + 32) = true := by
      simp only [isLower, Bool.and_eq_true, decide_eq_true_eq, UInt8.le_iff_toNat_le,
        UInt8.toNat_add]
      have hnat : UInt8.toNat 65 = 65 ∧ UInt8.toNat 90 = 90 ∧ UInt8.toNat 97 = 97 ∧
          UInt8.toNat 122 = 122 ∧ UInt8.toNat 32 = 32 := by decide
      omega
    simp [isNameByte, isAlnum, isAlpha, hlower]
  · exact h

theorem EndsInName.lower (h : EndsInName l) : EndsInName (lower l) := by
  obtain ⟨x, b, rfl, hb⟩ := h
  exact ⟨BoatRudder.lower x, toLower b, by simp [BoatRudder.lower], isNameByte_toLower hb⟩

theorem EndsInName.append (h : EndsInName l) (a : Bytes) : EndsInName (a ++ l) := by
  obtain ⟨x, b, rfl, hb⟩ := h
  exact ⟨a ++ x, b, by simp, hb⟩

/-- A stylesheet with a colon between the name that ends `run₀` and the value that begins with
`run₁`. -/
def spacedSheet (pre : List CssToken) (run₀ w₁ w₂ run₁ : Bytes) (post : List CssToken) :
    List CssToken := pre ++ .code (spaced run₀ w₁ w₂ run₁) :: post

/-- **White space that fits changes no warning** of a plain stylesheet, wherever the colon stands. -/
theorem sameWarnings_spacedSheet {pre post : List CssToken} {run₀ run₁ w₁' w₂' : Bytes}
    (hsheet : IsSheet (spacedSheet pre run₀ w₁ w₂ run₁ post))
    (hsheet' : IsSheet (spacedSheet pre run₀ w₁' w₂' run₁ post))
    (hplain : ∀ t ∈ spacedSheet pre run₀ w₁ w₂ run₁ post, PlainToken t)
    (hplain' : ∀ t ∈ spacedSheet pre run₀ w₁' w₂' run₁ post, PlainToken t)
    (hname : EndsInName run₀) (h₁ : Blanks w₁) (h₂ : Blanks w₂) (h₁' : Blanks w₁') (h₂' : Blanks w₂')
    (hfits : SpaceFits (sheetText pre ++ lower run₀) w₁ w₂ (lower run₁ ++ sheetText post))
    (hfits' : SpaceFits (sheetText pre ++ lower run₀) w₁' w₂' (lower run₁ ++ sheetText post)) :
    SameWarnings (renderSheet (spacedSheet pre run₀ w₁ w₂ run₁ post))
      (renderSheet (spacedSheet pre run₀ w₁' w₂' run₁ post)) := by
  have htext : ∀ {v₁ v₂ : Bytes}, Blanks v₁ → Blanks v₂ →
      sheetText (spacedSheet pre run₀ v₁ v₂ run₁ post) =
        spaced (sheetText pre ++ lower run₀) v₁ v₂ (lower run₁ ++ sheetText post) := by
    intro v₁ v₂ hv₁ hv₂
    rw [spacedSheet, sheetText_append, sheetText_cons, tokenText, lower_spaced hv₁ hv₂]
    simp [spaced]
  have hends : EndsInName (sheetText pre ++ lower run₀) := hname.lower.append _
  refine sameWarnings_iff.mpr fun f hf => ?_
  rw [strip_renderSheet hsheet hplain, strip_renderSheet hsheet' hplain', htext h₁ h₂, htext h₁' h₂',
    uses_spaced h₁ h₂ hends hfits hf, uses_spaced h₁' h₂' hends hfits' hf]

/-- A declaration is a plain run if its value is. -/
theorem plainRun_spaced {value : Bytes} (hname : ∀ b ∈ name, isNameByte b = true)
    (hvalue : PlainRun value) (h₁ : Blanks w₁) (h₂ : Blanks w₂) :
    PlainRun (spaced name w₁ w₂ value) := by
  have hquote : ∀ b, isNameByte b = true ∨ Css.isWhite b = true → isQuote b = false := by
    intro b hb
    rw [Bool.eq_false_iff]
    intro hq
    simp only [isQuote, Bool.or_eq_true, beq_iff_eq] at hq
    rcases hq with rfl | rfl <;> revert hb <;> decide
  have hname' : ∀ b ∈ lower name, isNameByte b = true := by
    intro b hb
    obtain ⟨c, hc, rfl⟩ := List.mem_map.mp hb
    exact isNameByte_toLower (hname c hc)
  refine ⟨fun b hb => ?_, fun hin => ?_, fun hin => ?_⟩
  · simp only [spaced, List.mem_append, List.mem_cons] at hb
    rcases hb with (hb | hb) | rfl | hb | hb
    · exact hquote b (Or.inl (hname b hb))
    · exact hquote b (Or.inr (h₁ b hb))
    · rfl
    · exact hquote b (Or.inr (h₂ b hb))
    · exact hvalue.quotes b hb
  · have hclean : Clean [47, 42] := clean_of_isClean rfl
    rcases (hclean.infix_spaced h₁ h₂).mp hin with hin | hin
    · have := hname 47 (hin.subset (by simp))
      revert this
      decide
    · exact hvalue.comments hin
  · rw [lower_spaced h₁ h₂] at hin
    have hclean : Clean (lit "url(") := clean_of_isClean (by decide)
    rcases (hclean.infix_spaced h₁ h₂).mp hin with hin | hin
    · have := hname' 40 (hin.subset (by decide))
      revert this
      decide
    · exact hvalue.urls hin

/-- **The white space in a declaration changes no warning** exactly where it fits. -/
theorem sameWarnings_spaced_iff {value : Bytes} (hne : name ≠ [])
    (hname : ∀ b ∈ name, isNameByte b = true) (hvalue : PlainRun value)
    (hbytes : ∀ b ∈ value, b ≠ 58 ∧ b ≠ 64) (h₁ : Blanks w₁) (h₂ : Blanks w₂) :
    SameWarnings (spaced name w₁ w₂ value) (spaced name [] [] value) ↔
      SpaceFits (lower name) w₁ w₂ (lower value) := by
  have hstrip : ∀ {v₁ v₂ : Bytes}, Blanks v₁ → Blanks v₂ →
      strip (spaced name v₁ v₂ value) = spaced (lower name) v₁ v₂ (lower value) := by
    intro v₁ v₂ hv₁ hv₂
    have := strip_run (plainRun_spaced hname hvalue hv₁ hv₂) (Or.inl rfl)
    rwa [List.append_nil, strip_nil, List.append_nil, lower_spaced hv₁ hv₂] at this
  have hends : EndsInName (lower name) := by
    apply EndsInName.lower
    refine ⟨name.dropLast, name.getLast hne, (List.dropLast_append_getLast hne).symm, ?_⟩
    exact hname _ (List.getLast_mem hne)
  have hlower : ∀ {s : Bytes}, (∀ b ∈ s, b ≠ 58 ∧ b ≠ 64) → ∀ b ∈ lower s, b ≠ 58 ∧ b ≠ 64 := by
    intro s hs b hb
    obtain ⟨c, hc, rfl⟩ := List.mem_map.mp hb
    obtain ⟨hcolon, hat⟩ := hs c hc
    exact ⟨fun h => hcolon (eq_of_toLower_eq h rfl), fun h => hat (eq_of_toLower_eq h rfl)⟩
  have hnamebytes : ∀ b ∈ name, b ≠ 58 ∧ b ≠ 64 := by
    intro b hb
    have := hname b hb
    refine ⟨?_, ?_⟩
    · rintro rfl
      revert this
      decide
    · rintro rfl
      revert this
      decide
  rw [sameWarnings_iff, hstrip h₁ h₂, hstrip blanks_nil blanks_nil]
  exact ⟨spaceFits_of_uses_spaced h₁ h₂ hends (hlower hnamebytes) (hlower hbytes),
    fun hfits f hf => uses_spaced h₁ h₂ hends hfits hf⟩

/-! ## Stylesheet warnings -/

/-- **Stylesheet warnings depend on the code of the stylesheet**, where it is plain: contents change
none, of a `url(...)` exactly those without a closing parenthesis in them; and neither does white space
around a colon that fits, in a declaration only such. -/
theorem warningsOfCode (sheet sheet' pre post : List CssToken)
    (name content value run₀ run₁ w₁ w₂ w₁' w₂' : Bytes) :
    (IsSheet sheet → IsSheet sheet' → (∀ t ∈ sheet, PlainToken t) →
      (∀ t ∈ sheet', PlainToken t) → List.Forall₂ CssToken.SameCode sheet sheet' →
        SameWarnings (renderSheet sheet) (renderSheet sheet')) ∧
    ((CssToken.url name content).Valid → (UrlUnseen name content ↔ 41 ∉ content)) ∧
    (IsSheet (spacedSheet pre run₀ w₁ w₂ run₁ post) →
      IsSheet (spacedSheet pre run₀ w₁' w₂' run₁ post) →
      (∀ t ∈ spacedSheet pre run₀ w₁ w₂ run₁ post, PlainToken t) →
      (∀ t ∈ spacedSheet pre run₀ w₁' w₂' run₁ post, PlainToken t) →
      EndsInName run₀ → Blanks w₁ → Blanks w₂ → Blanks w₁' → Blanks w₂' →
      SpaceFits (sheetText pre ++ lower run₀) w₁ w₂ (lower run₁ ++ sheetText post) →
      SpaceFits (sheetText pre ++ lower run₀) w₁' w₂' (lower run₁ ++ sheetText post) →
        SameWarnings (renderSheet (spacedSheet pre run₀ w₁ w₂ run₁ post))
          (renderSheet (spacedSheet pre run₀ w₁' w₂' run₁ post))) ∧
    (name ≠ [] → (∀ b ∈ name, isNameByte b = true) → PlainRun value →
      (∀ b ∈ value, b ≠ 58 ∧ b ≠ 64) → Blanks w₁ → Blanks w₂ →
        (SameWarnings (spaced name w₁ w₂ value) (spaced name [] [] value) ↔
          SpaceFits (lower name) w₁ w₂ (lower value))) :=
  ⟨fun h h' hplain hplain' => sameWarnings_of_sameCode h h' hplain hplain', urlUnseen_iff,
    sameWarnings_spacedSheet, sameWarnings_spaced_iff⟩

/-- A rule with a picture. -/
def pictureSheet (content : Bytes) : List CssToken :=
  [.code (lit ".a\x7bbackground:"), .url (lit "url") content, .code (lit "\x7d")]

theorem isSheet_pictureSheet (h : stringContent 34 content = true) :
    IsSheet (pictureSheet (34 :: (content ++ [34]))) := by
  have hurl : (CssToken.url (lit "url") (34 :: (content ++ [34]))).Valid :=
    ⟨rfl, @UrlContent.quoted [] content [] 34 (by simp) (by simp) rfl h⟩
  have hsheet := @isSheet_url (lit ".a\x7bbackground:") (lit "\x7d") _ _ (by decide) (by decide) hurl
  rwa [runTokens, if_neg (by decide), runTokens, if_neg (by decide)] at hsheet

/-- The stylesheet of a picture is plain when there is no closing parenthesis in its name. -/
theorem plainToken_pictureSheet (h : 41 ∉ content) :
    ∀ t ∈ pictureSheet content, PlainToken t := by
  intro t ht
  rcases List.mem_cons.mp ht with rfl | ht
  · exact ⟨by decide, by decide, by decide⟩
  · rcases List.mem_cons.mp ht with rfl | ht
    · exact h
    · obtain rfl := List.mem_singleton.mp ht
      exact ⟨by decide, by decide, by decide⟩

/-- Two pictures, and white space in a declaration of a grid. -/
theorem warningsOfCode_picture :
    SameWarnings (renderSheet (pictureSheet (lit "\"a.png?x&y\"")))
        (renderSheet (pictureSheet (lit "\"b.png\""))) ∧
      SameWarnings (lit "display: grid") (lit "display:grid") := by
  have hcode := warningsOfCode (pictureSheet (lit "\"a.png?x&y\"")) (pictureSheet (lit "\"b.png\""))
    [] [] (lit "display") [] (lit "grid") [] [] [] [32] [] []
  refine ⟨hcode.1 (isSheet_pictureSheet (by decide : stringContent 34 (lit "a.png?x&y") = true))
    (isSheet_pictureSheet (by decide : stringContent 34 (lit "b.png") = true)) ?_ ?_ ?_, ?_⟩
  · exact plainToken_pictureSheet (by decide)
  · exact plainToken_pictureSheet (by decide)
  · exact .cons rfl (.cons trivial (.cons rfl .nil))
  · refine (hcode.2.2.2 (by decide) (by decide)
      ⟨by decide, by decide, by decide⟩ (by decide) blanks_nil (by simp [Blanks, Css.isWhite])).mpr ?_
    refine ⟨fun _ _ => ⟨rfl, Or.inr rfl⟩, fun _ h => absurd h (by decide), fun _ => Or.inl rfl, ?_,
      fun _ _ _ _ _ _ => List.not_mem_nil⟩
    intro f hf w hw q hq hpre
    have hno : ∀ f ∈ cssFeatures, ∀ w ∈ f.needle, (lit w).head? = some 58 →
        ¬ (lit w).tail <+: lower (lit "grid") := by
      decide
    exact absurd (by rw [hq]; exact hpre) (hno f hf w hw (by rw [hq]; rfl))

/-- A parenthesis in a quoted picture's name shows what is behind it, and a blank before its colon hides
a grid. -/
theorem not_warningsOfCode_parenthesis :
    (IsSheet (pictureSheet (lit "\"a (1).png?x&y\"")) ∧ IsSheet (pictureSheet (lit "\"b.png\"")) ∧
      List.Forall₂ CssToken.SameCode (pictureSheet (lit "\"a (1).png?x&y\""))
        (pictureSheet (lit "\"b.png\"")) ∧
      ¬ SameWarnings (renderSheet (pictureSheet (lit "\"a (1).png?x&y\"")))
        (renderSheet (pictureSheet (lit "\"b.png\"")))) ∧
      ¬ SameWarnings (lit ".a\x7bdisplay :grid\x7d") (lit ".a\x7bdisplay:grid\x7d") := by
  refine ⟨⟨isSheet_pictureSheet (by decide : stringContent 34 (lit "a (1).png?x&y") = true),
    isSheet_pictureSheet (by decide : stringContent 34 (lit "b.png") = true),
    .cons rfl (.cons trivial (.cons rfl .nil)), fun h => ?_⟩, fun h => ?_⟩
  · exact absurd (h servesAll false 24) (by decide +kernel)
  · exact absurd (h servesAll false 24) (by decide +kernel)

end BoatRudder.Utils
