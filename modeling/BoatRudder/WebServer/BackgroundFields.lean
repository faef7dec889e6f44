import BoatRudder.Text.LeadingNumbers
import BoatRudder.WebServer.FormFields

/-! # Background colours

A background is posted as a colour and a percentage, and stored as `#rrggbb` with the percentage as a
byte behind it. The two are read into buffers of eight bytes that are cleared first: whatever default
they held is gone, so that a background without a number of its own is invisible. -/

namespace BoatRudder.WebServer

/-! ## Stored backgrounds -/

/-- `valid_rgb`: a hash sign and six hexadecimal digits. -/
def validRgb (s : Bytes) : Bool := s.head? == some 35 && ((s.drop 1).take 6).all isXDigit

/-- What stands for a colour that is none. -/
def opaqueBlack : Bytes := lit "#000000"

/-- `cms_split_hex_alpha`: the colour and its percentage. -/
def cmsSplitHexAlpha (stored : Bytes) : Bytes × ℤ :=
  if ¬ (7 ≤ stored.length ∧ validRgb stored) then (opaqueBlack, 100)
  else if stored.length = 9 ∧ (stored.drop 7).all isXDigit then
    (stored.take 7, (digitsValue 16 0 (stored.drop 7) * 100 + 127) / 255)
  else (stored.take 7, 100)

/-- `cms_join_hex_alpha`, into a buffer of `outSize` bytes. -/
def cmsJoinHexAlpha (rgbHex : Bytes) (alphaPct : ℤ) (outSize : ℕ) : Bytes :=
  let alphaPct := if alphaPct < 0 then 0 else alphaPct
  let alphaPct := if 100 < alphaPct then 100 else alphaPct
  let rgb := if rgbHex.length = 7 ∧ validRgb rgbHex then rgbHex else opaqueBlack
  if 100 ≤ alphaPct then rgb.take (outSize - 1)
  else (rgb ++ bin2hex [UInt8.ofNat ((alphaPct * 255 + 50) / 100).toNat]).take (outSize - 1)

/-- `parse_bg_color_field`. -/
def parseBgColorField (body colorKey alphaKey : Bytes) (outSize : ℕ) : Bytes :=
  let rgb := parseUrlencodedField body colorKey 8
  let alphaStr := parseUrlencodedField body alphaKey 8
  cmsJoinHexAlpha rgb (atoi alphaStr) outSize

/-! ## What is wanted -/

/-- The text of a field, before it is cut to a buffer. -/
def fieldText (body key : Bytes) : Option Bytes :=
  (parseFieldFrom key (body.length + 1) body).map fun raw => cstr (urlDecode (cstr raw))

/-- A colour. -/
def IsColour (s : Bytes) : Prop := s.length = 7 ∧ validRgb s

instance : DecidablePred IsColour := fun _ => inferInstanceAs (Decidable (_ ∧ _))

/-- The colour of a field, or else black. -/
def wantedColour (text : Option Bytes) : Bytes :=
  match text with
  | some v => if IsColour v then v else opaqueBlack
  | none => opaqueBlack

/-- A number as a percentage. -/
def clampPercent (n : ℤ) : ℤ := max 0 (min 100 n)

/-- The percentage of a field, or else all of it. -/
def wantedPercent (text : Option Bytes) : ℤ :=
  match text.bind textNumber with
  | some n => clampPercent n
  | none => 100

/-- The documented form of a colour and a percentage: `#rrggbb`, or `#rrggbbaa` with the percentage of
255 as a byte. -/
def documentedBackground (colour : Bytes) (percent : ℤ) : Bytes :=
  if percent = 100 then colour else colour ++ bin2hex [UInt8.ofNat ((percent * 255 + 50) / 100).toNat]

/-- What becomes of the background of a form. -/
structure BackgroundKept (body colorKey alphaKey : Bytes) (outSize : ℕ) : Prop where
  stored : parseBgColorField body colorKey alphaKey outSize =
    documentedBackground (wantedColour (fieldText body colorKey)) (wantedPercent (fieldText body alphaKey))
  shown : cmsSplitHexAlpha (parseBgColorField body colorKey alphaKey outSize) =
    (wantedColour (fieldText body colorKey), wantedPercent (fieldText body alphaKey))
  /-- Saving the form again, with what it shows, changes nothing. -/
  again : ∀ body' : Bytes,
    fieldText body' colorKey = some (cmsSplitHexAlpha (parseBgColorField body colorKey alphaKey outSize)).1 →
      fieldText body' alphaKey =
          some (signed (cmsSplitHexAlpha (parseBgColorField body colorKey alphaKey outSize)).2) →
        parseBgColorField body' colorKey alphaKey outSize = parseBgColorField body colorKey alphaKey outSize

/-- The number of a text is whole in its first seven bytes, or its percentage can be told from them. -/
def ToldInSeven (v : Bytes) (n : ℤ) : Prop :=
  digitsAt v + (numberDigits v).length ≤ 7 ∨ n ≤ 0 ∨
    100 ≤ digitsValue 10 0 ((numberDigits v).take (7 - digitsAt v))

/-- The fields of a form from which its background can be read: no text longer than a colour starts
with one, unless that is black, and there is a number that seven bytes tell. -/
structure BackgroundReadable (body colorKey alphaKey : Bytes) : Prop where
  colour : ∀ v, fieldText body colorKey = some v → 7 < v.length → IsColour (v.take 7) →
    v.take 7 = opaqueBlack
  alpha : ∃ v n, fieldText body alphaKey = some v ∧ textNumber v = some n ∧ ToldInSeven v n

variable {body colorKey alphaKey : Bytes} {outSize : ℕ}

/-! ## Percentages and bytes -/

/-- **The two roundings undo each other**, for every percentage that is stored as a byte. -/
theorem percent_of_byte {p : ℤ} (hlo : 0 ≤ p) (hhi : p < 100) :
    (((p * 255 + 50) / 100) * 100 + 127) / 255 = p ∧ 0 ≤ (p * 255 + 50) / 100 ∧
      (p * 255 + 50) / 100 < 256 := by
  omega

theorem clampPercent_range (n : ℤ) : 0 ≤ clampPercent n ∧ clampPercent n ≤ 100 := by
  rw [clampPercent]
  omega

theorem isColour_opaqueBlack : IsColour opaqueBlack := by decide

/-- Seven bytes are taken for a colour whatever follows them. -/
theorem validRgb_append {s : Bytes} (h : s.length = 7) (t : Bytes) : validRgb (s ++ t) = validRgb s := by
  obtain ⟨c, s, rfl⟩ := List.exists_cons_of_length_pos (l := s) (by omega)
  have hs : s.length = 6 := Nat.succ.inj h
  simp only [validRgb, List.cons_append, List.head?_cons, List.drop_succ_cons, List.drop_zero]
  rw [← hs, List.take_left, List.take_length]

/-- What is joined is what is documented. -/
theorem cmsJoinHexAlpha_eq (hsize : 10 ≤ outSize) (rgb : Bytes) (n : ℤ) :
    cmsJoinHexAlpha rgb n outSize =
      documentedBackground (if IsColour rgb then rgb else opaqueBlack) (clampPercent n) := by
  have hclamp : (if 100 < (if n < 0 then 0 else n) then 100 else if n < 0 then 0 else n) =
      clampPercent n := by
    rw [clampPercent]
    split_ifs <;> omega
  have hlen : (if IsColour rgb then rgb else opaqueBlack).length = 7 := by
    split_ifs with h
    · exact h.1
    · rfl
  have hrange := clampPercent_range n
  simp only [cmsJoinHexAlpha, hclamp]
  change (if 100 ≤ clampPercent n then (if IsColour rgb then rgb else opaqueBlack).take _
    else ((if IsColour rgb then rgb else opaqueBlack) ++ _).take _) = _
  generalize (if IsColour rgb then rgb else opaqueBlack) = colour at *
  rw [documentedBackground]
  by_cases hfull : clampPercent n = 100
  · rw [if_pos hfull.ge, if_pos hfull]
    exact List.take_of_length_le (by omega)
  · rw [if_neg (by omega), if_neg hfull]
    apply List.take_of_length_le
    rw [List.length_append, length_bin2hex, List.length_singleton]
    omega

/-- The two digits of a byte. -/
theorem digitsValue_bin2hex (b : UInt8) :
    digitsValue 16 0 (bin2hex [b]) = b.toNat ∧ (bin2hex [b]).all isXDigit = true := by
  revert b
  decide +kernel

/-- **What is documented is taken apart again.** -/
theorem cmsSplitHexAlpha_documented {colour : Bytes} (hcolour : IsColour colour) {p : ℤ} (hlo : 0 ≤ p)
    (hhi : p ≤ 100) : cmsSplitHexAlpha (documentedBackground colour p) = (colour, p) := by
  obtain ⟨hlen, hvalid⟩ := hcolour
  rw [documentedBackground]
  split_ifs with hfull
  · rw [cmsSplitHexAlpha, if_neg (by simp [hlen, hvalid]), if_neg (by omega), ← hlen, List.take_length, hfull]
  · obtain ⟨hround, hnonneg, hbyte⟩ := percent_of_byte hlo (by omega)
    obtain ⟨hvalue, hdigits⟩ := digitsValue_bin2hex (UInt8.ofNat ((p * 255 + 50) / 100).toNat)
    have hdrop : ∀ t : Bytes, (colour ++ t).drop 7 = t := fun t => hlen ▸ List.drop_left
    have htake : ∀ t : Bytes, (colour ++ t).take 7 = colour := fun t => hlen ▸ List.take_left
    rw [cmsSplitHexAlpha, if_neg (by simp [hlen, hvalid, validRgb_append hlen]),
      if_pos ⟨by simp [hlen], by rw [hdrop, hdigits]⟩, htake, hdrop, hvalue, UInt8.toNat_ofNat']
    have hcast : ((((p * 255 + 50) / 100).toNat % 2 ^ 8 : ℕ) : ℤ) = (p * 255 + 50) / 100 := by omega
    rw [hcast, hround]

/-! ## What the buffers hold -/

theorem parseUrlencodedField_eq (body key : Bytes) (size : ℕ) :
    parseUrlencodedField body key size = ((fieldText body key).map (·.take (size - 1))).getD [] := by
  rw [parseUrlencodedField, fieldText]
  cases parseFieldFrom key (body.length + 1) body <;> rfl

/-- The number of seven bytes is one of an `int`. -/
theorem atoi_take (v : Bytes) : atoi (v.take 7) = (textNumber (v.take 7)).getD 0 := by
  have hbound : ((textNumber (v.take 7)).getD 0).natAbs < 10 ^ 7 := by
    cases hn : textNumber (v.take 7) with
    | none => decide
    | some n =>
      refine (natAbs_textNumber_lt hn).trans_le (Nat.pow_le_pow_right (by decide) ?_)
      rw [List.length_take]
      exact Nat.min_le_left 7 _
  rw [atoi, strtoll_eq_textNumber]
  have hmid : max (-2 ^ 63) (min (2 ^ 63 - 1) ((textNumber (v.take 7)).getD 0)) =
      (textNumber (v.take 7)).getD 0 := by omega
  rw [hmid]
  exact Int32.toInt_ofInt_of_le (by omega) (by omega)

/-- The colour of a buffer of eight bytes is that of the field, unless the text goes on behind it. -/
theorem colour_of_buffer (text : Option Bytes) :
    (if IsColour ((text.map (·.take 7)).getD []) then (text.map (·.take 7)).getD [] else opaqueBlack) =
        wantedColour text ↔
      ∀ v, text = some v → 7 < v.length → IsColour (v.take 7) → v.take 7 = opaqueBlack := by
  cases text with
  | none => simp [wantedColour, IsColour]
  | some v =>
    simp only [Option.map_some, Option.getD_some, wantedColour, Option.some.injEq, forall_eq']
    by_cases hlong : 7 < v.length
    · have hnot : ¬ IsColour v := fun h => absurd h.1 (by omega)
      rw [if_neg hnot]
      split_ifs with hcut
      · simp [hlong, hcut]
      · simp [hcut]
    · rw [List.take_of_length_le (by omega)]
      simp [hlong]

/-- **The percentage of a number is that of its first seven bytes** when it can be told from them. -/
theorem clampPercent_take_iff {v : Bytes} {n : ℤ} (hn : textNumber v = some n) :
    clampPercent ((textNumber (v.take 7)).getD 0) = clampPercent n ↔ ToldInSeven v n := by
  have hcut := textNumber_take v 7
  obtain ⟨hmul, hwhole⟩ := digitsValue_take (numberDigits v) (7 - digitsAt v)
  obtain ⟨hpos, hvalue⟩ := textNumber_eq_some hn
  rw [hcut, hvalue, ToldInSeven, clampPercent, clampPercent]
  generalize digitsValue 10 0 (numberDigits v) = whole at *
  generalize digitsValue 10 0 ((numberDigits v).take (7 - digitsAt v)) = part at *
  split_ifs with hsign
  · simp only [iff_def]
    omega
  · by_cases hfits : digitsAt v + (numberDigits v).length ≤ 7
    · have := hwhole (by omega)
      omega
    · have := hmul (by omega)
      omega

/-! ## Backgrounds kept -/

/-- What is stored of the two buffers. -/
theorem parseBgColorField_eq (hsize : 10 ≤ outSize) (body colorKey alphaKey : Bytes) :
    ∃ colour percent, IsColour colour ∧ 0 ≤ percent ∧ percent ≤ 100 ∧
      parseBgColorField body colorKey alphaKey outSize = documentedBackground colour percent ∧
      (colour = wantedColour (fieldText body colorKey) ↔
        ∀ v, fieldText body colorKey = some v → 7 < v.length → IsColour (v.take 7) →
          v.take 7 = opaqueBlack) ∧
      (percent = wantedPercent (fieldText body alphaKey) ↔
        ∃ v n, fieldText body alphaKey = some v ∧ textNumber v = some n ∧ ToldInSeven v n) := by
  refine ⟨_, _, ?_, (clampPercent_range _).1, (clampPercent_range _).2,
    cmsJoinHexAlpha_eq hsize (parseUrlencodedField body colorKey 8) (atoi (parseUrlencodedField body alphaKey 8)),
    ?_, ?_⟩
  · split_ifs with h
    · exact h
    · exact isColour_opaqueBlack
  · rw [parseUrlencodedField_eq]
    exact colour_of_buffer _
  · rw [parseUrlencodedField_eq]
    cases htext : fieldText body alphaKey with
    | none =>
      have hzero : clampPercent (atoi []) = 0 := by decide
      simp [wantedPercent, hzero]
    | some v =>
      rw [Option.map_some, Option.getD_some]
      change clampPercent (atoi (v.take 7)) = _ ↔ _
      rw [atoi_take]
      cases hn : textNumber v with
      | none =>
        have hnone := textNumber_take_eq_none hn 7
        have hzero : clampPercent 0 = 0 := by decide
        simp [wantedPercent, hn, hnone, hzero]
      | some n =>
        have hcut := clampPercent_take_iff hn
        simpa [wantedPercent, hn] using hcut

/-- A percentage is read as it is written. -/
theorem textNumber_signed {p : ℤ} (hlo : 0 ≤ p) (hhi : p ≤ 100) :
    textNumber (signed p) = some p ∧ digitsAt (signed p) + (numberDigits (signed p)).length ≤ 7 := by
  have hall : ∀ n < 101, textNumber (decimal n) = some (n : ℤ) ∧
      digitsAt (decimal n) + (numberDigits (decimal n)).length ≤ 7 := by decide
  obtain ⟨n, rfl⟩ := Int.eq_ofNat_of_zero_le hlo
  rw [signed_natCast]
  exact hall n (by omega)

/-- **A background is kept exactly when it can be read**: there is a number for its opacity, the first
seven bytes of the two fields tell what they are. -/
theorem backgroundKept_iff (hsize : 10 ≤ outSize) :
    BackgroundKept body colorKey alphaKey outSize ↔ BackgroundReadable body colorKey alphaKey := by
  obtain ⟨colour, percent, hcolour, hlo, hhi, hstored, hc, hp⟩ :=
    parseBgColorField_eq hsize body colorKey alphaKey
  have hsplit := cmsSplitHexAlpha_documented hcolour hlo hhi
  constructor
  · intro h
    have hshown := h.shown
    rw [hstored, hsplit, Prod.mk.injEq] at hshown
    exact ⟨hc.mp hshown.1, hp.mp hshown.2⟩
  · rintro ⟨hreadable, halpha⟩
    have hcolourEq := hc.mpr hreadable
    have hpercentEq := hp.mpr halpha
    refine ⟨?_, ?_, ?_⟩
    · rw [hstored, hcolourEq, hpercentEq]
    · rw [hstored, hsplit, hcolourEq, hpercentEq]
    · intro body' hcolour' halpha'
      rw [hstored, hsplit] at hcolour' halpha'
      obtain ⟨hnumber, hfits⟩ := textNumber_signed hlo hhi
      obtain ⟨colour', percent', -, -, -, hstored', hc', hp'⟩ :=
        parseBgColorField_eq hsize body' colorKey alphaKey
      have hsame : colour' = wantedColour (fieldText body' colorKey) := by
        refine hc'.mpr fun v hv hlong => ?_
        obtain rfl := Option.some.inj (hcolour'.symm.trans hv)
        have hseven : colour.length = 7 := hcolour.1
        exact absurd hlong (by simp [hseven])
      have hsame' : percent' = wantedPercent (fieldText body' alphaKey) :=
        hp'.mpr ⟨_, _, halpha', hnumber, Or.inl hfits⟩
      rw [hcolour', wantedColour, if_pos hcolour] at hsame
      rw [halpha', wantedPercent, Option.bind_some, hnumber] at hsame'
      have hclamp : clampPercent percent = percent := by
        rw [clampPercent]
        omega
      rw [hstored', hstored, hsame, hsame']
      exact congrArg _ hclamp

theorem backgroundKept_half : BackgroundKept (lit "navbar-background=%23336699&navbar-background-alpha=50")
    (lit "navbar-background") (lit "navbar-background-alpha") 10 := by
  refine (backgroundKept_iff (by decide)).mpr ⟨?_, lit "50", 50, by decide, by decide, ?_⟩
  · intro v hv hlong
    obtain rfl := Option.some.inj ((show fieldText _ _ = some (lit "#336699") by decide).symm.trans hv)
    exact absurd hlong (by decide)
  · exact Or.inl (by decide)

/-- **A background without a number is stored as an invisible one.** -/
theorem not_backgroundKept_alone : ¬ BackgroundKept (lit "navbar-background=%23336699")
    (lit "navbar-background") (lit "navbar-background-alpha") 10 := by
  intro h
  have hstored := h.stored
  have hcode : parseBgColorField (lit "navbar-background=%23336699") (lit "navbar-background")
      (lit "navbar-background-alpha") 10 = lit "#33669900" := by decide
  have hwanted : documentedBackground
      (wantedColour (fieldText (lit "navbar-background=%23336699") (lit "navbar-background")))
      (wantedPercent (fieldText (lit "navbar-background=%23336699") (lit "navbar-background-alpha"))) =
        lit "#336699" := by decide
  rw [hcode, hwanted] at hstored
  exact absurd hstored (by decide)

end BoatRudder.WebServer
