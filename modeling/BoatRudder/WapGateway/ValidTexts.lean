import BoatRudder.Text.Utf8
import BoatRudder.WapGateway.WmlStrings

/-! # The texts of a deck are UTF-8

What `parse_wml` puts into the tree is cut out of the source at ASCII bytes, so it is UTF-8 where
the source is, but for the references that `decode_entities` replaces: it takes every code point up
to U+10FFFF, the surrogates too. So the texts and attribute values of a deck are UTF-8 exactly when
none of them has a reference to a surrogate. -/

namespace BoatRudder.Wml

/-! ## References -/

variable {e s : Bytes} {c : UInt8} {cp : ℕ}

/-- A code point that is no character. -/
def IsSurrogate (cp : ℕ) : Prop := 0xD800 ≤ cp ∧ cp ≤ 0xDFFF

/-- A reference to a surrogate stands in `s`: `&#xD800;` and its like. -/
def HasSurrogate (s : Bytes) : Prop :=
  ∃ a e b cp, s = a ++ 38 :: (e ++ 59 :: b) ∧ 59 ∉ e ∧ e.length ≤ 10 ∧ entityCode e = some cp ∧
    IsSurrogate cp

theorem or_low (n : ℕ) : 0x80 ||| n &&& 0x3F = n % 0x40 + 0x80 := by
  rw [show 0x3F = 2 ^ 6 - 1 from rfl, Nat.and_two_pow_sub_one_eq_mod]
  have hlt : n % 2 ^ 6 < 64 := Nat.mod_lt _ (by decide)
  have hall : ∀ m < 64, 0x80 ||| m = m + 0x80 := by decide
  exact hall _ hlt

/-- `b_utf8` encodes a character. -/
theorem utf8_eq (hmax : cp ≤ 0x10FFFF) (h : ¬ IsSurrogate cp) :
    utf8 cp = String.utf8EncodeChar (Char.ofNat cp) := by
  have hvalid : cp.isValidChar := by
    rw [IsSurrogate] at h
    simp only [Nat.isValidChar]
    omega
  have hnat := toNat_charOfNat hvalid
  have h2 : ∀ n < 0x20, 0xC0 ||| n = n % 0x20 + 0xC0 := by decide
  have h3 : ∀ n < 0x10, 0xE0 ||| n = n % 0x10 + 0xE0 := by decide
  have h4 : ∀ n < 0x08, 0xF0 ||| n = n % 0x08 + 0xF0 := by decide
  have h6 : cp >>> 6 = cp / 64 := Nat.shiftRight_eq_div_pow cp 6
  have h12 : cp >>> 12 = cp / 4096 := Nat.shiftRight_eq_div_pow cp 12
  have h18 : cp >>> 18 = cp / 262144 := Nat.shiftRight_eq_div_pow cp 18
  rcases utf8EncodeChar_cases (Char.ofNat cp) with ⟨h1, heq⟩ | ⟨h0, h1, heq⟩ | ⟨h0, h1, heq⟩ |
    ⟨h0, heq⟩
  · rw [hnat] at h1 heq
    rw [heq, utf8, if_pos (by omega)]
  · rw [hnat] at h0 h1 heq
    rw [heq, utf8, if_neg (by omega), if_pos (by omega), or_low, h2 _ (by omega), h6]
  · rw [hnat] at h0 h1 heq
    rw [heq, utf8, if_neg (by omega), if_neg (by omega), if_pos (by omega), or_low, or_low,
      h3 _ (by omega), h12, h6]
  · rw [hnat] at h0 heq
    rw [heq, utf8, if_neg (by omega), if_neg (by omega), if_neg (by omega), or_low, or_low, or_low,
      h4 _ (by omega), h18, h12, h6]

/-- What it makes of a surrogate is none. -/
theorem utf8_of_surrogate (h : IsSurrogate cp) : ∃ b d, utf8 cp = [0xED, b, d] ∧ 0xA0 ≤ b := by
  obtain ⟨hlo, hhi⟩ := h
  have h6 : cp >>> 6 = cp / 64 := Nat.shiftRight_eq_div_pow cp 6
  have h12 : cp >>> 12 = 13 := by
    rw [Nat.shiftRight_eq_div_pow]
    omega
  have hA0 : (0xA0 : UInt8).toNat = 160 := rfl
  refine ⟨UInt8.ofNat ((cp / 64) % 0x40 + 0x80), UInt8.ofNat (cp % 0x40 + 0x80), ?_, ?_⟩
  · rw [utf8, if_neg (by omega), if_neg (by omega), if_pos (by omega), h12, or_low, or_low, h6]
    rfl
  · rw [UInt8.le_iff_toNat_le, hA0, toNat_ofNat_of_lt (by omega)]
    omega

/-- `strtoul` stops at a `&`. -/
theorem amp_mem_strtoul (base : ℕ) (hbase : isDigitOf base 38 = false)
    (h : 38 ∈ s) : 38 ∈ (strtoul base s).2 := by
  have hdrop {p : UInt8 → Bool} {t : Bytes} (hp : p 38 = false) (ht : 38 ∈ t) :
      38 ∈ t.dropWhile p := by
    rw [← List.takeWhile_append_dropWhile (p := p) (l := t), List.mem_append] at ht
    refine ht.resolve_left fun hmem => ?_
    rw [List.mem_takeWhile_imp hmem] at hp
    cases hp
  have htail {t : Bytes} (hhead : t.head? ≠ some 38) (ht : 38 ∈ t) :
      38 ∈ t.drop 1 := by
    cases t with
    | nil => cases ht
    | cons c t => exact (List.mem_cons.mp ht).resolve_left fun h => hhead (by rw [h]; rfl)
  have h1 : 38 ∈ s.dropWhile isSpace := hdrop (by decide) h
  simp only [strtoul]
  generalize s.dropWhile isSpace = t at h1
  have h2 : (38 : UInt8) ∈
      if (t.head? == some 45 || t.head? == some 43) = true then t.drop 1 else t := by
    split_ifs with hsign
    · refine htail (fun hhead => ?_) h1
      rw [hhead] at hsign
      exact absurd hsign (by decide)
    · exact h1
  revert h2
  generalize (if (t.head? == some 45 || t.head? == some 43) = true then t.drop 1 else t) = u
  intro h2
  have h3 : 38 ∈ if (base == 16 && u.head? == some 48 &&
      ((u.drop 1).head?.map toLower == some 120) && (u.drop 2).head?.any (isDigitOf 16)) = true then
      u.drop 2 else u := by
    split_ifs with hx
    · simp only [Bool.and_eq_true, beq_iff_eq] at hx
      obtain ⟨⟨⟨-, hzero⟩, hlower⟩, -⟩ := hx
      have hmem := htail (by rw [hzero]; decide) h2
      have hmem' := htail (fun hhead => by rw [hhead] at hlower; revert hlower; decide) hmem
      rwa [List.drop_drop] at hmem'
    · exact h2
  revert h3
  generalize (if (base == 16 && u.head? == some 48 &&
      ((u.drop 1).head?.map toLower == some 120) && (u.drop 2).head?.any (isDigitOf 16)) = true then
      u.drop 2 else u) = v
  intro h3
  by_cases hdigits : v.takeWhile (isDigitOf base) = []
  · rw [if_pos hdigits]
    exact h
  · rw [if_neg hdigits]
    dsimp only
    rw [drop_length_takeWhile]
    exact hdrop hbase h3

/-- A reference that is known holds no `&`. -/
theorem amp_notMem_of_entityCode (hlen : e.length ≤ 10)
    (h : entityCode e = some cp) : 38 ∉ e := by
  intro hmem
  have hnamed : ∀ x ∈ namedEntities, 38 ∉ x.1 := by decide
  unfold entityCode at h
  split at h
  · next x cp' hfind =>
      have hname : x = e := by simpa using List.find?_some hfind
      exact hnamed _ (List.mem_of_find?_eq_some hfind) (hname ▸ hmem)
  · split_ifs at h with hcond
    have hnum : 38 ∈ (e.drop 1).take 11 := by
      cases e with
      | nil => cases hmem
      | cons c t =>
        have hc : c = 35 := by simpa using hcond.2
        have ht := (List.mem_cons.mp hmem).resolve_left (by rw [hc]; decide)
        rw [List.length_cons] at hlen
        rwa [List.drop_one, List.tail_cons, List.take_of_length_le (by omega)]
    generalize (e.drop 1).take 11 = num at hnum h
    simp only [numericEntity] at h
    by_cases hhex : (num.head? == some 120 || num.head? == some 88) = true
    · -- behind the `x` too
      have hnum' : 38 ∈ num.drop 1 := by
        cases num with
        | nil => cases hnum
        | cons c t =>
          refine (List.mem_cons.mp hnum).resolve_left fun hc => ?_
          rw [← hc, List.head?_cons] at hhex
          exact absurd hhex (by decide)
      have hrest := List.ne_nil_of_mem (amp_mem_strtoul 16 (by decide) hnum')
      rw [if_pos hhex, if_pos (Or.inl hrest)] at h
      cases h
    · have hrest := List.ne_nil_of_mem (amp_mem_strtoul 10 (by decide) hnum)
      rw [if_neg hhex, if_pos (Or.inl hrest)] at h
      cases h

/-! ## Where a reference ends -/

/-- The `;` that `decode_entities` finds. -/
theorem exists_of_findIdx? {k : ℕ} (h : (s.take 11).findIdx? (· == 59) = some k) :
    ∃ e b : Bytes, s = e ++ 59 :: b ∧ 59 ∉ e ∧ e.length = k ∧ k ≤ 10 := by
  rw [List.findIdx?_eq_some_iff_getElem] at h
  obtain ⟨hk, hsemi, hbefore⟩ := h
  rw [List.length_take] at hk
  have hlt : k < s.length := by omega
  rw [List.getElem_take, beq_iff_eq] at hsemi
  refine ⟨s.take k, s.drop (k + 1), ?_, ?_, ?_, by omega⟩
  · rw [← hsemi, List.getElem_cons_drop, List.take_append_drop]
  · intro hmem
    obtain ⟨i, hi, hget⟩ := List.mem_take_iff_getElem.mp hmem
    have hno := hbefore i (by omega)
    rw [List.getElem_take] at hno
    exact hno (by rw [hget]; rfl)
  · rw [List.length_take, min_eq_left hlt.le]

/-- It finds the first one, when it is near. -/
theorem findIdx?_of_append {b : Bytes} (he : 59 ∉ e) (hlen : e.length ≤ 10) :
    ((e ++ 59 :: b).take 11).findIdx? (· == 59) = some e.length := by
  rw [List.findIdx?_eq_some_iff_getElem]
  refine ⟨by simp; omega, ?_, ?_⟩
  · rw [List.getElem_take, List.getElem_append_right le_rfl]
    simp
  · intro j hj
    rw [List.getElem_take, List.getElem_append_left hj]
    have hne : e[j] ≠ 59 := fun h => he (h ▸ List.getElem_mem hj)
    simpa using hne

theorem hasSurrogate_cons (hc : c ≠ 38) : HasSurrogate (c :: s) ↔ HasSurrogate s := by
  constructor
  · rintro ⟨a, e, b, cp, heq, h⟩
    cases a with
    | nil => exact absurd (List.cons.inj heq).1 hc
    | cons d a => exact ⟨a, e, b, cp, (List.cons.inj heq).2, h⟩
  · rintro ⟨a, e, b, cp, rfl, h⟩
    exact ⟨c :: a, e, b, cp, rfl, h⟩

/-- A `&` is such a reference, or one follows it. -/
theorem hasSurrogate_amp :
    HasSurrogate (38 :: s) ↔ (∃ e b cp, s = e ++ 59 :: b ∧ 59 ∉ e ∧ e.length ≤ 10 ∧
      entityCode e = some cp ∧ IsSurrogate cp) ∨ HasSurrogate s := by
  constructor
  · rintro ⟨a, e, b, cp, heq, h⟩
    cases a with
    | nil => exact Or.inl ⟨e, b, cp, (List.cons.inj heq).2, h⟩
    | cons d a => exact Or.inr ⟨a, e, b, cp, (List.cons.inj heq).2, h⟩
  · rintro (⟨e, b, cp, rfl, h⟩ | ⟨a, e, b, cp, rfl, h⟩)
    · exact ⟨[], e, b, cp, rfl, h⟩
    · exact ⟨38 :: a, e, b, cp, rfl, h⟩

/-- Where the `;` stands that ends a reference. -/
theorem append_semicolon_inj {e' b b' : Bytes} (he : 59 ∉ e) (he' : 59 ∉ e')
    (h : e ++ 59 :: b = e' ++ 59 :: b') : e = e' ∧ b = b' := by
  have hhead {u v : Bytes} (hu : 59 ∉ u) : (u ++ 59 :: v).takeWhile (· ≠ 59) = u := by
    have hall : ∀ c ∈ u, decide (c ≠ 59) = true := by
      intro c hc
      simpa using fun h : c = 59 => hu (h ▸ hc)
    rw [List.takeWhile_append_of_pos hall]
    simp
  have heq := congrArg (List.takeWhile (· ≠ 59)) h
  rw [hhead he, hhead he'] at heq
  subst heq
  exact ⟨rfl, (List.cons.inj (List.append_cancel_left h)).2⟩

/-- Without a `&` there is no reference. -/
theorem hasSurrogate_append (he : 38 ∉ e) : HasSurrogate (e ++ s) ↔ HasSurrogate s := by
  induction e with
  | nil => exact Iff.rfl
  | cons c e ih =>
    obtain ⟨hc, he⟩ := not_or.mp (List.mem_cons.not.mp he)
    rw [List.cons_append, hasSurrogate_cons (Ne.symm hc), ih he]

/-- **References keep a text UTF-8** exactly when none of them is to a surrogate. -/
theorem validUtf8_decodeEntities_iff {p : Bytes} (h : ValidUtf8 (p ++ s)) :
    ValidUtf8 (p ++ decodeEntities s) ↔ ¬ HasSurrogate s := by
  have hamp : isAscii 38 = true := by decide
  have hsemi : isAscii 59 = true := by decide
  fun_induction decodeEntities s generalizing p with
  | case1 =>
    refine iff_of_true h ?_
    rintro ⟨a, e, b, cp, heq, -⟩
    simp at heq
  | case2 c s hc ih =>
    have hsplit (t : Bytes) : p ++ c :: t = (p ++ [c]) ++ t := by simp
    have hih := ih (hsplit s ▸ h)
    rw [hsplit, hasSurrogate_cons hc]
    exact hih
  | case3 c s hc hk ih =>
    obtain rfl : c = 38 := by simpa using hc
    have hsplit (t : Bytes) : p ++ 38 :: t = (p ++ [38]) ++ t := by simp
    have hih := ih (hsplit s ▸ h)
    rw [hsplit, hasSurrogate_amp, or_iff_right]
    · exact hih
    rintro ⟨e, b, cp, rfl, he, hlen, -⟩
    rw [findIdx?_of_append he hlen] at hk
    cases hk
  | case4 c s hc k hk hcp ih =>
    obtain rfl : c = 38 := by simpa using hc
    have hsplit (t : Bytes) : p ++ 38 :: t = (p ++ [38]) ++ t := by simp
    have hih := ih (hsplit s ▸ h)
    rw [hsplit, hasSurrogate_amp, or_iff_right]
    · exact hih
    rintro ⟨e, b, cp, rfl, he, hlen, hcode, -⟩
    rw [findIdx?_of_append he hlen] at hk
    obtain rfl := Option.some.inj hk
    rw [List.take_left, hcode] at hcp
    cases hcp
  | case5 c s hc k hk cp hcp ih =>
    obtain rfl : c = 38 := by simpa using hc
    obtain ⟨e, b, rfl, he, rfl, hlen⟩ := exists_of_findIdx? hk
    have hdrop : (e ++ 59 :: b).drop (e.length + 1) = b := by
      rw [← List.drop_drop, List.drop_left, List.drop_one, List.tail_cons]
    rw [List.take_left] at hcp
    rw [hdrop] at ih ⊢
    obtain ⟨hp, htail⟩ := (validUtf8_append_cons hamp).mp h
    have hb := ((validUtf8_append_cons hsemi).mp htail).2
    by_cases hsurrogate : IsSurrogate cp
    · obtain ⟨x, y, hutf8, hx⟩ := utf8_of_surrogate hsurrogate
      refine iff_of_false ?_ (not_not.mpr ?_)
      · rw [hutf8]
        exact not_validUtf8_of_surrogate hx p _
      · exact hasSurrogate_amp.mpr (Or.inl ⟨e, b, cp, rfl, he, hlen, hcp, hsurrogate⟩)
    · have hutf8 := utf8_eq (entityCode_range hcp).2 hsurrogate
      have hchar : ValidUtf8 (p ++ utf8 cp) := hp.append (hutf8 ▸ validUtf8_char _)
      have hclean := amp_notMem_of_entityCode hlen hcp
      have hih := ih (hchar.append hb)
      rw [← List.append_assoc, hasSurrogate_amp, hasSurrogate_append hclean,
        hasSurrogate_cons (by decide), or_iff_right]
      · exact hih
      · rintro ⟨e', b', cp', heq, he', -, hcode, hs⟩
        obtain ⟨rfl, rfl⟩ := append_semicolon_inj he he' heq
        rw [hcode] at hcp
        exact hsurrogate (Option.some.inj hcp ▸ hs)

/-! ## Texts -/

theorem isAscii_of_isBlank (h : isBlank c = true) : isAscii c = true := by
  simp only [isBlank, Bool.or_eq_true, beq_iff_eq] at h
  rcases h with ((rfl | rfl) | rfl) | rfl <;> decide

/-- Collapsing blanks keeps a text UTF-8, and makes none of another. -/
theorem validUtf8_collapseBlanks (p : Bytes) (any : Bool) (s : Bytes) :
    (ValidUtf8 (p ++ collapseBlanks false any s) ↔ ValidUtf8 (p ++ s)) ∧
      (ValidUtf8 (p ++ collapseBlanks true any s) ↔ ValidUtf8 p ∧ ValidUtf8 s) := by
  have hspace : isAscii 32 = true := by decide
  induction s generalizing p any with
  | nil =>
    refine ⟨by simp [collapseBlanks], ?_⟩
    cases any with
    | true => exact validUtf8_append_cons hspace
    | false => simp [collapseBlanks]
  | cons c s ih =>
    simp only [collapseBlanks, Bool.false_eq_true, if_false, if_true]
    split_ifs with hc
    · have hascii := isAscii_of_isBlank hc
      rw [validUtf8_append_cons hascii, validUtf8_cons hascii, (ih p any).2]
      exact ⟨Iff.rfl, Iff.rfl⟩
    · constructor
      · have hsplit (t : Bytes) : p ++ ([] ++ c :: t) = (p ++ [c]) ++ t := by simp
        have hsplit' : p ++ c :: s = (p ++ [c]) ++ s := by simp
        rw [hsplit, (ih (p ++ [c]) true).1, hsplit']
      · rw [List.singleton_append, validUtf8_append_cons hspace]
        exact and_congr_right fun _ => (ih [c] true).1

/-- A text of the tree is UTF-8 as what is decoded is. -/
theorem validUtf8_makeText_iff (s : Bytes) :
    (∀ t ∈ makeText s, ValidUtf8 t) ↔ ValidUtf8 (decodeEntities s) := by
  simp only [makeText]
  split_ifs with hblank
  · refine iff_of_true (by simp) (validUtf8_of_ascii fun b hb => ?_)
    exact isAscii_of_isBlank (List.all_eq_true.mp hblank b hb)
  · have hall := (validUtf8_collapseBlanks [] false (decodeEntities s)).1
    simpa using hall

/-! ## What the reader decodes -/

/-- The values of attributes that `parse_wml` decodes, `s` being the inside of an open tag. -/
def attrRuns (s : Bytes) : List Bytes :=
  match _hs : s.dropWhile isSpace with
  | [] => []
  | c :: t =>
    if c == 62 then []
    else if !isNameChar c then attrRuns t
    else
      match _hr : (t.dropWhile isNameChar).dropWhile isSpace with
      | [] => []
      | e :: r =>
        if e == 61 then (attrValue r).1 :: attrRuns (attrValue r).2
        else attrRuns (e :: r)
termination_by s.length
decreasing_by
  all_goals
    have h1 := length_dropWhile_le isSpace s
    rw [_hs, List.length_cons] at h1
  · omega
  · have h2 := length_behindName_le t
    have h3 := length_attrValue_le r
    rw [_hr, List.length_cons] at h2
    omega
  · have h2 := length_behindName_le t
    rw [_hr] at h2
    omega

/-- The runs of the source that one turn of `parse_wml` decodes: a text, or the values of a tag. -/
def stepRuns (s : Bytes) : List Bytes :=
  if s.head? ≠ some 60 then [s.takeWhile (· ≠ 60)]
  else if (lit "<!--").isPrefixOf s then []
  else if (s.drop 1).head? = some 63 ∨ (s.drop 1).head? = some 33 then []
  else if (s.drop 1).head? = some 47 then []
  else if (s.drop 1).takeWhile isNameChar = [] then []
  else attrRuns ((s.drop 1).dropWhile isNameChar)

/-- The runs of a source that `parse_wml` decodes. -/
def readRuns (s : Bytes) : List Bytes :=
  if _h : s = [] then []
  else stepRuns s ++ readRuns (parseStep s Stack.start).1
termination_by s.length
decreasing_by exact length_parseStep_lt _h Stack.start

theorem attrRuns_of_nil (hs : s.dropWhile isSpace = []) : attrRuns s = [] := by
  rw [attrRuns.eq_def]
  split
  · rfl
  · next h => simp [hs] at h

theorem attrRuns_of_cons {t : Bytes} (hs : s.dropWhile isSpace = c :: t) : attrRuns s =
      if c == 62 then [] else if !isNameChar c then attrRuns t else
        match (t.dropWhile isNameChar).dropWhile isSpace with
        | [] => []
        | e :: r =>
          if e == 61 then (attrValue r).1 :: attrRuns (attrValue r).2
          else attrRuns (e :: r) := by
  rw [attrRuns.eq_def]
  split
  · next h => simp [hs] at h
  · next c' t' h =>
      obtain ⟨rfl, rfl⟩ : c = c' ∧ t = t' := by simpa [hs] using h
      split_ifs
      · rfl
      · rfl
      · cases hr : (t.dropWhile isNameChar).dropWhile isSpace with
        | nil =>
          split
          · rfl
          · next hr' => cases hr'
        | cons e r =>
          split
          · next hr' => cases hr'
          · next e' r' hr' =>
              obtain ⟨rfl, rfl⟩ := List.cons.inj hr'
              rfl

theorem isAscii_of_isNameChar (h : isNameChar c = true) : isAscii c = true := by
  simp only [isNameChar, isAlnum, isAlpha, isUpper, isLower, isDigit, Bool.or_eq_true,
    Bool.and_eq_true, decide_eq_true_eq, beq_iff_eq] at h
  simp only [isAscii, decide_eq_true_eq]
  grind

theorem validUtf8_name (s : Bytes) : ValidUtf8 ((s.takeWhile isNameChar).take 31) :=
  validUtf8_of_ascii fun _ hb =>
    isAscii_of_isNameChar (List.mem_takeWhile_imp (List.mem_of_mem_take hb))

theorem forall_mem_snoc_iff {attrs : List (Bytes × Bytes)} {a : Bytes × Bytes} {P : Bytes → Prop} :
    (∀ b ∈ attrs ++ [a], P b.2) ↔ (∀ b ∈ attrs, P b.2) ∧ P a.2 := by
  rw [List.forall_mem_append, List.forall_mem_singleton]

/-- The attributes of a tag are UTF-8 as its values are that are decoded. -/
theorem validUtf8_parseAttrs_iff (attrs : List (Bytes × Bytes)) (selfClose : Bool) (s : Bytes) :
    (∀ a ∈ (parseAttrs attrs selfClose s).1, ValidUtf8 a.2) ↔
      (∀ a ∈ attrs, ValidUtf8 a.2) ∧ ∀ run ∈ attrRuns s, ValidUtf8 (decodeEntities run) := by
  fun_induction parseAttrs attrs selfClose s with
  | case1 attrs selfClose s hs => simp [attrRuns_of_nil hs]
  | case2 attrs selfClose s c t hs hc => simp [attrRuns_of_cons hs, hc]
  | case3 attrs selfClose s c t hs hc hc' ih =>
    have h47 : (!isNameChar c) = true := by
      obtain rfl : c = 47 := by simpa using hc'
      decide
    rw [attrRuns_of_cons hs, if_neg hc, if_pos h47]
    exact ih
  | case4 attrs selfClose s c t hs hc hc' hn ih =>
    rw [attrRuns_of_cons hs, if_neg hc, if_pos hn]
    exact ih
  | case5 attrs selfClose s c t hs hc hc' hn name hr =>
    rw [attrRuns_of_cons hs, if_neg hc, if_neg hn, hr, forall_mem_snoc_iff]
    simp [name, validUtf8_name]
  | case6 attrs selfClose s c t hs hc hc' hn name e r hr he ih =>
    rw [attrRuns_of_cons hs, if_neg hc, if_neg hn, hr, ih, forall_mem_snoc_iff]
    simp only [he, if_true, List.forall_mem_cons, and_assoc]
  | case7 attrs selfClose s c t hs hc hc' hn name e r hr he ih =>
    rw [attrRuns_of_cons hs, if_neg hc, if_neg hn, hr, ih, forall_mem_snoc_iff]
    simp only [he, Bool.false_eq_true, if_false, name, validUtf8_name, and_true]

/-! ## The stack -/

section Stack

variable {P : Bytes → Prop}

/-- Every string of an open element, and of what it holds. -/
def Frame.Holds (P : Bytes → Prop) (f : Frame) : Prop := f.close.All P

/-- Every string of the open elements. -/
def Stack.Holds (P : Bytes → Prop) (st : Stack) : Prop :=
  st.top.Holds P ∧ ∀ f ∈ st.below, f.Holds P

theorem Frame.holds_add {f : Frame} {n : Node} :
    (f.add n).Holds P ↔ f.Holds P ∧ n.All P := by
  simp only [Frame.Holds, Frame.close, Frame.add, Tree.All, Tree.allIn_append, Tree.AllIn, and_true,
    and_assoc]

theorem Stack.holds_add {st : Stack} {n : Node} : (st.add n).Holds P ↔ st.Holds P ∧ n.All P := by
  simp only [Stack.Holds, Stack.add, Frame.holds_add, and_right_comm]

/-- Popping drops no string. -/
theorem holds_of_popTo {name : Bytes} {top : Frame} {below : List Frame} {st : Stack}
    (h : popTo name top below = some st) : st.Holds P ↔ top.Holds P ∧ ∀ f ∈ below, f.Holds P := by
  induction below generalizing top with
  | nil => cases h
  | cons parent below ih =>
    have hclose : (parent.add top.close).Holds P ↔ parent.Holds P ∧ top.Holds P := Frame.holds_add
    rw [List.forall_mem_cons, ← and_assoc, and_comm (a := top.Holds P), ← hclose]
    simp only [popTo] at h
    split_ifs at h
    · obtain rfl := Option.some.inj h
      exact Iff.rfl
    · exact ih h

/-- Nor does closing the elements that are open. -/
theorem all_closeAll {top : Frame} {below : List Frame} :
    (closeAll top below).All P ↔ top.Holds P ∧ ∀ f ∈ below, f.Holds P := by
  induction below generalizing top with
  | nil => simp [closeAll, Frame.Holds]
  | cons parent below ih =>
    have hclose : (parent.add top.close).Holds P ↔ parent.Holds P ∧ top.Holds P := Frame.holds_add
    rw [closeAll, ih, hclose, List.forall_mem_cons, ← and_assoc, and_comm (a := top.Holds P)]

end Stack

/-! ## The reader -/

/-- `s` is the end of a text, from any byte on. -/
def EndsText (s : Bytes) : Prop := ∃ p, ValidUtf8 (p ++ s)

theorem endsText_of_validUtf8 (h : ValidUtf8 s) : EndsText s := ⟨[], h⟩

theorem EndsText.suffix {t : Bytes} (h : EndsText s) (ht : t <:+ s) : EndsText t := by
  obtain ⟨p, hp⟩ := h
  obtain ⟨a, rfl⟩ := ht
  exact ⟨p ++ a, by rwa [List.append_assoc]⟩

/-- Behind an ASCII byte a character starts. -/
theorem EndsText.tail (h : EndsText (c :: s)) (hc : isAscii c = true) : ValidUtf8 s := by
  obtain ⟨p, hp⟩ := h
  exact ((validUtf8_append_cons hc).mp hp).2

/-- A value and what follows it. -/
theorem validUtf8_attrValue (h : ValidUtf8 s) :
    ValidUtf8 (attrValue s).1 ∧ ValidUtf8 (attrValue s).2 := by
  have hdrop := h.dropWhile (p := isSpace) fun _ hb => isAscii_of_isSpace hb
  unfold attrValue
  split
  · exact ⟨validUtf8_nil, validUtf8_nil⟩
  · next q t heq =>
      rw [heq] at hdrop
      split_ifs with hq
      · have hascii : isAscii q = true := by
          simp only [Bool.or_eq_true, beq_iff_eq] at hq
          rcases hq with rfl | rfl <;> decide
        have ht := (validUtf8_cons hascii).mp hdrop
        refine ⟨(ht.span fun b hb => ?_).1, ht.afterByte hascii⟩
        obtain rfl : b = q := by simpa using hb
        exact hascii
      · dsimp only
        refine hdrop.span fun b hb => ?_
        simp only [Bool.and_eq_false_iff, Bool.not_eq_false', bne_eq_false_iff_eq] at hb
        rcases hb with hb | rfl
        · exact isAscii_of_isSpace hb
        · decide

/-- What is decoded in a tag, and what follows the tag. -/
theorem validUtf8_attrRuns (h : EndsText s) : ∀ run ∈ attrRuns s, ValidUtf8 run := by
  fun_induction attrRuns s with
  | case1 s hs => simp
  | case2 s c t hs hc => simp
  | case3 s c t hs hc hn ih => exact ih (h.suffix (suffix_of_dropWhile_eq hs))
  | case4 s c t hs hc hn hr => simp
  | case5 s c t hs hc hn e r hr he ih =>
    obtain rfl : e = 61 := by simpa using he
    have hsuf : 61 :: r <:+ s := by
      rw [← hr]
      exact (List.dropWhile_suffix _).trans
        ((List.dropWhile_suffix _).trans (suffix_of_dropWhile_eq hs))
    obtain ⟨hvalue, hrest⟩ := validUtf8_attrValue ((h.suffix hsuf).tail (by decide))
    exact List.forall_mem_cons.mpr ⟨hvalue, ih (endsText_of_validUtf8 hrest)⟩
  | case6 s c t hs hc hn e r hr he ih =>
    refine ih (h.suffix ?_)
    rw [← hr]
    exact (List.dropWhile_suffix _).trans
      ((List.dropWhile_suffix _).trans (suffix_of_dropWhile_eq hs))

theorem validUtf8_parseAttrs {attrs : List (Bytes × Bytes)} {selfClose : Bool}
    (h : EndsText s) : ValidUtf8 (parseAttrs attrs selfClose s).2.2 := by
  fun_induction parseAttrs attrs selfClose s with
  | case1 attrs selfClose s hs => exact validUtf8_nil
  | case2 attrs selfClose s c t hs hc =>
    obtain rfl : c = 62 := by simpa using hc
    exact (h.suffix (hs ▸ List.dropWhile_suffix _)).tail (by decide)
  | case3 attrs selfClose s c t hs hc hc' ih => exact ih (h.suffix (suffix_of_dropWhile_eq hs))
  | case4 attrs selfClose s c t hs hc hc' hn ih => exact ih (h.suffix (suffix_of_dropWhile_eq hs))
  | case5 attrs selfClose s c t hs hc hc' hn name hr => exact validUtf8_nil
  | case6 attrs selfClose s c t hs hc hc' hn name e r hr he ih =>
    have hsuf := (suffix_of_dropWhile_eq hr).trans
      ((List.dropWhile_suffix _).trans (suffix_of_dropWhile_eq hs))
    exact ih (h.suffix ((attrValue_subset r).2.trans hsuf))
  | case7 attrs selfClose s c t hs hc hc' hn name e r hr he ih =>
    refine ih (h.suffix ?_)
    rw [← hr]
    exact (List.dropWhile_suffix _).trans
      ((List.dropWhile_suffix _).trans (suffix_of_dropWhile_eq hs))

theorem readText_holds_iff (s : Bytes) (st : Stack) :
    (readText s st).Holds ValidUtf8 ↔
      st.Holds ValidUtf8 ∧ ValidUtf8 (decodeEntities (s.takeWhile (· ≠ 60))) := by
  rw [← validUtf8_makeText_iff, readText]
  cases ht : makeText (s.takeWhile (· ≠ 60)) with
  | some t =>
    have hall : (Tree.text t : Node).All ValidUtf8 ↔ ValidUtf8 t := Iff.rfl
    dsimp only
    rw [Stack.holds_add, hall]
    simp
  | none =>
    have hblank : (Tree.text (lit " ") : Node).All ValidUtf8 :=
      validUtf8_of_ascii (by decide)
    dsimp only
    split_ifs
    · rw [Stack.holds_add]
      simp [hblank]
    · simp

/-- What a turn of the loop leaves to read does not depend on the stack. -/
theorem parseStep_fst (s : Bytes) (st : Stack) :
    (parseStep s st).1 = (parseStep s Stack.start).1 := by
  unfold parseStep
  split_ifs <;> rfl

/-- A turn adds the strings it decodes. -/
theorem parseStep_holds_iff (s : Bytes) (st : Stack) :
    (parseStep s st).2.Holds ValidUtf8 ↔
      st.Holds ValidUtf8 ∧ ∀ run ∈ stepRuns s, ValidUtf8 (decodeEntities run) := by
  unfold parseStep stepRuns
  split_ifs
  · simp [readText_holds_iff]
  · simp
  · simp
  · cases hpop : popTo (tagName (s.drop 2)) st.top st.below with
    | none => simp
    | some st' =>
      rw [Option.getD_some, holds_of_popTo hpop]
      simp [Stack.Holds]
  · simp
  · have hattrs := validUtf8_parseAttrs_iff [] false ((s.drop 1).dropWhile isNameChar)
    simp only [List.not_mem_nil, IsEmpty.forall_iff, implies_true, true_and] at hattrs
    rw [← hattrs]
    simp only [readOpenTag]
    split_ifs
    · simp only [Stack.Holds, Frame.Holds, Frame.close, Tree.All, Tree.AllIn, List.forall_mem_cons]
      tauto
    · simp only [Stack.holds_add, Tree.All, Tree.AllIn, and_true]

/-- The strings of the tree are those the reader decodes. -/
theorem all_parseLoop_iff (s : Bytes) (st : Stack) :
    (parseLoop s st).All ValidUtf8 ↔
      st.Holds ValidUtf8 ∧ ∀ run ∈ readRuns s, ValidUtf8 (decodeEntities run) := by
  fun_induction parseLoop s st with
  | case1 st =>
    rw [readRuns, dif_pos rfl, all_closeAll]
    simp [Stack.Holds]
  | case2 s st hs ih =>
    rw [ih, parseStep_holds_iff, parseStep_fst s st, readRuns.eq_def s, dif_neg hs,
      List.forall_mem_append, and_assoc]

theorem all_parseWml_iff (s : Bytes) :
    (parseWml s).All ValidUtf8 ↔ ∀ run ∈ readRuns s, ValidUtf8 (decodeEntities run) := by
  rw [parseWml, all_parseLoop_iff, and_iff_right]
  simp [Stack.Holds, Stack.start, Frame.Holds, Frame.close, Tree.All, Tree.AllIn]

/-- What a turn decodes, and what it leaves to read. -/
theorem validUtf8_stepRuns (h : ValidUtf8 s) :
    (∀ run ∈ stepRuns s, ValidUtf8 run) ∧ ValidUtf8 (parseStep s Stack.start).1 := by
  have hopen (b : UInt8) (hb : (decide (b ≠ 60)) = false) : isAscii b = true := by
    obtain rfl : b = 60 := by simpa using hb
    decide
  have hname (b : UInt8) (hb : isNameChar b = true) : isAscii b = true := isAscii_of_isNameChar hb
  -- behind a `<`
  have hbehind : ¬ s.head? ≠ some 60 → ∃ t, s = 60 :: t ∧ ValidUtf8 t := by
    intro hhead
    obtain ⟨t, rfl⟩ := List.head?_eq_some_iff.mp (not_not.mp hhead)
    exact ⟨t, rfl, (validUtf8_cons (by decide)).mp h⟩
  unfold stepRuns parseStep
  split_ifs with h1 h2 h3 h4 h5
  · have hspan := h.span hopen
    exact ⟨by simpa using hspan.1, hspan.2⟩
  · refine ⟨by simp, ?_⟩
    unfold skipComment
    split
    · next i hfind =>
        have hgt : lit "-->" = [45, 45] ++ [62] := by decide
        have hcut := findSub_split hfind
        have hlen : (lit "-->").length = 3 := by decide
        have hdrop : s.drop (4 + i + 3) = (s.drop 4).drop (i + (lit "-->").length) := by
          rw [List.drop_drop, hlen, Nat.add_assoc]
        refine EndsText.tail (c := 62) ((endsText_of_validUtf8 h).suffix ?_) (by decide)
        refine List.IsSuffix.trans ⟨(s.drop 4).take i ++ [45, 45], ?_⟩ (List.drop_suffix 4 s)
        rw [hdrop]
        nth_rewrite 3 [hcut]
        rw [hgt]
        simp
    · exact validUtf8_nil
  · exact ⟨by simp, h.afterByte (by decide)⟩
  · refine ⟨by simp, ValidUtf8.afterByte (ValidUtf8.dropWhile ?_ hname) (by decide)⟩
    obtain ⟨t, hs, ht⟩ := hbehind h1
    rw [hs] at h4 ⊢
    obtain ⟨u, hu⟩ : ∃ u, t = 47 :: u := List.head?_eq_some_iff.mp h4
    rw [hu] at ht ⊢
    exact (validUtf8_cons (by decide)).mp ht
  · obtain ⟨t, hs, ht⟩ := hbehind h1
    rw [hs]
    exact ⟨by simp, ht⟩
  · have hends : EndsText ((s.drop 1).dropWhile isNameChar) :=
      (endsText_of_validUtf8 h).suffix ((List.dropWhile_suffix _).trans (List.drop_suffix _ _))
    exact ⟨validUtf8_attrRuns hends, validUtf8_parseAttrs hends⟩

/-- What the reader decodes is UTF-8 where the source is. -/
theorem validUtf8_readRuns (h : ValidUtf8 s) : ∀ run ∈ readRuns s, ValidUtf8 run := by
  fun_induction readRuns s with
  | case1 => simp
  | case2 s hs ih =>
    obtain ⟨hruns, hrest⟩ := validUtf8_stepRuns h
    exact List.forall_mem_append.mpr ⟨hruns, ih hrest⟩

/-- **The texts and attribute values of a deck are UTF-8** exactly when none of them has a reference
to a surrogate. -/
theorem all_validUtf8_iff (h : ValidUtf8 s) :
    (parseWml s).All ValidUtf8 ↔ ∀ run ∈ readRuns s, ¬ HasSurrogate run := by
  rw [all_parseWml_iff]
  refine forall₂_congr fun run hrun => ?_
  have hdecode := validUtf8_decodeEntities_iff (p := []) (validUtf8_readRuns h run hrun)
  rwa [List.nil_append] at hdecode

/-- A deck in Latin-1 is UTF-8 once it is converted. -/
theorem validUtf8_latin1ToUtf8 (s : Bytes) : ValidUtf8 (latin1ToUtf8 s) := by
  induction s with
  | nil => exact validUtf8_nil
  | cons c s ih =>
    have hc := c.toNat_lt
    have hchar : ¬ IsSurrogate c.toNat := by
      rw [IsSurrogate]
      omega
    rw [latin1ToUtf8, List.flatMap_cons, utf8_eq (by omega) hchar]
    exact (validUtf8_char _).append ih

end BoatRudder.Wml
