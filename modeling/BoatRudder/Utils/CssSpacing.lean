import BoatRudder.Utils.CssStrip

/-! # White space around a colon

The features found in a text in which a name, a colon and a value stand with white space between them,
against those found without it. A needle that holds neither blanks nor a colon is found in front of the
colon or behind it; the others say how they want their colon written. -/

namespace BoatRudder.Utils

open Css

/-! ## Occurrences -/

variable {α : Type} {b c : UInt8}

/-- The loop over the occurrences. -/
theorem anyOccurrence_iff {ok : Bytes → Bytes → Bool} {needle text : Bytes} :
    anyOccurrence ok needle text = true ↔
      ∃ a b, text = a ++ needle ++ b ∧ ok a b = true := by
  simp only [anyOccurrence, List.any_eq_true, List.mem_range, Bool.and_eq_true]
  constructor
  · rintro ⟨i, -, hpre, hok⟩
    obtain ⟨t, ht⟩ := List.isPrefixOf_iff_prefix.mp hpre
    have hdrop : text.drop (i + needle.length) = t := by
      rw [← List.drop_drop, ← ht, List.drop_left]
    refine ⟨_, _, ?_, hok⟩
    rw [hdrop, List.append_assoc, ht, List.take_append_drop]
  · rintro ⟨a, b, rfl, hok⟩
    refine ⟨a.length, by simp only [List.length_append]; omega, ?_, ?_⟩
    · rw [List.append_assoc, List.drop_left]
      exact List.isPrefixOf_iff_prefix.mpr (List.prefix_append needle b)
    · rw [List.append_assoc, List.take_left, ← List.drop_drop, List.drop_left, List.drop_left]
      exact hok

/-- **What shares no byte with what parts two texts stands in one of them.** -/
theorem append_parted {m sep l r a b : List α} (hm : m ≠ []) (hsep : sep ≠ [])
    (h : ∀ c ∈ sep, c ∉ m) (heq : l ++ (sep ++ r) = a ++ (m ++ b)) :
    (∃ b', l = a ++ m ++ b' ∧ b = b' ++ (sep ++ r)) ∨
      ∃ a', r = a' ++ m ++ b ∧ a = l ++ sep ++ a' := by
  obtain ⟨c, m', rfl⟩ := List.exists_cons_of_ne_nil hm
  rcases List.append_eq_append_iff.mp heq with ⟨d, rfl, hd⟩ | ⟨d, rfl, hd⟩
  · rcases List.append_eq_append_iff.mp hd with ⟨e, rfl, rfl⟩ | ⟨e, rfl, he⟩
    · exact Or.inr ⟨e, by simp, by simp⟩
    · cases e with
      | nil => exact Or.inr ⟨[], by simpa using he.symm, by simp⟩
      | cons x e =>
        obtain ⟨rfl, -⟩ := List.cons.inj he
        exact absurd (List.mem_cons_self ..) (h c (by simp))
  · rcases List.append_eq_append_iff.mp hd with ⟨e, rfl, rfl⟩ | ⟨e, hme, he⟩
    · exact Or.inl ⟨e, by simp, rfl⟩
    · cases e with
      | nil =>
        rw [List.append_nil] at hme
        exact Or.inl ⟨[], by simp [hme], by simpa using he.symm⟩
      | cons x e =>
        -- the first byte of what parts them would be in the needle
        obtain ⟨y, sep, rfl⟩ := List.exists_cons_of_ne_nil hsep
        obtain ⟨rfl, -⟩ := List.cons.inj he
        exact absurd (by rw [hme]; simp) (h y (List.mem_cons_self ..))

/-- The bytes of what parts them do not occur in the needle: it stands in the one or in the other. -/
theorem infix_parted_iff {m sep l r : List α} (hm : m ≠ []) (hsep : sep ≠ [])
    (h : ∀ c ∈ sep, c ∉ m) : m <:+: l ++ (sep ++ r) ↔ m <:+: l ∨ m <:+: r := by
  constructor
  · rintro ⟨a, b, heq⟩
    rw [List.append_assoc] at heq
    rcases append_parted hm hsep h heq.symm with ⟨b', rfl, -⟩ | ⟨a', rfl, -⟩
    · exact Or.inl ⟨a, b', rfl⟩
    · exact Or.inr ⟨a', b, rfl⟩
  · rintro (hin | hin)
    · exact hin.trans (List.prefix_append l _).isInfix
    · exact hin.trans ((List.suffix_append sep r).trans (List.suffix_append l _)).isInfix

/-- A needle with one colon stands in front of a colon, behind it, or over it. -/
theorem infix_colon_iff {x y p q : List α} {c : α} (hp : c ∉ p) (hq : c ∉ q) :
    p ++ c :: q <:+: x ++ c :: y ↔ p ++ c :: q <:+: x ∨ p ++ c :: q <:+: y ∨ (p <:+ x ∧ q <+: y) := by
  constructor
  · rintro ⟨a, b, heq⟩
    have heq : (a ++ p) ++ c :: (q ++ b) = x ++ c :: y := by simpa using heq
    rcases List.append_eq_append_iff.mp heq with ⟨d, rfl, hd⟩ | ⟨d, hap, hd⟩
    · cases d with
      | nil =>
        obtain ⟨-, hqb⟩ := List.cons.inj hd
        exact Or.inr (Or.inr ⟨⟨a, by simp⟩, ⟨b, hqb⟩⟩)
      | cons e d =>
        -- all of it stands in front, since the rest of it holds no colon
        obtain ⟨rfl, hqb⟩ := List.cons.inj hd
        rcases List.append_eq_append_iff.mp hqb with ⟨z, rfl, -⟩ | ⟨z, rfl, hz⟩
        · exact Or.inl ⟨a, z, by simp⟩
        · cases z with
          | nil => exact Or.inl ⟨a, [], by simp⟩
          | cons w z =>
            obtain ⟨rfl, -⟩ := List.cons.inj hz
            exact absurd (by simp) hq
    · cases d with
      | nil =>
        obtain ⟨-, hqb⟩ := List.cons.inj hd
        rw [List.append_nil] at hap
        exact Or.inr (Or.inr ⟨⟨a, hap⟩, ⟨b, hqb.symm⟩⟩)
      | cons e d =>
        obtain ⟨rfl, rfl⟩ := List.cons.inj hd
        rcases List.append_eq_append_iff.mp hap with ⟨z, -, hz⟩ | ⟨z, -, hz⟩
        · exact absurd (by rw [hz]; simp) hp
        · cases z with
          | nil =>
            rw [List.nil_append] at hz
            exact absurd (by rw [← hz]; simp) hp
          | cons w z =>
            obtain ⟨-, rfl⟩ := List.cons.inj hz
            exact Or.inr (Or.inl ⟨z, b, by simp⟩)
  · rintro (hin | hin | ⟨⟨a, rfl⟩, ⟨b, rfl⟩⟩)
    · exact hin.trans (List.prefix_append x _).isInfix
    · exact hin.trans ((List.suffix_cons c y).trans (List.suffix_append x _)).isInfix
    · exact ⟨a, b, by simp⟩

/-! ## A name, a colon and a value -/

/-- A text that ends in a name, and one that may begin with a value, with a colon between them and
white space around that. -/
def spaced (l w₁ w₂ r : Bytes) : Bytes := l ++ w₁ ++ 58 :: (w₂ ++ r)

/-- White space. -/
def Blanks (w : Bytes) : Prop := ∀ b ∈ w, Css.isWhite b = true

/-- The last byte is one of a name. -/
def EndsInName (l : Bytes) : Prop := ∃ x b, l = x ++ [b] ∧ isNameByte b = true

/-- A needle that does not say how a colon is to be written. -/
structure Clean (m : Bytes) : Prop where
  ne_nil : m ≠ []
  bytes : ∀ b ∈ m, Css.isWhite b = false ∧ b ≠ 58

variable {l w₁ w₂ r m : Bytes}

theorem blanks_nil : Blanks [] := by simp [Blanks]

theorem spaced_eq : spaced l w₁ w₂ r = l ++ ((w₁ ++ 58 :: w₂) ++ r) := by simp [spaced]

/-- What parts the name from the value does not occur in such a needle. -/
theorem Clean.not_mem (hm : Clean m) (h₁ : Blanks w₁) (h₂ : Blanks w₂) :
    ∀ c ∈ w₁ ++ 58 :: w₂, c ∉ m := by
  intro c hc hcm
  obtain ⟨hblank, hcolon⟩ := hm.bytes c hcm
  rcases List.mem_append.mp hc with hc | hc
  · rw [h₁ c hc] at hblank
    cases hblank
  · rcases List.mem_cons.mp hc with rfl | hc
    · exact hcolon rfl
    · rw [h₂ c hc] at hblank
      cases hblank

theorem Clean.infix_spaced (hm : Clean m) (h₁ : Blanks w₁) (h₂ : Blanks w₂) :
    m <:+: spaced l w₁ w₂ r ↔ m <:+: l ∨ m <:+: r := by
  rw [spaced_eq]
  exact infix_parted_iff hm.ne_nil (by simp) (hm.not_mem h₁ h₂)

/-- An occurrence with what stands around it: in front of the white space, or behind it. -/
theorem Clean.anyOccurrence_spaced (hm : Clean m) (h₁ : Blanks w₁) (h₂ : Blanks w₂)
    {ok : Bytes → Bytes → Bool} : anyOccurrence ok m (spaced l w₁ w₂ r) = true ↔
      (∃ a b, l = a ++ m ++ b ∧ ok a (spaced b w₁ w₂ r) = true) ∨
        ∃ a b, r = a ++ m ++ b ∧ ok (spaced l w₁ w₂ a) b = true := by
  rw [anyOccurrence_iff]
  constructor
  · rintro ⟨a, b, heq, hok⟩
    rw [spaced_eq, List.append_assoc a m b] at heq
    rcases append_parted hm.ne_nil (by simp) (hm.not_mem h₁ h₂) heq with ⟨b', hl, rfl⟩ | ⟨a', hr, rfl⟩
    · exact Or.inl ⟨a, b', hl, by rw [spaced_eq]; exact hok⟩
    · refine Or.inr ⟨a', b, hr, ?_⟩
      rw [spaced_eq, ← List.append_assoc]
      exact hok
  · rintro (⟨a, b, rfl, hok⟩ | ⟨a, b, rfl, hok⟩)
    · exact ⟨a, spaced b w₁ w₂ r, by simp [spaced], hok⟩
    · exact ⟨spaced l w₁ w₂ a, b, by simp [spaced], hok⟩

/-! ## What a matcher sees of it -/

theorem isIdentChar_of_isWhite (h : Css.isWhite b = true) :
    isIdentChar b = false ∧ isDigit b = false := by
  simp only [Css.isWhite, isNewline, Bool.or_eq_true, beq_iff_eq] at h
  rcases h with (rfl | rfl) | (rfl | rfl) | rfl <;> decide

/-- The byte behind an occurrence, as far as it is one of an identifier. -/
theorem head_spaced (h₁ : Blanks w₁) (b : Bytes) :
    (spaced b w₁ w₂ r).head?.any isIdentChar = b.head?.any isIdentChar := by
  cases b with
  | cons c b => rfl
  | nil =>
    cases w₁ with
    | nil => rfl
    | cons c w₁ => exact (isIdentChar_of_isWhite (h₁ c (List.mem_cons_self ..))).1

/-- The byte in front of one. -/
theorem getLast_spaced (h₂ : Blanks w₂) {p : UInt8 → Bool} (hblank : ∀ b, Css.isWhite b = true → p b = false)
    (hcolon : p 58 = false) (a : Bytes) :
    (spaced l w₁ w₂ a).getLast?.any p = a.getLast?.any p := by
  induction a using List.reverseRecOn with
  | nil =>
    induction w₂ using List.reverseRecOn with
    | nil =>
      have hend : spaced l w₁ [] [] = (l ++ w₁) ++ [58] := by simp [spaced]
      rw [hend, List.getLast?_concat]
      simpa using hcolon
    | append_singleton w c _ =>
      have hend : spaced l w₁ (w ++ [c]) [] = (l ++ w₁ ++ 58 :: w) ++ [c] := by simp [spaced]
      rw [hend, List.getLast?_concat]
      simpa using hblank c (h₂ c (by simp))
  | append_singleton a c _ =>
    have hend : spaced l w₁ w₂ (a ++ [c]) = spaced l w₁ w₂ a ++ [c] := by simp [spaced]
    rw [hend, List.getLast?_concat, List.getLast?_concat]

/-- White space is gone over but for a form feed. -/
theorem isSkipped_iff (h : Css.isWhite b = true) : isSkipped b = true ↔ b ≠ 12 := by
  simp only [Css.isWhite, isNewline, Bool.or_eq_true, beq_iff_eq] at h
  rcases h with (rfl | rfl) | (rfl | rfl) | rfl <;> decide

theorem isSkipped_of_isNameByte (h : isNameByte b = true) : isSkipped b = false := by
  rw [Bool.eq_false_iff]
  intro hskip
  simp only [isSkipped, Bool.or_eq_true, beq_iff_eq] at hskip
  rcases hskip with ((rfl | rfl) | rfl) | rfl <;> revert h <;> decide

/-- The colon behind the end of a name is found, unless a form feed stands before it. -/
theorem colon_spaced_nil (h₁ : Blanks w₁) :
    ((spaced [] w₁ w₂ r).dropWhile isSkipped).head? = some 58 ↔ 12 ∉ w₁ := by
  rw [spaced, List.nil_append]
  induction w₁ with
  | nil => simp [isSkipped]
  | cons c w₁ ih =>
    have hc := isSkipped_iff (h₁ c (List.mem_cons_self ..))
    rw [List.cons_append, List.mem_cons, not_or]
    by_cases h12 : c = 12
    · subst h12
      simp [isSkipped]
    · rw [List.dropWhile_cons_of_pos (hc.mpr h12), ih fun b hb => h₁ b (List.mem_cons_of_mem c hb)]
      exact ⟨fun h => ⟨Ne.symm h12, h⟩, fun h => h.2⟩

/-- The byte behind an occurrence inside the name does not depend on the white space. -/
theorem colon_spaced {b : Bytes} (hb : EndsInName b) :
    ((spaced b w₁ w₂ r).dropWhile isSkipped).head? = (b.dropWhile isSkipped).head? := by
  obtain ⟨x, c, rfl, hc⟩ := hb
  have hskip := isSkipped_of_isNameByte hc
  rw [spaced]
  induction x with
  | nil => simp [hskip]
  | cons d x ih =>
    by_cases hd : isSkipped d = true
    · simp only [List.cons_append, List.dropWhile_cons_of_pos hd] at ih ⊢
      exact ih
    · simp [hd]

/-- No declaration begins behind the colon, and whether one does further on is told there. -/
theorem startsDeclaration_spaced (h₂ : Blanks w₂) (a : Bytes) :
    startsDeclaration (spaced l w₁ w₂ a) = (!a.all isSkipped && startsDeclaration a) := by
  have hcolon : startsDeclaration (l ++ w₁ ++ [58]) = false := by
    simp [startsDeclaration, isSkipped]
  -- behind the colon blanks are gone over, up to a form feed
  have hblanks : startsDeclaration (l ++ w₁ ++ 58 :: w₂) = false := by
    induction w₂ using List.reverseRecOn with
    | nil => exact hcolon
    | append_singleton w c ih =>
      have ih := ih fun b hb => h₂ b (List.mem_append_left _ hb)
      by_cases hc : isSkipped c = true
      · rw [← ih]
        simp [startsDeclaration, hc]
      · have h12 : c = 12 := by
          by_contra hne
          exact hc ((isSkipped_iff (h₂ c (by simp))).mpr hne)
        subst h12
        simp [startsDeclaration, isSkipped]
  induction a using List.reverseRecOn with
  | nil => simpa [spaced] using hblanks
  | append_singleton a c ih =>
    by_cases hc : isSkipped c = true
    · have hstep : startsDeclaration (spaced l w₁ w₂ (a ++ [c])) =
          startsDeclaration (spaced l w₁ w₂ a) := by
        simp [startsDeclaration, spaced, hc]
      rw [hstep, ih]
      simp [startsDeclaration, hc]
    · simp [startsDeclaration, spaced, hc]

/-! ## Needles without a colon -/

theorem EndsInName.of_append {x b : Bytes} (h : EndsInName (x ++ b)) (hne : b ≠ []) :
    EndsInName b := by
  obtain ⟨y, c, heq, hc⟩ := h
  induction b using List.reverseRecOn with
  | nil => exact absurd rfl hne
  | append_singleton b d _ =>
    rw [← List.append_assoc] at heq
    obtain ⟨-, hd⟩ := List.append_inj' heq rfl
    obtain rfl : d = c := (List.cons.inj hd).1
    exact ⟨b, d, rfl, hc⟩

theorem isSome_findSub_iff {pat s : Bytes} : (findSub pat s).isSome = true ↔ pat <:+: s := by
  rw [← not_iff_not, ← findSub_eq_none_iff]
  cases findSub pat s <;> simp

/-- A text ends in a property's name, where a declaration may begin with it. -/
def EndsDeclared (name l : Bytes) : Prop := ∃ a, l = a ++ name ∧ startsDeclaration a = true

/-- A property is found with white space in front of its colon, unless there is a form feed in it. -/
theorem Clean.hasProperty_spaced (hm : Clean m) (h₁ : Blanks w₁) (h₂ : Blanks w₂)
    (hl : EndsInName l) : hasProperty (spaced l w₁ w₂ r) m = true ↔
      (EndsDeclared m l ∧ 12 ∉ w₁) ∨
        (∃ a b, l = a ++ m ++ b ∧ b ≠ [] ∧ b.head?.any isIdentChar = false ∧
          (b.dropWhile isSkipped).head? = some 58 ∧ startsDeclaration a = true) ∨
        ∃ a b, r = a ++ m ++ b ∧ b.head?.any isIdentChar = false ∧
          (b.dropWhile isSkipped).head? = some 58 ∧ a.all isSkipped = false ∧
          startsDeclaration a = true := by
  have hcolon : ∀ b, (∃ x, l = x ++ b) → b ≠ [] →
      ((spaced b w₁ w₂ r).dropWhile isSkipped).head? = (b.dropWhile isSkipped).head? := by
    rintro b ⟨x, rfl⟩ hb
    exact colon_spaced (hl.of_append hb)
  rw [hasProperty, hm.anyOccurrence_spaced h₁ h₂]
  simp only [Bool.and_eq_true, Bool.not_eq_true', beq_iff_eq, head_spaced h₁,
    startsDeclaration_spaced h₂, and_assoc]
  constructor
  · rintro (⟨a, b, rfl, hident, hnext, hstart⟩ | h)
    · by_cases hb : b = []
      · subst hb
        refine Or.inl ⟨⟨a, by simp, hstart⟩, (colon_spaced_nil h₁).mp hnext⟩
      · rw [hcolon b ⟨_, rfl⟩ hb] at hnext
        exact Or.inr (Or.inl ⟨a, b, rfl, hb, hident, hnext, hstart⟩)
    · exact Or.inr (Or.inr h)
  · rintro (⟨⟨a, rfl, hstart⟩, h12⟩ | ⟨a, b, rfl, hb, hident, hnext, hstart⟩ | h)
    · exact Or.inl ⟨a, [], by simp, rfl, (colon_spaced_nil h₁).mpr h12, hstart⟩
    · refine Or.inl ⟨a, b, rfl, hident, ?_, hstart⟩
      rw [hcolon b ⟨_, rfl⟩ hb]
      exact hnext
    · exact Or.inr h

/-- **A needle without a colon is found whatever the white space is**, a property's name if there is no
form feed behind it. -/
theorem Clean.found_spaced (hm : Clean m) (h₁ : Blanks w₁) (h₂ : Blanks w₂) (hl : EndsInName l)
    {kind : MatchKind} (hkind : kind = .property → EndsDeclared m l → 12 ∉ w₁) :
    kind.found (spaced l w₁ w₂ r) m = kind.found (spaced l [] [] r) m := by
  have hident : ∀ b, Css.isWhite b = true → isIdentChar b = false :=
    fun b hb => (isIdentChar_of_isWhite hb).1
  have hdigit : ∀ b, Css.isWhite b = true → isDigit b = false :=
    fun b hb => (isIdentChar_of_isWhite hb).2
  rw [Bool.eq_iff_iff]
  cases kind with
  | text =>
    rw [MatchKind.found, MatchKind.found, isSome_findSub_iff, isSome_findSub_iff,
      hm.infix_spaced h₁ h₂, hm.infix_spaced blanks_nil blanks_nil]
  | nesting =>
    rw [MatchKind.found, MatchKind.found, isSome_findSub_iff, isSome_findSub_iff,
      hm.infix_spaced h₁ h₂, hm.infix_spaced blanks_nil blanks_nil]
  | property =>
    rw [MatchKind.found, MatchKind.found, hm.hasProperty_spaced h₁ h₂ hl,
      hm.hasProperty_spaced blanks_nil blanks_nil hl]
    refine or_congr_left (and_congr_right fun hends => ?_)
    exact iff_of_true (hkind rfl hends) List.not_mem_nil
  | unit =>
    rw [MatchKind.found, MatchKind.found, hasUnit, hasUnit, hm.anyOccurrence_spaced h₁ h₂,
      hm.anyOccurrence_spaced blanks_nil blanks_nil]
    simp only [head_spaced h₁, head_spaced blanks_nil, getLast_spaced h₂ hdigit rfl,
      getLast_spaced blanks_nil hdigit rfl]
  | word =>
    rw [MatchKind.found, MatchKind.found, hasWord, hasWord, hm.anyOccurrence_spaced h₁ h₂,
      hm.anyOccurrence_spaced blanks_nil blanks_nil]
    simp only [head_spaced h₁, head_spaced blanks_nil, getLast_spaced h₂ hident rfl,
      getLast_spaced blanks_nil hident rfl]

/-! ## Needles with one -/

/-- Nothing that ends otherwise stands in the white space behind a text. -/
theorem infix_append_blanks (h : Blanks w₁) (hc : Css.isWhite c = false) :
    m ++ [c] <:+: l ++ w₁ ↔ m ++ [c] <:+: l := by
  induction w₁ using List.reverseRecOn with
  | nil => rw [List.append_nil]
  | append_singleton w b ih =>
    have hb := h b (by simp)
    rw [← List.append_assoc, List.infix_concat_iff, ih fun d hd => h d (List.mem_append_left _ hd)]
    refine or_iff_right ?_
    rintro ⟨x, hx⟩
    rw [← List.append_assoc] at hx
    obtain ⟨-, hlast⟩ := List.append_inj' hx rfl
    rw [(List.cons.inj hlast).1, hb] at hc
    cases hc

/-- Nor in the white space in front of one, what begins otherwise. -/
theorem infix_blanks_append (h : Blanks w₂) (hc : Css.isWhite c = false) :
    c :: m <:+: w₂ ++ r ↔ c :: m <:+: r := by
  induction w₂ with
  | nil => rw [List.nil_append]
  | cons b w ih =>
    have hb := h b (List.mem_cons_self ..)
    rw [List.cons_append, List.infix_cons_iff, ih fun d hd => h d (List.mem_cons_of_mem b hd)]
    refine or_iff_right ?_
    rintro ⟨x, hx⟩
    rw [(List.cons.inj hx).1, hb] at hc
    cases hc

/-- What ends otherwise is an end of the text only without white space. -/
theorem suffix_append_blanks (h : Blanks w₁) (hc : Css.isWhite c = false) :
    m ++ [c] <:+ l ++ w₁ ↔ w₁ = [] ∧ m ++ [c] <:+ l := by
  induction w₁ using List.reverseRecOn with
  | nil => simp
  | append_singleton w b _ =>
    refine iff_of_false ?_ fun hnil => absurd hnil.1 (by simp)
    rintro ⟨x, hx⟩
    rw [← List.append_assoc, ← List.append_assoc] at hx
    obtain ⟨-, hlast⟩ := List.append_inj' hx rfl
    rw [(List.cons.inj hlast).1, h b (by simp)] at hc
    cases hc

theorem prefix_blanks_append (h : Blanks w₂) (hc : Css.isWhite c = false) :
    c :: m <+: w₂ ++ r ↔ w₂ = [] ∧ c :: m <+: r := by
  cases w₂ with
  | nil => simp
  | cons b w =>
    refine iff_of_false ?_ fun hnil => absurd hnil.1 (by simp)
    rintro ⟨x, hx⟩
    rw [(List.cons.inj hx).1, h b (List.mem_cons_self ..)] at hc
    cases hc

/-- A blank at the end of it is the white space behind the text. -/
theorem suffix_append_blanks_concat (h : Blanks w₁) (hl : EndsInName l)
    (hc : Css.isWhite c = false) : m ++ [c] ++ [32] <:+ l ++ w₁ ↔ w₁ = [32] ∧ m ++ [c] <:+ l := by
  induction w₁ using List.reverseRecOn with
  | nil =>
    refine iff_of_false ?_ fun hnil => absurd hnil.1 (by simp)
    obtain ⟨y, d, rfl, hd⟩ := hl
    rintro ⟨x, hx⟩
    rw [List.append_nil, ← List.append_assoc] at hx
    obtain ⟨-, hlast⟩ := List.append_inj' hx rfl
    rw [← (List.cons.inj hlast).1] at hd
    revert hd
    decide
  | append_singleton w b _ =>
    have hw : Blanks w := fun d hd => h d (List.mem_append_left _ hd)
    constructor
    · rintro ⟨x, hx⟩
      rw [← List.append_assoc, ← List.append_assoc l] at hx
      obtain ⟨hinit, hlast⟩ := List.append_inj' hx rfl
      obtain ⟨rfl, hsuf⟩ := (suffix_append_blanks hw hc).mp ⟨x, hinit⟩
      exact ⟨by rw [← (List.cons.inj hlast).1]; rfl, hsuf⟩
    · rintro ⟨heq, x, rfl⟩
      rw [heq]
      exact ⟨x, by simp⟩

theorem prefix_blanks_append_cons (h : Blanks w₂) (hc : Css.isWhite c = false) :
    32 :: c :: m <+: w₂ ++ r ↔ (w₂ = [] ∧ 32 :: c :: m <+: r) ∨ (w₂ = [32] ∧ c :: m <+: r) := by
  cases w₂ with
  | nil => simp
  | cons b w =>
    have hw : Blanks w := fun d hd => h d (List.mem_cons_of_mem b hd)
    rw [List.cons_append, List.cons_prefix_cons, prefix_blanks_append hw hc]
    constructor
    · rintro ⟨rfl, rfl, hpre⟩
      exact Or.inr ⟨rfl, hpre⟩
    · rintro (⟨hnil, -⟩ | ⟨heq, hpre⟩)
      · cases hnil
      · obtain ⟨rfl, rfl⟩ := List.cons.inj heq
        exact ⟨rfl, rfl, hpre⟩

end BoatRudder.Utils
