import BoatRudder.Text.Bytes
import Mathlib.Data.Nat.Bitwise

/-! # UTF-8

Texts in UTF-8: the encodings of Unicode scalar values one after another, so that there is no
surrogate in them, no overlong form and nothing above U+10FFFF. Such a text is cut into two wherever
the byte behind the cut does not continue a character, at any ASCII byte in particular. -/

namespace BoatRudder

variable {s t : Bytes} {b : UInt8} {n : ℕ}

/-- The bytes encode a list of scalar values. -/
def ValidUtf8 (s : Bytes) : Prop := ∃ cs : List Char, s = cs.flatMap String.utf8EncodeChar

/-- A byte behind the first of a character. -/
def continues (b : UInt8) : Bool := 0x80 ≤ b && b < 0xC0

/-- A byte of ASCII. -/
def isAscii (b : UInt8) : Bool := b < 0x80

/-- White space is ASCII. -/
theorem isAscii_of_isSpace {b : UInt8} (h : isSpace b = true) : isAscii b = true := by
  simp only [isSpace, Bool.or_eq_true, Bool.and_eq_true, decide_eq_true_eq, beq_iff_eq] at h
  simp only [isAscii, decide_eq_true_eq]
  grind

/-- The test for such a byte by its upper bits. -/
theorem continues_eq_and (b : UInt8) : (b &&& 0xC0 == 0x80) = continues b := by
  revert b
  decide +kernel

/-- An ASCII byte continues no character. -/
theorem continues_of_isAscii (h : isAscii b = true) : continues b = false := by
  simp only [isAscii, decide_eq_true_eq, UInt8.lt_iff_toNat_lt] at h
  simp only [continues, Bool.and_eq_false_iff, decide_eq_false_iff_not, UInt8.le_iff_toNat_le]
  left
  have h80 : (0x80 : UInt8).toNat = 128 := rfl
  omega

/-! ## Characters -/

/-- The bytes of a character, by how many they are. -/
theorem utf8EncodeChar_cases (c : Char) :
    (c.toNat ≤ 0x7F ∧ String.utf8EncodeChar c = [UInt8.ofNat c.toNat]) ∨
    (0x7F < c.toNat ∧ c.toNat ≤ 0x7FF ∧ String.utf8EncodeChar c =
      [UInt8.ofNat (c.toNat / 64 % 0x20 + 0xC0), UInt8.ofNat (c.toNat % 0x40 + 0x80)]) ∨
    (0x7FF < c.toNat ∧ c.toNat ≤ 0xFFFF ∧ String.utf8EncodeChar c =
      [UInt8.ofNat (c.toNat / 4096 % 0x10 + 0xE0), UInt8.ofNat (c.toNat / 64 % 0x40 + 0x80),
        UInt8.ofNat (c.toNat % 0x40 + 0x80)]) ∨
    (0xFFFF < c.toNat ∧ String.utf8EncodeChar c =
      [UInt8.ofNat (c.toNat / 262144 % 0x08 + 0xF0), UInt8.ofNat (c.toNat / 4096 % 0x40 + 0x80),
        UInt8.ofNat (c.toNat / 64 % 0x40 + 0x80), UInt8.ofNat (c.toNat % 0x40 + 0x80)]) := by
  have hval : c.val.toNat = c.toNat := rfl
  unfold String.utf8EncodeChar
  simp only [hval]
  split_ifs with h1 h2 h3
  · exact Or.inl ⟨h1, rfl⟩
  · exact Or.inr (Or.inl ⟨by omega, h2, rfl⟩)
  · exact Or.inr (Or.inr (Or.inl ⟨by omega, h3, rfl⟩))
  · exact Or.inr (Or.inr (Or.inr ⟨by omega, rfl⟩))

theorem toNat_ofNat_of_lt (h : n < 256) : (UInt8.ofNat n).toNat = n := by
  rw [UInt8.toNat_ofNat', Nat.mod_eq_of_lt h]

theorem toNat_charOfNat (h : n.isValidChar) : (Char.ofNat n).toNat = n := by
  rw [Char.ofNat, dif_pos h]
  rfl

theorem continues_ofNat (n : ℕ) : continues (UInt8.ofNat (n % 0x40 + 0x80)) = true := by
  have hlt : n % 0x40 < 0x40 := Nat.mod_lt _ (by decide)
  have h80 : (0x80 : UInt8).toNat = 128 := rfl
  have hC0 : (0xC0 : UInt8).toNat = 192 := rfl
  simp only [continues, Bool.and_eq_true, decide_eq_true_eq, UInt8.le_iff_toNat_le,
    UInt8.lt_iff_toNat_lt, toNat_ofNat_of_lt (show n % 0x40 + 0x80 < 256 by omega)]
  omega

theorem not_continues_ofNat (h : n < 0x80 ∨ 0xC0 ≤ n ∧ n < 256) :
    continues (UInt8.ofNat n) = false := by
  have h80 : (0x80 : UInt8).toNat = 128 := rfl
  have hC0 : (0xC0 : UInt8).toNat = 192 := rfl
  simp only [continues, Bool.and_eq_false_iff, decide_eq_false_iff_not, UInt8.le_iff_toNat_le,
    UInt8.lt_iff_toNat_lt, toNat_ofNat_of_lt (show n < 256 by omega)]
  omega

/-- **A character is a byte that starts it and bytes that continue it.** -/
theorem utf8EncodeChar_eq_cons (c : Char) :
    ∃ b t, String.utf8EncodeChar c = b :: t ∧ continues b = false ∧
      ∀ d ∈ t, continues d = true := by
  rcases utf8EncodeChar_cases c with ⟨h, heq⟩ | ⟨-, h, heq⟩ | ⟨-, h, heq⟩ | ⟨-, heq⟩
  · exact ⟨_, _, heq, not_continues_ofNat (by omega), by simp⟩
  all_goals
    refine ⟨_, _, heq, not_continues_ofNat (by omega), ?_⟩
    simp only [List.mem_cons, List.not_mem_nil, or_false, forall_eq_or_imp, forall_eq,
      continues_ofNat, and_self]

/-! ## Texts -/

@[simp] theorem validUtf8_nil : ValidUtf8 [] := ⟨[], rfl⟩

/-- Two texts make a text. -/
theorem ValidUtf8.append (hs : ValidUtf8 s) (ht : ValidUtf8 t) : ValidUtf8 (s ++ t) := by
  obtain ⟨cs, rfl⟩ := hs
  obtain ⟨ds, rfl⟩ := ht
  exact ⟨cs ++ ds, List.flatMap_append.symm⟩

/-- A character is a text. -/
theorem validUtf8_char (c : Char) : ValidUtf8 (String.utf8EncodeChar c) := ⟨[c], by simp⟩

theorem validUtf8_singleton (h : isAscii b = true) : ValidUtf8 [b] := by
  have hlt : b.toNat < 128 := by simpa [isAscii, UInt8.lt_iff_toNat_lt] using h
  refine ⟨[Char.ofNat b.toNat], ?_⟩
  have hnat : (Char.ofNat b.toNat).toNat = b.toNat := by
    exact toNat_charOfNat (Or.inl (by omega))
  rcases utf8EncodeChar_cases (Char.ofNat b.toNat) with ⟨-, heq⟩ | ⟨h1, -⟩ | ⟨h1, -⟩ | ⟨h1, -⟩
  · rw [List.flatMap_singleton, heq, hnat, UInt8.ofNat_toNat]
  all_goals omega

/-- ASCII is UTF-8. -/
theorem validUtf8_of_ascii (h : ∀ b ∈ s, isAscii b = true) : ValidUtf8 s := by
  induction s with
  | nil => exact validUtf8_nil
  | cons b s ih =>
    obtain ⟨hb, hs⟩ := List.forall_mem_cons.mp h
    exact (validUtf8_singleton hb).append (ih hs)

/-- **A text is cut in front of a byte that continues no character**, and at its end. -/
theorem ValidUtf8.cut (h : ValidUtf8 (s ++ t))
    (ht : ∀ b ∈ t.head?, continues b = false) : ValidUtf8 s ∧ ValidUtf8 t := by
  obtain ⟨cs, heq⟩ := h
  induction cs generalizing s with
  | nil =>
    obtain ⟨rfl, rfl⟩ := List.append_eq_nil_iff.mp heq
    exact ⟨validUtf8_nil, validUtf8_nil⟩
  | cons c cs ih =>
    rw [List.flatMap_cons] at heq
    rcases List.append_eq_append_iff.mp heq with ⟨z, hchar, hz⟩ | ⟨z, rfl, hz⟩
    · -- the cut is in the first character, so in front of it or behind
      obtain ⟨b, u, hcons, -, hu⟩ := utf8EncodeChar_eq_cons c
      cases z with
      | nil =>
        rw [List.append_nil] at hchar
        rw [List.nil_append] at hz
        exact ⟨hchar ▸ validUtf8_char c, ⟨cs, hz⟩⟩
      | cons d z =>
        cases s with
        | nil => exact ⟨validUtf8_nil, ⟨c :: cs, heq⟩⟩
        | cons e s =>
          rw [hcons, List.cons_append, List.cons.injEq] at hchar
          have hd : continues d = true := hu d (by rw [hchar.2]; simp)
          rw [ht d (by rw [hz]; rfl)] at hd
          cases hd
    · obtain ⟨hz', ht'⟩ := ih hz.symm
      exact ⟨(validUtf8_char c).append hz', ht'⟩

/-- At an ASCII byte a text is cut on both sides. -/
theorem validUtf8_append_cons (hb : isAscii b = true) :
    ValidUtf8 (s ++ b :: t) ↔ ValidUtf8 s ∧ ValidUtf8 t := by
  constructor
  · intro h
    obtain ⟨hs, ht⟩ := h.cut (by simpa using continues_of_isAscii hb)
    refine ⟨hs, ?_⟩
    obtain ⟨cs, heq⟩ := ht
    cases cs with
    | nil => cases heq
    | cons c cs =>
      rw [List.flatMap_cons] at heq
      rcases utf8EncodeChar_cases c with ⟨-, hc⟩ | ⟨h1, h2, hc⟩ | ⟨h1, h2, hc⟩ | ⟨h1, hc⟩
      · rw [hc] at heq
        exact ⟨cs, (List.cons.inj heq).2⟩
      all_goals
        rw [hc] at heq
        have hhead := (List.cons.inj heq).1
        have hlt : b.toNat < 128 := by simpa [isAscii, UInt8.lt_iff_toNat_lt] using hb
        rw [hhead, toNat_ofNat_of_lt (by omega)] at hlt
        omega
  · rintro ⟨hs, ht⟩
    exact hs.append ((validUtf8_singleton hb).append ht)

/-- An ASCII byte in front of a text makes no difference. -/
theorem validUtf8_cons (hb : isAscii b = true) : ValidUtf8 (b :: t) ↔ ValidUtf8 t := by
  have h := validUtf8_append_cons (s := []) (t := t) hb
  rw [List.nil_append] at h
  exact h.trans (and_iff_right validUtf8_nil)

/-- What stands behind a run. -/
theorem drop_length_takeWhile (p : UInt8 → Bool) (s : Bytes) :
    s.drop (s.takeWhile p).length = s.dropWhile p :=
  calc s.drop (s.takeWhile p).length
      = (s.takeWhile p ++ s.dropWhile p).drop (s.takeWhile p).length := by
        rw [List.takeWhile_append_dropWhile]
    _ = s.dropWhile p := List.drop_left

/-- A run that ends at an ASCII byte, and the rest from there. -/
theorem ValidUtf8.span {p : UInt8 → Bool} (h : ValidUtf8 s)
    (hp : ∀ b, p b = false → isAscii b = true) :
    ValidUtf8 (s.takeWhile p) ∧ ValidUtf8 (s.dropWhile p) := by
  refine ValidUtf8.cut (by rwa [List.takeWhile_append_dropWhile]) fun b hb => ?_
  refine continues_of_isAscii (hp b ?_)
  have hnot := List.head?_dropWhile_not p s
  rw [Option.mem_def.mp hb] at hnot
  simpa using hnot

/-- What stands behind a run of ASCII bytes. -/
theorem ValidUtf8.dropWhile {p : UInt8 → Bool} (h : ValidUtf8 s)
    (hp : ∀ b, p b = true → isAscii b = true) : ValidUtf8 (s.dropWhile p) := by
  induction s with
  | nil => exact h
  | cons b s ih =>
    rw [List.dropWhile_cons]
    split_ifs with hb
    · exact ih ((validUtf8_cons (hp b hb)).mp h)
    · exact h

/-- What stands behind the first `c`, an ASCII byte. -/
theorem ValidUtf8.afterByte {c : UInt8} (h : ValidUtf8 s) (hc : isAscii c = true) :
    ValidUtf8 (afterByte c s) := by
  have hspan := (h.span (p := (· ≠ c)) fun b hb => by
    obtain rfl : b = c := by simpa using hb
    exact hc).2
  rw [BoatRudder.afterByte]
  cases hrest : s.dropWhile (· ≠ c) with
  | nil => exact validUtf8_nil
  | cons b t =>
    have hb : b = c := by
      have hnot := List.head?_dropWhile_not (· ≠ c) s
      rw [hrest] at hnot
      simpa using hnot
    rw [hrest, hb, validUtf8_cons hc] at hspan
    exact hspan

/-! ## Surrogates -/

/-- A character that starts with `ED` goes on below `A0`. -/
theorem lt_of_utf8EncodeChar_eq {c : Char} {z : Bytes} (h : String.utf8EncodeChar c = 0xED :: z) :
    ∃ x y, z = [x, y] ∧ x < 0xA0 := by
  have hED : (0xED : UInt8).toNat = 237 := rfl
  have hA0 : (0xA0 : UInt8).toNat = 160 := rfl
  have hvalid : c.toNat < 0xD800 ∨ 0xDFFF < c.toNat ∧ c.toNat < 0x110000 := c.valid
  have hfirst {n : ℕ} {t : Bytes} (hn : n < 256)
      (heq : String.utf8EncodeChar c = UInt8.ofNat n :: t) : n = 237 ∧ z = t := by
    rw [h, List.cons.injEq] at heq
    rw [← hED, heq.1, toNat_ofNat_of_lt hn]
    exact ⟨rfl, heq.2⟩
  rcases utf8EncodeChar_cases c with ⟨h1, heq⟩ | ⟨-, h1, heq⟩ | ⟨-, h1, heq⟩ | ⟨h1, heq⟩
  · have := (hfirst (by omega) heq).1
    omega
  · have := (hfirst (by omega) heq).1
    omega
  · obtain ⟨h237, rfl⟩ := hfirst (by omega) heq
    refine ⟨_, _, rfl, ?_⟩
    rw [UInt8.lt_iff_toNat_lt, toNat_ofNat_of_lt (by omega), hA0]
    omega
  · have := (hfirst (by omega) heq).1
    omega

/-- **No surrogate is in a text**: behind a byte `ED` stands none from `A0` on. -/
theorem not_validUtf8_of_surrogate (hb : 0xA0 ≤ b) (s t : Bytes) :
    ¬ ValidUtf8 (s ++ 0xED :: b :: t) := by
  intro h
  have hED : continues 0xED = false := by decide
  obtain ⟨cs, heq⟩ := (h.cut (by simpa using hED)).2
  cases cs with
  | nil => cases heq
  | cons c cs =>
    rw [List.flatMap_cons] at heq
    obtain ⟨e, z, hcons, -, -⟩ := utf8EncodeChar_eq_cons c
    rw [hcons, List.cons_append, List.cons.injEq] at heq
    obtain ⟨x, y, rfl, hx⟩ := lt_of_utf8EncodeChar_eq (heq.1 ▸ hcons)
    have hxb : b = x := (List.cons.inj heq.2).1
    rw [UInt8.le_iff_toNat_le, hxb] at hb
    rw [UInt8.lt_iff_toNat_lt] at hx
    omega

end BoatRudder
