import BoatRudder.Text.Utf8

/-! # Characters in a string of bytes

A string that need not be UTF-8, read for the characters in it. A character and what only looks like
one have the same pattern: a byte that says how many follow, and that many bytes that continue. The
patterns of a string do not overlap, so a string is read from the front, pattern by pattern or, where
none begins, byte by byte (`pattern_induction`). -/

namespace BoatRudder

variable {s t x y : Bytes} {b : UInt8}

/-- How many bytes continue a character that begins with `b`; none begins with a byte that continues or
from `F8` on. -/
def trailCount (b : UInt8) : Option ℕ :=
  if b < 0x80 then some 0
  else if b < 0xC0 then none
  else if b < 0xE0 then some 1
  else if b < 0xF0 then some 2
  else if b < 0xF8 then some 3
  else none

/-- The pattern of a character: a first byte and as many bytes that continue it as it says. -/
def CharPattern (x : Bytes) : Prop :=
  ∃ b t, x = b :: t ∧ trailCount b = some t.length ∧ ∀ d ∈ t, continues d = true

theorem trailCount_of_continues (h : continues b = true) : trailCount b = none := by
  revert b
  decide +kernel

theorem CharPattern.ne_nil (h : CharPattern x) : x ≠ [] := by
  obtain ⟨b, t, rfl, -⟩ := h
  exact List.cons_ne_nil b t

/-- At one place there is one pattern. -/
theorem CharPattern.unique (hx : CharPattern x) (hy : CharPattern y) (hxs : x <+: s)
    (hys : y <+: s) : x = y := by
  obtain ⟨b, t, rfl, hb, -⟩ := hx
  obtain ⟨d, u, rfl, hd, -⟩ := hy
  obtain ⟨r, rfl⟩ := hxs
  obtain ⟨r', h⟩ := hys
  rw [List.cons_append, List.cons_append] at h
  obtain ⟨rfl, htail⟩ := List.cons.inj h
  have hlen : t.length = u.length := by simpa using hb.symm.trans hd
  rw [(List.append_inj htail hlen.symm).1]

/-- The pattern of a character. -/
theorem charPattern_utf8 (c : Char) : CharPattern (String.utf8EncodeChar c) := by
  have hcount : ∀ {n k : ℕ}, n < 256 → (n < 0x80 ∧ k = 0 ∨ 0xC0 ≤ n ∧ n < 0xE0 ∧ k = 1 ∨
      0xE0 ≤ n ∧ n < 0xF0 ∧ k = 2 ∨ 0xF0 ≤ n ∧ n < 0xF8 ∧ k = 3) →
      trailCount (UInt8.ofNat n) = some k := by
    have hall : ∀ n < 256, (n < 0x80 → trailCount (UInt8.ofNat n) = some 0) ∧
        (0xC0 ≤ n ∧ n < 0xE0 → trailCount (UInt8.ofNat n) = some 1) ∧
        (0xE0 ≤ n ∧ n < 0xF0 → trailCount (UInt8.ofNat n) = some 2) ∧
        (0xF0 ≤ n ∧ n < 0xF8 → trailCount (UInt8.ofNat n) = some 3) := by decide +kernel
    intro n k hn h
    obtain ⟨h0, h1, h2, h3⟩ := hall n hn
    rcases h with ⟨h, rfl⟩ | ⟨h, h', rfl⟩ | ⟨h, h', rfl⟩ | ⟨h, h', rfl⟩
    · exact h0 h
    · exact h1 ⟨h, h'⟩
    · exact h2 ⟨h, h'⟩
    · exact h3 ⟨h, h'⟩
  obtain ⟨b, t, heq, -, ht⟩ := utf8EncodeChar_eq_cons c
  refine ⟨b, t, heq, ?_, ht⟩
  rcases utf8EncodeChar_cases c with ⟨h, hc⟩ | ⟨h1, h2, hc⟩ | ⟨h1, h2, hc⟩ | ⟨h1, hc⟩ <;>
    rw [heq] at hc <;> obtain ⟨rfl, rfl⟩ := List.cons.inj hc
  · exact hcount (by omega) (Or.inl ⟨by omega, rfl⟩)
  · exact hcount (by omega) (Or.inr (Or.inl ⟨by omega, by omega, rfl⟩))
  · exact hcount (by omega) (Or.inr (Or.inr (Or.inl ⟨by omega, by omega, rfl⟩)))
  · exact hcount (by omega) (Or.inr (Or.inr (Or.inr ⟨by omega, by omega, rfl⟩)))

/-- Inside a pattern none begins. -/
theorem CharPattern.not_inside (hx : CharPattern x) {j : ℕ} (hpos : 0 < j)
    (hj : j < x.length) (hy : CharPattern y) : ¬ y <+: (x ++ t).drop j := by
  obtain ⟨b, u, rfl, -, hu⟩ := hx
  obtain ⟨d, v, rfl, hd, -⟩ := hy
  obtain ⟨j, rfl⟩ : ∃ i, j = i + 1 := ⟨j - 1, by omega⟩
  have hlt : j < u.length := by simpa using hj
  rw [List.cons_append, List.drop_succ_cons, List.drop_append_of_le_length hlt.le,
    List.drop_eq_getElem_cons hlt]
  rintro ⟨r, hr⟩
  have hhead : d = u[j] := (List.cons.inj hr).1
  rw [hhead, trailCount_of_continues (hu _ (List.getElem_mem hlt))] at hd
  cases hd

/-- A pattern in a string that begins with another is that one, or stands behind it. -/
theorem CharPattern.infix_append (hx : CharPattern x) (hy : CharPattern y) :
    y <:+: x ++ t ↔ y = x ∨ y <:+: t := by
  constructor
  · rintro ⟨a, r, h⟩
    have hdrop : y <+: (x ++ t).drop a.length := by
      rw [← h, List.append_assoc, List.drop_left]
      exact List.prefix_append y r
    by_cases h0 : a.length = 0
    · rw [h0, List.drop_zero] at hdrop
      exact Or.inl (hy.unique hx hdrop (List.prefix_append x t))
    · by_cases hin : a.length < x.length
      · exact absurd hdrop (hx.not_inside (by omega) hin hy)
      · rw [List.drop_append, List.drop_of_length_le (by omega), List.nil_append] at hdrop
        exact Or.inr (hdrop.isInfix.trans (List.drop_suffix _ _).isInfix)
  · rintro (rfl | h)
    · exact (List.prefix_append y t).isInfix
    · exact h.trans (List.suffix_append x t).isInfix

/-- A pattern in a string at whose beginning there is none stands behind the first byte. -/
theorem CharPattern.infix_cons (hstray : ∀ x, CharPattern x → ¬ x <+: b :: t) (hy : CharPattern y) :
    y <:+: b :: t ↔ y <:+: t := by
  rw [List.infix_cons_iff]
  exact or_iff_right (hstray y hy)

/-- **A string is read pattern by pattern**, and byte by byte where none begins. -/
theorem pattern_induction {P : Bytes → Prop} (nil : P [])
    (pattern : ∀ x t, CharPattern x → P t → P (x ++ t))
    (stray : ∀ b t, (∀ x, CharPattern x → ¬ x <+: b :: t) → P t → P (b :: t)) (s : Bytes) : P s := by
  induction hn : s.length using Nat.strongRecOn generalizing s with
  | _ n ih =>
    cases s with
    | nil => exact nil
    | cons b t =>
      by_cases hx : ∃ x, CharPattern x ∧ x <+: b :: t
      · obtain ⟨x, hx, r, hr⟩ := hx
        have hpos : 0 < x.length := List.length_pos_iff.mpr hx.ne_nil
        have hlen := congrArg List.length hr
        rw [List.length_append] at hlen
        rw [← hr]
        exact pattern x r hx (ih r.length (by omega) r rfl)
      · have hstray : ∀ x, CharPattern x → ¬ x <+: b :: t := fun x h h' => hx ⟨x, h, h'⟩
        exact stray b t hstray (ih t.length (by simpa using hn ▸ Nat.lt_succ_self _) t rfl)

/-- One character begins at a place. -/
theorem utf8EncodeChar_inj {c d : Char} (hc : String.utf8EncodeChar c <+: s)
    (hd : String.utf8EncodeChar d <+: s) : c = d := by
  have heq := (charPattern_utf8 c).unique (charPattern_utf8 d) hc hd
  have hdecode : ∀ e : Char, (String.utf8EncodeChar e).toByteArray.utf8DecodeChar? 0 = some e := by
    intro e
    have h := @ByteArray.utf8DecodeChar?_utf8EncodeChar_append ByteArray.empty e
    rwa [ByteArray.append_empty] at h
  have h := hdecode c
  rw [heq, hdecode d] at h
  exact (Option.some.inj h).symm

/-! ## Byte by byte -/

/-- What a map of the characters of `s` puts at place `i`: the image of the character that begins
there, nothing inside a character, and `stray` at a byte that belongs to none. -/
noncomputable def mapCharAt (f : Char → UInt8) (stray : UInt8) (s : Bytes) (i : ℕ) : Bytes :=
  haveI := Classical.propDecidable
  if h : ∃ c, String.utf8EncodeChar c <+: s.drop i then [f h.choose]
  else if ∃ j < i, ∃ c, String.utf8EncodeChar c <+: s.drop j ∧
    i < j + (String.utf8EncodeChar c).length then []
  else [stray]

/-- **A map of the characters of a string**: the image of each character, and `stray` for each byte
that belongs to no character. -/
noncomputable def mapChars (f : Char → UInt8) (stray : UInt8) (s : Bytes) : Bytes :=
  (List.range s.length).flatMap (mapCharAt f stray s)

variable {f : Char → UInt8} {stray : UInt8}

@[simp] theorem mapChars_nil : mapChars f stray [] = [] := rfl

/-- Where a character begins. -/
theorem mapCharAt_of_char {i : ℕ} {c : Char} (h : String.utf8EncodeChar c <+: s.drop i) :
    mapCharAt f stray s i = [f c] := by
  have hex : ∃ c, String.utf8EncodeChar c <+: s.drop i := ⟨c, h⟩
  rw [mapCharAt, dif_pos hex, utf8EncodeChar_inj hex.choose_spec h]

/-- The places behind a string out of which no character reaches. -/
theorem mapChars_append {u t : Bytes} (h : ∀ j < u.length, ∀ c,
    String.utf8EncodeChar c <+: (u ++ t).drop j → j + (String.utf8EncodeChar c).length ≤ u.length) :
    mapChars f stray (u ++ t) =
      (List.range u.length).flatMap (mapCharAt f stray (u ++ t)) ++ mapChars f stray t := by
  have hdrop : ∀ i, (u ++ t).drop (u.length + i) = t.drop i := fun i => List.drop_length_add_append i
  have hplace : ∀ i, mapCharAt f stray (u ++ t) (u.length + i) = mapCharAt f stray t i := by
    intro i
    have hinside : (∃ j < u.length + i, ∃ c, String.utf8EncodeChar c <+: (u ++ t).drop j ∧
        u.length + i < j + (String.utf8EncodeChar c).length) ↔
        ∃ j < i, ∃ c, String.utf8EncodeChar c <+: t.drop j ∧
          i < j + (String.utf8EncodeChar c).length := by
      constructor
      · rintro ⟨j, hj, c, hc, hreach⟩
        by_cases hju : j < u.length
        · have := h j hju c hc
          omega
        · obtain ⟨k, rfl⟩ : ∃ k, j = u.length + k := ⟨j - u.length, by omega⟩
          rw [hdrop] at hc
          exact ⟨k, by omega, c, hc, by omega⟩
      · rintro ⟨j, hj, c, hc, hreach⟩
        exact ⟨u.length + j, by omega, c, by rwa [hdrop], by omega⟩
    by_cases hc : ∃ c, String.utf8EncodeChar c <+: t.drop i
    · obtain ⟨c, hc⟩ := hc
      rw [mapCharAt_of_char hc, mapCharAt_of_char (by rwa [hdrop])]
    · rw [mapCharAt, mapCharAt, dif_neg (by rwa [hdrop]), dif_neg hc]
      by_cases hin : ∃ j < i, ∃ c, String.utf8EncodeChar c <+: t.drop j ∧
          i < j + (String.utf8EncodeChar c).length
      · rw [if_pos hin, if_pos (hinside.mpr hin)]
      · rw [if_neg hin, if_neg (mt hinside.mp hin)]
  rw [mapChars, List.length_append, List.range_add, List.flatMap_append, List.flatMap_map]
  simp only [hplace]
  rfl

/-- A character at the beginning. -/
theorem mapChars_char (c : Char) (t : Bytes) :
    mapChars f stray (String.utf8EncodeChar c ++ t) = f c :: mapChars f stray t := by
  have hpattern := charPattern_utf8 c
  have hreach : ∀ j < (String.utf8EncodeChar c).length, ∀ d,
      String.utf8EncodeChar d <+: (String.utf8EncodeChar c ++ t).drop j →
        j + (String.utf8EncodeChar d).length ≤ (String.utf8EncodeChar c).length := by
    intro j hj d hd
    by_cases h0 : j = 0
    · subst h0
      have heq := (charPattern_utf8 d).unique hpattern hd (List.prefix_append _ t)
      rw [heq, Nat.zero_add]
    · exact absurd hd (hpattern.not_inside (by omega) hj (charPattern_utf8 d))
  have hfirst : mapCharAt f stray (String.utf8EncodeChar c ++ t) 0 = [f c] :=
    mapCharAt_of_char (List.prefix_append _ t)
  -- the other bytes of the character give nothing
  have hrest : ∀ i < (String.utf8EncodeChar c).length, 0 < i →
      mapCharAt f stray (String.utf8EncodeChar c ++ t) i = [] := by
    intro i hi hpos
    rw [mapCharAt, dif_neg, if_pos]
    · exact ⟨0, hpos, c, List.prefix_append _ t, by omega⟩
    · rintro ⟨d, hd⟩
      exact hpattern.not_inside hpos hi (charPattern_utf8 d) hd
  obtain ⟨n, hn⟩ : ∃ n, (String.utf8EncodeChar c).length = n + 1 := by
    obtain ⟨b, u, heq, -⟩ := hpattern
    exact ⟨u.length, by rw [heq, List.length_cons]⟩
  rw [mapChars_append hreach, hn, List.range_succ_eq_map, List.flatMap_cons, hfirst,
    List.flatMap_map]
  have hnone : (List.range n).flatMap (fun i =>
      mapCharAt f stray (String.utf8EncodeChar c ++ t) i.succ) = [] := by
    rw [List.flatMap_eq_nil_iff]
    exact fun i hi => hrest _ (by rw [hn]; exact Nat.succ_lt_succ (List.mem_range.mp hi))
      (Nat.succ_pos i)
  rw [hnone]
  rfl

/-- A byte at which no character begins, at the beginning. -/
theorem mapChars_stray (h : ∀ c, ¬ String.utf8EncodeChar c <+: b :: t) :
    mapChars f stray (b :: t) = stray :: mapChars f stray t := by
  have happend := @mapChars_append f stray [b] t (by
    intro j hj c hc
    obtain rfl : j = 0 := by simpa using hj
    exact absurd hc (h c))
  have hfirst : mapCharAt f stray (b :: t) 0 = [stray] := by
    rw [mapCharAt, dif_neg (by rintro ⟨c, hc⟩; exact h c hc), if_neg (by rintro ⟨j, hj, -⟩; omega)]
  simpa [hfirst] using happend

/-- The bytes of a pattern that is no character, at the beginning. -/
theorem mapChars_falseChar (hx : CharPattern x) (hfalse : ∀ c, x ≠ String.utf8EncodeChar c)
    (t : Bytes) : mapChars f stray (x ++ t) = List.replicate x.length stray ++ mapChars f stray t := by
  -- at none of its bytes a character begins
  have hnone : ∀ j < x.length, ∀ c, ¬ String.utf8EncodeChar c <+: (x ++ t).drop j := by
    intro j hj c hc
    by_cases h0 : j = 0
    · subst h0
      exact hfalse c (hx.unique (charPattern_utf8 c) (List.prefix_append x t) hc)
    · exact hx.not_inside (by omega) hj (charPattern_utf8 c) hc
  rw [mapChars_append fun j hj c hc => absurd hc (hnone j hj c)]
  congr 1
  have hall : ∀ i ∈ List.range x.length, mapCharAt f stray (x ++ t) i = [stray] := by
    intro i hi
    have hi := List.mem_range.mp hi
    rw [mapCharAt, dif_neg (by rintro ⟨c, hc⟩; exact hnone i hi c hc), if_neg]
    rintro ⟨j, hj, c, hc, -⟩
    exact hnone j (by omega) c hc
  rw [List.flatMap_congr hall, ← List.map_eq_flatMap, List.map_const', List.length_range]

end BoatRudder
