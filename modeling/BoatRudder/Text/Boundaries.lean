import BoatRudder.Text.CharTexts

/-! # Boundaries of characters

A place in a string is a boundary where the byte behind it continues no character; its end is one. A
text can be cut at its boundaries, and what is between two of them is a text. Where the boundaries are
depends only on the kinds of the bytes, which bytes begin how long a character and which continue one. -/

namespace BoatRudder

variable {s t : Bytes} {i : ℕ}

/-- A place where no character goes on. -/
def IsBoundary (s : Bytes) (i : ℕ) : Prop := ∀ b ∈ s[i]?, continues b = false

theorem isBoundary_of_isAscii {b : UInt8} (h : s[i]? = some b) (hb : isAscii b = true) :
    IsBoundary s i := by
  intro c hc
  obtain rfl : b = c := by simpa [h] using hc
  exact continues_of_isAscii hb

/-- Boundaries behind a beginning. -/
theorem isBoundary_append (s t : Bytes) (i : ℕ) : IsBoundary (s ++ t) (s.length + i) ↔ IsBoundary t i := by
  rw [IsBoundary, IsBoundary, List.getElem?_append_right (by omega), Nat.add_sub_cancel_left]

/-- Boundaries in what is left of a string. -/
theorem isBoundary_drop (s : Bytes) (i j : ℕ) : IsBoundary (s.drop i) j ↔ IsBoundary s (i + j) := by
  rw [IsBoundary, IsBoundary, List.getElem?_drop]

/-! ## Texts -/

/-- A text begins at a boundary. -/
theorem ValidUtf8.isBoundary_zero (h : ValidUtf8 s) : IsBoundary s 0 := by
  obtain ⟨cs, rfl⟩ := h
  intro b hb
  cases cs with
  | nil => cases hb
  | cons c cs =>
    obtain ⟨d, t, hcons, hd, -⟩ := utf8EncodeChar_eq_cons c
    rw [List.flatMap_cons, hcons] at hb
    obtain rfl : d = b := by simpa using hb
    exact hd

/-- **A text is cut at a boundary.** -/
theorem ValidUtf8.cut_at (h : ValidUtf8 s) (hi : IsBoundary s i) :
    ValidUtf8 (s.take i) ∧ ValidUtf8 (s.drop i) := by
  apply ValidUtf8.cut
  · rwa [List.take_append_drop]
  · rwa [List.head?_drop]

/-- Between two boundaries there is a text. -/
theorem ValidUtf8.between (h : ValidUtf8 s) {j : ℕ} (hij : i ≤ j) (hi : IsBoundary s i)
    (hj : IsBoundary s j) : ValidUtf8 ((s.drop i).take (j - i)) := by
  have hdrop : ValidUtf8 (s.drop i) := (h.cut_at hi).2
  have hcut : IsBoundary (s.drop i) (j - i) := by
    rw [isBoundary_drop, Nat.add_sub_cancel' hij]
    exact hj
  exact (hdrop.cut_at hcut).1

/-- Behind a byte of ASCII there is a boundary. -/
theorem ValidUtf8.isBoundary_succ (h : ValidUtf8 s) {b : UInt8} (hi : s[i]? = some b)
    (hb : isAscii b = true) : IsBoundary s (i + 1) := by
  have hdrop : ValidUtf8 (s.drop i) := (h.cut_at (isBoundary_of_isAscii hi hb)).2
  obtain ⟨hlt, rfl⟩ := List.getElem?_eq_some_iff.mp hi
  rw [List.drop_eq_getElem_cons hlt, validUtf8_cons hb] at hdrop
  have hzero := hdrop.isBoundary_zero
  rwa [isBoundary_drop] at hzero

/-! ## Strings of one shape -/

/-- The kind of a byte. -/
def byteShape (b : UInt8) : Option ℕ × Bool := (trailCount b, continues b)

/-- The boundaries of strings of one shape. -/
theorem isBoundary_congr (h : s.map byteShape = t.map byteShape) (i : ℕ) :
    IsBoundary s i ↔ IsBoundary t i := by
  have hat : (s[i]?).map byteShape = (t[i]?).map byteShape := by
    rw [← List.getElem?_map, ← List.getElem?_map, h]
  rw [IsBoundary, IsBoundary]
  cases hs : s[i]? with
  | none =>
    rw [hs, Option.map_none, eq_comm, Option.map_eq_none_iff] at hat
    simp [hat]
  | some b =>
    rw [hs, Option.map_some, eq_comm, Option.map_eq_some_iff] at hat
    obtain ⟨c, hc, hshape⟩ := hat
    have hbc : continues c = continues b := (Prod.mk.inj hshape).2
    simp [hc, hbc]

/-- A string of the shape of patterns is one of patterns. -/
theorem Patterned.of_shape (h : Patterned s) (hshape : t.map byteShape = s.map byteShape) :
    Patterned t := by
  induction h generalizing t with
  | nil =>
    obtain rfl := List.map_eq_nil_iff.mp hshape
    exact .nil
  | @pattern x s hx _ ih =>
    rw [List.map_append] at hshape
    obtain ⟨y, u, rfl, hy, hu⟩ := List.map_eq_append_iff.mp hshape
    refine .pattern ?_ (ih hu)
    obtain ⟨b, r, rfl, hcount, hr⟩ := hx
    obtain ⟨c, v, rfl, hc, hv⟩ := List.map_eq_cons_iff.mp hy
    refine ⟨c, v, rfl, ?_, ?_⟩
    · have hlen : v.length = r.length := by simpa using congrArg List.length hv
      have hcb : trailCount c = trailCount b := (Prod.mk.inj hc).1
      rw [hcb, hcount, hlen]
    · intro d hd
      have hmem : byteShape d ∈ r.map byteShape := hv ▸ List.mem_map_of_mem hd
      obtain ⟨e, he, hed⟩ := List.mem_map.mp hmem
      have hce : continues e = continues d := (Prod.mk.inj hed).2
      rw [← hce]
      exact hr e he

/-- Patterns that begin a string of patterns end at a boundary of it. -/
theorem Patterned.isBoundary (hs : Patterned s) (hst : Patterned (s ++ t)) :
    IsBoundary (s ++ t) s.length := by
  rw [← Nat.add_zero s.length, isBoundary_append]
  have ht : Patterned t := by
    induction hs with
    | nil => exact hst
    | pattern hx _ ih =>
      rw [List.append_assoc, patterned_append hx] at hst
      exact ih hst
  intro b hb
  cases ht with
  | nil => cases hb
  | @pattern x r hx hr =>
    obtain ⟨c, u, rfl, hcount, -⟩ := hx
    obtain rfl : c = b := by simpa using hb
    cases hcont : continues c with
    | false => rfl
    | true =>
      rw [trailCount_of_continues hcont] at hcount
      cases hcount

end BoatRudder
