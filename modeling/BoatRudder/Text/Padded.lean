import BoatRudder.Text.Numbers

/-! # Numbers of a fixed width

Decimal numbers with leading zeros, as `%04d` writes them. Texts of one length are ordered as the
numbers their digits have; what stands behind them only counts where these are equal. -/

namespace BoatRudder

/-! ## Texts of one length -/

/-- The order of two texts is that of their beginnings of one length, or else that of the rest. -/
theorem append_lt_append_iff {a b s t : Bytes} (h : a.length = b.length) :
    a ++ s < b ++ t ↔ a < b ∨ a = b ∧ s < t := by
  induction a generalizing b with
  | nil =>
    obtain rfl := List.eq_nil_of_length_eq_zero h.symm
    simp
  | cons c a ih =>
    cases b with
    | nil => cases h
    | cons d b =>
      have hih := ih (Nat.succ.inj h)
      simp only [List.cons_append, List.cons_lt_cons_iff, hih, List.cons.injEq]
      tauto

/-- The value of a digit behind others. -/
theorem digitsValue_concat (s : Bytes) (b : UInt8) :
    digitsValue 10 0 (s ++ [b]) = digitsValue 10 0 s * 10 + (digitValue b).getD 0 := by
  rw [digitsValue, List.foldl_append]
  rfl

/-- The value of a decimal digit. -/
theorem digitValue_of_isDigit {b : UInt8} (h : isDigit b = true) :
    (digitValue b).getD 0 = b.toNat - 48 ∧ 48 ≤ b.toNat ∧ b.toNat ≤ 57 := by
  revert b
  decide +kernel

/-- The number that some digits stand for is below the power of ten. -/
theorem digitsValue_lt {s : Bytes} (h : ∀ b ∈ s, isDigit b = true) :
    digitsValue 10 0 s < 10 ^ s.length := by
  induction s using List.reverseRecOn with
  | nil => exact Nat.one_pos
  | append_singleton s b ih =>
    have hs := ih fun c hc => h c (List.mem_append_left _ hc)
    obtain ⟨hb, -, h57⟩ := digitValue_of_isDigit (h b (by simp))
    rw [digitsValue_concat, hb, List.length_append, List.length_singleton, pow_succ]
    omega

/-- Digits of one length are ordered as their values are. -/
theorem digitsValue_lt_iff {s t : Bytes} (hs : ∀ b ∈ s, isDigit b = true)
    (ht : ∀ b ∈ t, isDigit b = true) (hlen : s.length = t.length) :
    (s < t ↔ digitsValue 10 0 s < digitsValue 10 0 t) ∧
      (s = t ↔ digitsValue 10 0 s = digitsValue 10 0 t) := by
  induction s using List.reverseRecOn generalizing t with
  | nil =>
    obtain rfl := List.eq_nil_of_length_eq_zero hlen.symm
    simp
  | append_singleton s b ih =>
    obtain ⟨t, c, rfl⟩ : ∃ u c, t = u ++ [c] := by
      have hne : t ≠ [] := by
        rintro rfl
        simp at hlen
      exact ⟨_, _, (List.dropLast_append_getLast hne).symm⟩
    have hlen' : s.length = t.length := by simpa using hlen
    obtain ⟨hlt, heq⟩ := ih (fun d hd => hs d (List.mem_append_left _ hd))
      (fun d hd => ht d (List.mem_append_left _ hd)) hlen'
    obtain ⟨hb, hb48, hb57⟩ := digitValue_of_isDigit (hs b (by simp))
    obtain ⟨hc, hc48, hc57⟩ := digitValue_of_isDigit (ht c (by simp))
    have hlast : [b] < [c] ↔ b.toNat < c.toNat := by
      simp [List.cons_lt_cons_iff, UInt8.lt_iff_toNat_lt]
    have hboth : s ++ [b] = t ++ [c] ↔ s = t ∧ b.toNat = c.toNat := by
      rw [UInt8.toNat_inj]
      constructor
      · intro h
        obtain ⟨hst, hbc⟩ := List.append_inj h hlen'
        exact ⟨hst, (List.cons.inj hbc).1⟩
      · rintro ⟨rfl, rfl⟩
        rfl
    rw [append_lt_append_iff hlen', hboth, hlast, hlt, heq, digitsValue_concat, digitsValue_concat,
      hb, hc]
    constructor <;> omega

/-! ## Leading zeros -/

/-- `%0*u`: a number in at least `w` digits. -/
def padded (w n : ℕ) : Bytes := List.replicate (w - (decimal n).length) 48 ++ decimal n

/-- A padded number is digits alone. -/
theorem isDigit_of_mem_padded {w n : ℕ} {b : UInt8} (h : b ∈ padded w n) : isDigit b = true := by
  rcases List.mem_append.mp h with h | h
  · obtain rfl := (List.mem_replicate.mp h).2
    decide
  · exact isDigit_of_mem_decimal h

/-- A number that fits its width is padded to it. -/
theorem length_padded {w n : ℕ} (hw : 0 < w) (hn : n < 10 ^ w) : (padded w n).length = w := by
  have hlen := (length_decimal_le_iff hw).mpr hn
  rw [padded, List.length_append, List.length_replicate]
  omega

/-- A padded number is read back. -/
theorem digitsValue_padded (w n : ℕ) : digitsValue 10 0 (padded w n) = n := by
  have hzeros : ∀ k : ℕ, digitsValue 10 0 (List.replicate k 48) = 0 := by
    intro k
    induction k with
    | zero => rfl
    | succ k ih =>
      rw [List.replicate_succ', digitsValue_concat, ih]
      rfl
  rw [padded, digitsValue, List.foldl_append]
  have hstart := hzeros (w - (decimal n).length)
  rw [digitsValue] at hstart
  rw [hstart]
  exact digitsValue_decimal n

/-- Different numbers are padded differently. -/
theorem padded_inj {w m n : ℕ} : padded w m = padded w n ↔ m = n := by
  constructor
  · intro h
    rw [← digitsValue_padded w m, h, digitsValue_padded]
  · rintro rfl
    rfl

/-- **Numbers of one width are ordered as they are written.** -/
theorem padded_lt_iff {w m n : ℕ} (hw : 0 < w) (hm : m < 10 ^ w) (hn : n < 10 ^ w) :
    padded w m < padded w n ↔ m < n := by
  have hlen : (padded w m).length = (padded w n).length := by
    rw [length_padded hw hm, length_padded hw hn]
  have hlt := (digitsValue_lt_iff (fun _ => isDigit_of_mem_padded) (fun _ => isDigit_of_mem_padded)
    hlen).1
  rwa [digitsValue_padded, digitsValue_padded] at hlt

/-- `%0*d`: a minus sign takes one of the `w` places. -/
def signedPadded (w : ℕ) (v : ℤ) : Bytes :=
  if v < 0 then 45 :: padded (w - 1) v.natAbs else padded w v.toNat

theorem signedPadded_of_nonneg {w : ℕ} {v : ℤ} (h : 0 ≤ v) : signedPadded w v = padded w v.toNat :=
  if_neg (by omega)

theorem padded_ne_nil (w n : ℕ) : padded w n ≠ [] := fun h =>
  decimal_ne_nil n (List.append_eq_nil_iff.mp h).2

/-- A digit stands first in a number that is not negative. -/
theorem head_padded (w n : ℕ) : ∃ b s, padded w n = b :: s ∧ 48 ≤ b ∧ isDigit b = true := by
  obtain ⟨b, s, hb⟩ := List.exists_cons_of_ne_nil (padded_ne_nil w n)
  have hdigit : isDigit b = true := isDigit_of_mem_padded (w := w) (n := n) (by simp [hb])
  refine ⟨b, s, hb, ?_, hdigit⟩
  simp only [isDigit, Bool.and_eq_true, decide_eq_true_eq] at hdigit
  exact hdigit.1

/-- Different integers are padded differently. -/
theorem signedPadded_inj {w : ℕ} {u v : ℤ} : signedPadded w u = signedPadded w v ↔ u = v := by
  have hsign {m n k l : ℕ} : 45 :: padded k m ≠ padded l n := by
    intro h
    obtain ⟨b, s, hb, -, hdigit⟩ := head_padded l n
    rw [hb] at h
    rw [← (List.cons.inj h).1] at hdigit
    exact absurd hdigit (by decide)
  constructor
  · intro h
    unfold signedPadded at h
    split_ifs at h
    · have := padded_inj.mp (List.cons.inj h).2
      omega
    · exact absurd h hsign
    · exact absurd h.symm hsign
    · have := padded_inj.mp h
      omega
  · rintro rfl
    rfl

end BoatRudder
