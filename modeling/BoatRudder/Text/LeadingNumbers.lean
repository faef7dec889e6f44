import BoatRudder.Text.Padded

/-! # Numbers at the start of a text

The number that `strtol` reads: blanks, a sign, and the digits up to the first byte that is none. What
is left of it when the text is cut: the first of its digits, or none at all. -/

namespace BoatRudder

/-! ## Lists -/

section

variable {α : Type*} (p : α → Bool)

theorem takeWhile_take_eq (s : List α) (m : ℕ) : (s.take m).takeWhile p = (s.takeWhile p).take m := by
  induction s generalizing m with
  | nil => simp
  | cons a s ih =>
    cases m with
    | zero => simp
    | succ m => by_cases ha : p a = true <;> simp [ha, ih]

theorem dropWhile_take_eq (s : List α) (m : ℕ) :
    (s.take m).dropWhile p = (s.dropWhile p).take (m - (s.takeWhile p).length) := by
  induction s generalizing m with
  | nil => simp
  | cons a s ih =>
    cases m with
    | zero => simp
    | succ m => by_cases ha : p a = true <;> simp [ha, ih]

end

/-! ## The parts of a number -/

/-- The sign a text without blanks before it starts with. -/
def signOf (t : Bytes) : Bytes := if t.head? = some 45 ∨ t.head? = some 43 then t.take 1 else []

/-- The sign of the number. -/
def numberSign (s : Bytes) : Bytes := signOf (s.dropWhile isSpace)

/-- The digits of the number. -/
def numberDigits (s : Bytes) : Bytes :=
  ((s.dropWhile isSpace).drop (numberSign s).length).takeWhile isDigit

/-- Where the digits stand. -/
def digitsAt (s : Bytes) : ℕ := (s.takeWhile isSpace).length + (numberSign s).length

/-- The number at the start of a text, if there is one. -/
def textNumber (s : Bytes) : Option ℤ :=
  if numberDigits s = [] then none
  else some (if numberSign s = [45] then -(digitsValue 10 0 (numberDigits s) : ℤ)
    else digitsValue 10 0 (numberDigits s))

theorem signOf_cons (c : UInt8) (t : Bytes) : signOf (c :: t) = if c = 45 ∨ c = 43 then [c] else [] := by
  simp [signOf]

/-- The digits and the sign of a number. -/
theorem textNumber_eq_some {s : Bytes} {n : ℤ} (h : textNumber s = some n) :
    0 < (numberDigits s).length ∧
      n = if numberSign s = [45] then -(digitsValue 10 0 (numberDigits s) : ℤ)
        else digitsValue 10 0 (numberDigits s) := by
  rw [textNumber] at h
  by_cases hnil : numberDigits s = []
  · rw [if_pos hnil] at h
    cases h
  · rw [if_neg hnil] at h
    exact ⟨List.length_pos_iff.mpr hnil, (Option.some.inj h).symm⟩

theorem length_signOf_le (t : Bytes) : (signOf t).length ≤ 1 := by
  rw [signOf]
  split_ifs
  · rw [List.length_take]
    exact Nat.min_le_left 1 _
  · exact Nat.zero_le 1

/-- `strtol` reads that number, cut to 64 bits. -/
theorem strtoll_eq_textNumber (s : Bytes) :
    (strtoll s).1 = max (-2 ^ 63) (min (2 ^ 63 - 1) ((textNumber s).getD 0)) := by
  have hsign : numberSign s = [45] ↔ ((s.dropWhile isSpace).head? == some 45) = true := by
    rw [numberSign, signOf]
    cases s.dropWhile isSpace with
    | nil => simp
    | cons c t =>
      simp only [List.head?_cons, Option.some.injEq, List.take_succ_cons, List.take_zero, beq_iff_eq]
      split_ifs with h
      · simp
      · simp [not_or.mp h]
  have hrest : (s.dropWhile isSpace).drop (numberSign s).length =
      if ((s.dropWhile isSpace).head? == some 45 || (s.dropWhile isSpace).head? == some 43) = true then
        (s.dropWhile isSpace).drop 1 else s.dropWhile isSpace := by
    rw [numberSign, signOf]
    cases s.dropWhile isSpace with
    | nil => simp
    | cons c t =>
      simp only [List.head?_cons, Option.some.injEq, Bool.or_eq_true, beq_iff_eq]
      split_ifs <;> rfl
  rw [textNumber, numberDigits, hrest]
  simp only [strtoll]
  generalize (if ((s.dropWhile isSpace).head? == some 45 || (s.dropWhile isSpace).head? == some 43) = true
    then (s.dropWhile isSpace).drop 1 else s.dropWhile isSpace).takeWhile isDigit = digits
  by_cases hdigits : digits = []
  · simp [hdigits]
  · rw [if_neg hdigits, if_neg hdigits, Option.getD_some]
    simp only [hsign]

theorem digitsValue_append (s t : Bytes) :
    digitsValue 10 0 (s ++ t) = digitsValue 10 0 s * 10 ^ t.length + digitsValue 10 0 t := by
  induction t using List.reverseRecOn with
  | nil => simp [digitsValue]
  | append_singleton t b ih =>
    rw [← List.append_assoc, digitsValue_concat, digitsValue_concat, ih, List.length_append,
      List.length_singleton, Nat.pow_succ, Nat.add_mul, Nat.mul_assoc, Nat.add_assoc]

theorem isDigit_of_mem_numberDigits {s : Bytes} {b : UInt8} (h : b ∈ numberDigits s) :
    isDigit b = true :=
  List.mem_takeWhile_imp h

/-- A number of a short text is small. -/
theorem natAbs_textNumber_lt {s : Bytes} {n : ℤ} (h : textNumber s = some n) : n.natAbs < 10 ^ s.length := by
  have hdigits := digitsValue_lt fun b hb => isDigit_of_mem_numberDigits (s := s) (b := b) hb
  have hlen : (numberDigits s).length ≤ s.length :=
    ((List.takeWhile_prefix _).length_le.trans (List.drop_sublist _ _).length_le).trans
      (List.dropWhile_suffix _).length_le
  have hpow : 10 ^ (numberDigits s).length ≤ 10 ^ s.length := Nat.pow_le_pow_right (by decide) hlen
  rw [textNumber] at h
  split_ifs at h with hnil hneg
  all_goals
    obtain rfl := Option.some.inj h
    omega

/-! ## Cut texts -/

theorem signOf_take (t : Bytes) (k : ℕ) : signOf (t.take k) = (signOf t).take k := by
  cases k with
  | zero => simp [signOf]
  | succ k =>
    cases t with
    | nil => simp [signOf]
    | cons c t =>
      rw [List.take_succ_cons, signOf_cons, signOf_cons]
      split_ifs <;> simp

/-- **What is left of a number** are the first of its digits. -/
theorem numberDigits_take (s : Bytes) (m : ℕ) :
    numberDigits (s.take m) = (numberDigits s).take (m - digitsAt s) := by
  have hone := length_signOf_le (s.dropWhile isSpace)
  rw [numberDigits, numberSign, dropWhile_take_eq, signOf_take, List.length_take, List.drop_take,
    takeWhile_take_eq, digitsAt, numberDigits, numberSign]
  rcases Nat.lt_or_ge (m - (s.takeWhile isSpace).length) (signOf (s.dropWhile isSpace)).length with hlt | hge
  · -- not even the sign is left whole
    have hleft : m - (s.takeWhile isSpace).length = 0 := by omega
    rw [hleft, Nat.zero_min, Nat.sub_zero, List.take_zero]
    have hnone : m - ((s.takeWhile isSpace).length + (signOf (s.dropWhile isSpace)).length) = 0 := by omega
    rw [hnone, List.take_zero]
  · rw [Nat.min_eq_right hge, Nat.sub_sub]

theorem numberSign_take {s : Bytes} {m : ℕ} (h : digitsAt s < m) :
    numberSign (s.take m) = numberSign s := by
  rw [digitsAt, numberSign] at h
  rw [numberSign, dropWhile_take_eq, signOf_take]
  exact List.take_of_length_le (by omega)

/-- The number of a cut text, zero where there is none. -/
theorem textNumber_take (s : Bytes) (m : ℕ) : (textNumber (s.take m)).getD 0 =
    if numberSign s = [45] then -(digitsValue 10 0 ((numberDigits s).take (m - digitsAt s)) : ℤ)
    else digitsValue 10 0 ((numberDigits s).take (m - digitsAt s)) := by
  rw [textNumber, numberDigits_take]
  by_cases hnil : (numberDigits s).take (m - digitsAt s) = []
  · rw [if_pos hnil, hnil]
    split_ifs <;> rfl
  · have hlt : digitsAt s < m := by
      by_contra hge
      rw [Nat.sub_eq_zero_of_le (not_lt.mp hge), List.take_zero] at hnil
      exact hnil rfl
    rw [if_neg hnil, numberSign_take hlt, Option.getD_some]

/-- A text without a number has none when it is cut. -/
theorem textNumber_take_eq_none {s : Bytes} (h : textNumber s = none) (m : ℕ) :
    textNumber (s.take m) = none := by
  rw [textNumber] at h ⊢
  split_ifs at h with hnil
  rw [numberDigits_take, hnil, List.take_nil, if_pos rfl]

/-- The first digits of a number make at most a tenth of it, unless they are all there are. -/
theorem digitsValue_take (s : Bytes) (k : ℕ) :
    (k < s.length → digitsValue 10 0 (s.take k) * 10 ≤ digitsValue 10 0 s) ∧
      (s.length ≤ k → digitsValue 10 0 (s.take k) = digitsValue 10 0 s) := by
  refine ⟨fun hlt => ?_, fun hle => by rw [List.take_of_length_le hle]⟩
  have hsplit := digitsValue_append (s.take k) (s.drop k)
  rw [List.take_append_drop] at hsplit
  have hpow : 10 ^ 1 ≤ 10 ^ (s.drop k).length := by
    apply Nat.pow_le_pow_right (by decide)
    rw [List.length_drop]
    omega
  have hmul := Nat.mul_le_mul_left (digitsValue 10 0 (s.take k)) hpow
  omega

end BoatRudder
