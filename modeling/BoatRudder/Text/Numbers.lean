import BoatRudder.Text.Bytes

/-! # Numbers in text

The numbers that tokens and heads carry as text: what `%lld` writes, what `strtoll` reads, and bytes
as pairs of hexadecimal digits. Reading what was written gives the number back. -/

namespace BoatRudder

variable {s : Bytes} {c : UInt8} {n : ℤ}

/-- `toupper`, in the C locale. -/
def toUpper (b : UInt8) : UInt8 := if isLower b then b - 32 else b

/-! ## Hexadecimal -/

/-- `sodium_bin2hex`. -/
def bin2hex (s : Bytes) : Bytes :=
  let digit := fun n : ℕ => UInt8.ofNat (if n < 10 then 48 + n else 87 + n)
  s.flatMap fun b => [digit (b.toNat / 16), digit (b.toNat % 16)]

@[simp] theorem bin2hex_nil : bin2hex [] = [] := rfl

theorem bin2hex_cons (b : UInt8) (s : Bytes) : bin2hex (b :: s) = bin2hex [b] ++ bin2hex s := by
  simp [bin2hex]

@[simp] theorem length_bin2hex (s : Bytes) : (bin2hex s).length = 2 * s.length := by
  simp [bin2hex, List.length_flatMap, Nat.mul_comm]

/-- The digits are decimal, or in lower case. -/
theorem lowerHex_of_mem_bin2hex (h : c ∈ bin2hex s) :
    (isDigit c || (97 ≤ c && c ≤ 102)) = true := by
  have hall : ∀ b, (bin2hex [b]).all (fun c => isDigit c || (97 ≤ c && c ≤ 102)) = true := by
    decide +kernel
  obtain ⟨b, -, hcb⟩ := List.mem_flatMap.mp h
  exact List.all_eq_true.mp (hall b) c (by simpa [bin2hex] using hcb)

/-- The digits of different bytes differ. -/
theorem bin2hex_injective : Function.Injective bin2hex := by
  have hdigits : ∀ b : UInt8, ((bin2hex [b]).map fun c => (digitValue c).getD 0) =
      [b.toNat / 16, b.toNat % 16] := by
    decide +kernel
  intro s
  induction s with
  | nil =>
    intro t h
    have hlen := congrArg List.length h
    simp only [length_bin2hex, List.length_nil] at hlen
    exact (List.length_eq_zero_iff.mp (by omega)).symm
  | cons b s ih =>
    intro t h
    cases t with
    | nil =>
      have hlen := congrArg List.length h
      simp at hlen
    | cons c t =>
      rw [bin2hex_cons b, bin2hex_cons c] at h
      obtain ⟨hbc, hst⟩ := List.append_inj h (by simp)
      have hvalues := (hdigits b).symm.trans ((congrArg _ hbc).trans (hdigits c))
      obtain ⟨hhigh, hlow⟩ := List.cons.inj hvalues
      have hlow : b.toNat % 16 = c.toNat % 16 := (List.cons.inj hlow).1
      have hnat : b.toNat = c.toNat := by omega
      rw [UInt8.toNat_inj.mp hnat, ih hst]

/-- What `%lx` writes. -/
def hexNumber (n : ℕ) : Bytes := (Nat.toDigits 16 n).map (fun c => UInt8.ofNat c.toNat)

/-- A hexadecimal number is made of digits. -/
theorem isXDigit_of_mem_hexNumber {n : ℕ} {b : UInt8} (h : b ∈ hexNumber n) : isXDigit b = true := by
  have hdigit : ∀ d < 16, isXDigit (UInt8.ofNat d.digitChar.toNat) = true := by decide
  induction n using Nat.strongRecOn with
  | _ n ih =>
    rcases Nat.lt_or_ge n 16 with hlt | hge
    · rw [hexNumber, Nat.toDigits_of_lt_base hlt] at h
      obtain rfl := List.mem_singleton.mp h
      exact hdigit n hlt
    · rw [hexNumber, Nat.toDigits_of_base_le (by decide) hge, List.map_append] at h
      rcases List.mem_append.mp h with h | h
      · exact ih (n / 16) (by omega) h
      · obtain rfl := List.mem_singleton.mp h
        exact hdigit (n % 16) (by omega)

/-! ## Decimal -/

theorem decimal_ne_nil (n : ℕ) : decimal n ≠ [] := by simp [decimal]

/-- The digits of a number have its value. -/
theorem digitsValue_decimal (n : ℕ) : digitsValue 10 0 (decimal n) = n := by
  have hdigit : ∀ d < 10, (digitValue (UInt8.ofNat d.digitChar.toNat)).getD 0 = d := by decide
  induction n using Nat.strongRecOn with
  | _ n ih =>
    rcases Nat.lt_or_ge n 10 with hlt | hge
    · rw [decimal, Nat.toDigits_of_lt_base hlt]
      simp [digitsValue, hdigit n hlt]
    · have hstep : decimal n = decimal (n / 10) ++ [UInt8.ofNat (n % 10).digitChar.toNat] := by
        rw [decimal, Nat.toDigits_of_base_le (by decide) hge, List.map_append]
        rfl
      have hrec := ih (n / 10) (by omega)
      rw [hstep, digitsValue, List.foldl_append]
      rw [digitsValue] at hrec
      rw [hrec]
      simp only [List.foldl_cons, List.foldl_nil, hdigit (n % 10) (by omega)]
      omega

/-- One more digit. -/
theorem decimal_mul_add {n d : ℕ} (hn : 0 < n) (hd : d < 10) :
    decimal (n * 10 + d) = decimal n ++ [UInt8.ofNat d.digitChar.toNat] := by
  have hdiv : (n * 10 + d) / 10 = n := by omega
  have hmod : (n * 10 + d) % 10 = d := by omega
  rw [decimal, Nat.toDigits_of_base_le (by decide) (by omega), hdiv, hmod, List.map_append]
  rfl

/-- A number is written without a leading zero. -/
theorem head_decimal_ne_zero {n : ℕ} (hn : 0 < n) : (decimal n).head? ≠ some 48 := by
  have hdigit : ∀ d < 10, 0 < d → UInt8.ofNat d.digitChar.toNat ≠ 48 := by decide
  induction n using Nat.strongRecOn with
  | _ n ih =>
    rcases Nat.lt_or_ge n 10 with hlt | hge
    · rw [decimal, Nat.toDigits_of_lt_base hlt]
      exact fun h => hdigit n hlt hn (Option.some.inj h)
    · have hstep := decimal_mul_add (n := n / 10) (d := n % 10) (by omega) (by omega)
      rw [Nat.div_add_mod' n 10] at hstep
      rw [hstep, List.head?_append_of_ne_nil _ (decimal_ne_nil _)]
      exact ih (n / 10) (by omega) (by omega)

/-- **Digits without a leading zero** are what their number is written as. -/
theorem decimal_digitsValue (hne : s ≠ []) (hdigits : ∀ b ∈ s, isDigit b = true)
    (hzero : s.head? = some 48 → s.length = 1) : decimal (digitsValue 10 0 s) = s := by
  have hchar : ∀ d < 256, isDigit (UInt8.ofNat d) = true → (digitValue (UInt8.ofNat d)).getD 0 < 10 ∧
      UInt8.ofNat ((digitValue (UInt8.ofNat d)).getD 0).digitChar.toNat = UInt8.ofNat d := by decide +kernel
  have hdigit : ∀ b : UInt8, isDigit b = true → (digitValue b).getD 0 < 10 ∧
      UInt8.ofNat ((digitValue b).getD 0).digitChar.toNat = b := by
    intro b hb
    have := hchar b.toNat b.toNat_lt
    rw [UInt8.ofNat_toNat] at this
    exact this hb
  induction s using List.reverseRecOn with
  | nil => exact absurd rfl hne
  | append_singleton s b ih =>
    obtain ⟨hlt, hb⟩ := hdigit b (hdigits b (by simp))
    have hvalue : digitsValue 10 0 (s ++ [b]) = digitsValue 10 0 s * 10 + (digitValue b).getD 0 := by
      rw [digitsValue, List.foldl_append]
      rfl
    cases s with
    | nil =>
      rw [hvalue, show digitsValue 10 0 [] * 10 + (digitValue b).getD 0 = (digitValue b).getD 0 from Nat.zero_add _,
        decimal, Nat.toDigits_of_lt_base hlt, List.map_singleton, hb]
      rfl
    | cons c s =>
      have hc : c ≠ 48 := by
        rintro rfl
        have := hzero rfl
        simp at this
      have hs := ih (List.cons_ne_nil _ _) (fun d hd => hdigits d (List.mem_append_left _ hd))
        (fun h => absurd (Option.some.inj h) hc)
      have hpos : 0 < digitsValue 10 0 (c :: s) := by
        rcases Nat.eq_zero_or_pos (digitsValue 10 0 (c :: s)) with h | h
        · rw [h] at hs
          exact absurd (List.cons.inj hs).1.symm hc
        · exact h
      rw [hvalue, decimal_mul_add hpos hlt, hs, hb]

/-- What `%lld` writes. -/
def signed (n : ℤ) : Bytes := if n < 0 then 45 :: decimal n.natAbs else decimal n.natAbs

/-- `strtoll` to the base 10: the value, cut to 64 bits, and what follows it; the whole string when it
begins with no number. -/
def strtoll (s : Bytes) : ℤ × Bytes :=
  let t := s.dropWhile isSpace
  let negative := t.head? == some 45
  let t := if negative || t.head? == some 43 then t.drop 1 else t
  let digits := t.takeWhile isDigit
  if digits = [] then (0, s)
  else
    let v : ℤ := digitsValue 10 0 digits
    (max (-2 ^ 63) (min (2 ^ 63 - 1) (if negative then -v else v)), t.drop digits.length)

/-- A `%d` of `sscanf`: the number, and what follows it. -/
def scanInt (s : Bytes) : Option (ℤ × Bytes) :=
  if (strtoll s).2 = s then none else some (strtoll s)

/-- The value is one of 64 bits. -/
theorem strtoll_range (s : Bytes) : -2 ^ 63 ≤ (strtoll s).1 ∧ (strtoll s).1 < 2 ^ 63 := by
  simp only [strtoll]
  split_ifs <;> omega

/-- A byte that is in no number ends one. -/
theorem strtoll_append (hspace : isSpace c = false) (hdigit : isDigit c = false)
    (hminus : c ≠ 45) (hplus : c ≠ 43) (a b : Bytes) :
    strtoll (a ++ c :: b) = ((strtoll a).1, (strtoll a).2 ++ c :: b) := by
  have hdrop : (a ++ c :: b).dropWhile isSpace = a.dropWhile isSpace ++ c :: b := by
    induction a with
    | nil => simp [hspace]
    | cons d a ih => by_cases hd : isSpace d = true <;> simp [hd, ih]
  have htake : ∀ t : Bytes, (t ++ c :: b).takeWhile isDigit = t.takeWhile isDigit := by
    intro t
    induction t with
    | nil => simp [hdigit]
    | cons d t ih => by_cases hd : isDigit d = true <;> simp [hd, ih]
  have hle : ∀ t : Bytes, (t.takeWhile isDigit).length ≤ t.length := fun t =>
    (List.takeWhile_prefix isDigit).length_le
  simp only [strtoll, hdrop]
  cases ht : a.dropWhile isSpace with
  | nil => simp [hdigit, hminus, hplus]
  | cons d t =>
    simp only [List.cons_append, List.head?_cons, List.drop_succ_cons, List.drop_zero]
    by_cases hsign : (some d == some 45 || some d == some 43) = true
    · rw [if_pos hsign, if_pos hsign, htake]
      split_ifs
      · rfl
      · rw [List.drop_append_of_le_length (hle t)]
      · rw [List.drop_append_of_le_length (hle t)]
    · rw [if_neg hsign, if_neg hsign, ← List.cons_append, htake]
      split_ifs
      · rfl
      · rw [List.drop_append_of_le_length (hle _)]
      · rw [List.drop_append_of_le_length (hle _)]

/-- The digits of a number up to what follows them. -/
theorem takeWhile_decimal_append (n : ℕ) {rest : Bytes} (hrest : ∀ c ∈ rest.head?, isDigit c = false) :
    (decimal n ++ rest).takeWhile isDigit = decimal n := by
  rw [List.takeWhile_append_of_pos fun b hb => isDigit_of_mem_decimal hb]
  cases rest with
  | nil => simp
  | cons c rest => simp [hrest c rfl]

/-- Digits are read, with whatever zeros stand before them. -/
theorem strtoll_digits_append (hne : s ≠ []) (hdigits : ∀ b ∈ s, isDigit b = true)
    (hlt : digitsValue 10 0 s < 2 ^ 63) {rest : Bytes} (hrest : ∀ c ∈ rest.head?, isDigit c = false) :
    strtoll (s ++ rest) = (↑(digitsValue 10 0 s), rest) := by
  obtain ⟨d, ds, rfl⟩ := List.exists_cons_of_ne_nil hne
  have hrun : (d :: ds ++ rest).takeWhile isDigit = d :: ds := by
    rw [List.takeWhile_append_of_pos hdigits]
    cases rest with
    | nil => simp
    | cons c rest => simp [hrest c rfl]
  have hfirst : isSpace d = false ∧ d ≠ 45 ∧ d ≠ 43 := by
    have hdigit := hdigits d (by simp)
    simp only [isDigit, isSpace, Bool.and_eq_true, decide_eq_true_eq] at hdigit ⊢
    grind
  have h45 : (some d == some 45) = false := by simp [hfirst.2.1]
  have h43 : (some d == some 43) = false := by simp [hfirst.2.2]
  have hdrop : (d :: ds ++ rest).dropWhile isSpace = d :: ds ++ rest := by
    rw [List.cons_append, List.dropWhile_cons_of_neg (by simp [hfirst.1])]
  have hhead : (d :: ds ++ rest).head? = some d := rfl
  have hleft : (d :: ds ++ rest).drop (d :: ds).length = rest := List.drop_left
  simp only [strtoll, hdrop, hhead, h45, h43, Bool.or_self, Bool.false_eq_true, if_false, hrun]
  rw [if_neg (by simp), hleft]
  congr 1
  omega

/-- **What was written is read back**, up to what follows it. -/
theorem strtoll_signed_append {n : ℤ} (hlo : -2 ^ 63 ≤ n) (hhi : n < 2 ^ 63) {rest : Bytes}
    (hrest : ∀ c ∈ rest.head?, isDigit c = false) : strtoll (signed n ++ rest) = (n, rest) := by
  obtain ⟨d, ds, hd⟩ := List.exists_cons_of_ne_nil (decimal_ne_nil n.natAbs)
  have hrun := takeWhile_decimal_append n.natAbs hrest
  have hvalue : digitsValue 10 0 (d :: ds) = n.natAbs := hd ▸ digitsValue_decimal _
  rw [hd] at hrun
  have hleft : (d :: ds ++ rest).drop (d :: ds).length = rest := List.drop_left
  rw [signed, hd]
  split_ifs with hneg
  · have hspace : isSpace 45 = false := rfl
    rw [List.cons_append]
    simp only [strtoll, List.dropWhile_cons_of_neg (p := isSpace) (by simp [hspace] : ¬ isSpace 45 = true),
      List.head?_cons, BEq.rfl, Bool.true_or, if_true, List.drop_succ_cons, List.drop_zero, hrun, hvalue]
    rw [if_neg (by simp), hleft]
    congr 1
    omega
  · have hread := strtoll_digits_append (s := d :: ds) (by simp)
      (hd ▸ fun _ => isDigit_of_mem_decimal) (by omega) hrest
    rw [hread, hvalue]
    congr 1
    omega

/-- What was written is read back. -/
theorem strtoll_signed (hlo : -2 ^ 63 ≤ n) (hhi : n < 2 ^ 63) : strtoll (signed n) = (n, []) := by
  have h := @strtoll_signed_append n hlo hhi [] nofun
  rwa [List.append_nil] at h

/-- `atoi`: what `strtol` reads, cut to an `int`. -/
def atoi (s : Bytes) : ℤ := (Int32.ofInt (strtoll s).1).toInt

/-- A number of 32 bits that was written is read back. -/
theorem atoi_signed (hlo : -2 ^ 31 ≤ n) (hhi : n < 2 ^ 31) : atoi (signed n) = n := by
  rw [atoi, strtoll_signed (by omega) (by omega)]
  exact Int32.toInt_ofInt_of_le (by omega) (by omega)

/-- White space before a number is passed over. -/
theorem strtoll_cons_space (hc : isSpace c = true) (h : (strtoll s).2 ≠ s) :
    strtoll (c :: s) = strtoll s := by
  have hdrop : (c :: s).dropWhile isSpace = s.dropWhile isSpace := List.dropWhile_cons_of_pos hc
  simp only [strtoll] at h ⊢
  rw [hdrop]
  -- where there is no number, the second component is the whole string
  split_ifs at h ⊢ <;> first | rfl | exact absurd rfl h

/-- **Digits are read behind blanks**, and up to what follows them. -/
theorem atoi_digits {blanks : Bytes} (hblanks : ∀ b ∈ blanks, isSpace b = true) (hne : s ≠ [])
    (hdigits : ∀ b ∈ s, isDigit b = true) (hlt : digitsValue 10 0 s < 2 ^ 31) {rest : Bytes}
    (hrest : ∀ c ∈ rest.head?, isDigit c = false) : atoi (blanks ++ (s ++ rest)) = digitsValue 10 0 s := by
  have hread : strtoll (blanks ++ (s ++ rest)) = (↑(digitsValue 10 0 s), rest) := by
    induction blanks with
    | nil => exact strtoll_digits_append hne hdigits (by omega) hrest
    | cons b blanks ih =>
      obtain ⟨hb, hblanks⟩ := List.forall_mem_cons.mp hblanks
      have hpos := List.length_pos_iff.mpr hne
      rw [List.cons_append, strtoll_cons_space hb, ih hblanks]
      rw [ih hblanks]
      intro heq
      have hlength : rest.length = (blanks ++ (s ++ rest)).length := congrArg List.length heq
      rw [List.length_append, List.length_append] at hlength
      omega
  rw [atoi, hread]
  exact Int32.toInt_ofInt_of_le (by omega) (by omega)

@[simp] theorem signed_natCast (n : ℕ) : signed n = decimal n := by
  rw [signed, if_neg (by omega), Int.natAbs_natCast]

theorem signed_ne_nil (n : ℤ) : signed n ≠ [] := by
  rw [signed]
  split_ifs
  · nofun
  · exact decimal_ne_nil _

/-- A number is told by how it is written. -/
theorem signed_inj {m : ℤ} (hm : -2 ^ 63 ≤ m ∧ m < 2 ^ 63) (hn : -2 ^ 63 ≤ n ∧ n < 2 ^ 63)
    (h : signed m = signed n) : m = n := by
  have heq := congrArg strtoll h
  rw [strtoll_signed hm.1 hm.2, strtoll_signed hn.1 hn.2] at heq
  exact (Prod.mk.inj heq).1

/-- A number is written with digits and a minus sign. -/
theorem isDigit_of_mem_signed (h : c ∈ signed n) : c = 45 ∨ isDigit c = true := by
  rw [signed] at h
  split_ifs at h
  · rcases List.mem_cons.mp h with rfl | h
    · exact Or.inl rfl
    · exact Or.inr (isDigit_of_mem_decimal h)
  · exact Or.inr (isDigit_of_mem_decimal h)

/-- A number of 64 bits takes at most 20 bytes. -/
theorem length_signed_le (hn : -2 ^ 63 ≤ n ∧ n < 2 ^ 63) : (signed n).length ≤ 20 := by
  have hdecimal : (decimal n.natAbs).length ≤ 19 :=
    (length_decimal_le_iff (by decide)).mpr (by omega)
  rw [signed]
  split_ifs
  · exact Nat.succ_le_succ hdecimal
  · exact hdecimal.trans (by decide)

end BoatRudder
