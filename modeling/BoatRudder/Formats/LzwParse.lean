import BoatRudder.Formats.Lzw

/-! # Phrases of LZW

An encoder divides the pixels into phrases, each the longest string of the table that the rest begins
with, and adds the phrase with the pixel behind it; with no room for that it clears the table. Its
codes have the size that is enough for the strings of its table but the newest, which is what the
decoder has then, so whatever the pixels are, the codes are read back (`run_itemsFrom`). At the end the
decoder has that string too, and its end code may be one bit longer (`codeSize_pred`). -/

namespace BoatRudder.Lzw

variable {E : List (List ℕ)} {w : List ℕ}
variable (m : ℕ)

/-! ## The encoder -/

/-- The code of a phrase. -/
def codeOf (E : List (List ℕ)) (w : List ℕ) : ℕ :=
  match w with
  | [x] => x
  | w => firstFree m + E.idxOf w

/-- The size of a code with `n` strings in the table. -/
def putSize (n : ℕ) : ℕ := codeSize m (n - 1)

/-- The phrases of some pixels, with the table `E` and the beginning `w` of the first of them. -/
def parseFrom : List (List ℕ) → List ℕ → List ℕ → List (List ℕ)
  | _, w, [] => [w]
  | E, w, x :: xs =>
    if w ++ [x] ∈ E then parseFrom E (w ++ [x]) xs
    else w :: parseFrom (if E.length < room m then E ++ [w ++ [x]] else []) [x] xs

/-- The phrases of some pixels. -/
def parse : List ℕ → List (List ℕ)
  | [] => []
  | x :: xs => parseFrom m [] [x] xs

/-- The codes of the phrases, and the clear codes between them. -/
def itemsFrom : List (List ℕ) → List ℕ → List ℕ → List Item
  | E, w, [] => [(codeOf m E w, putSize m E.length)]
  | E, w, x :: xs =>
    if w ++ [x] ∈ E then itemsFrom E (w ++ [x]) xs
    else if E.length < room m then
      (codeOf m E w, putSize m E.length) :: itemsFrom (E ++ [w ++ [x]]) [x] xs
    else (codeOf m E w, putSize m E.length) :: (clearCode m, putSize m E.length) :: itemsFrom [] [x] xs

/-- The codes of some pixels. -/
def itemsOf : List ℕ → List Item
  | [] => []
  | x :: xs => itemsFrom m [] [x] xs

/-- How many strings are in the table at the end, when `k` phrases come with `n` strings in it. -/
def entriesAfter : ℕ → ℕ → ℕ
  | n, 0 => n
  | n, k + 1 => if k = 0 then n else entriesAfter (if n < room m then n + 1 else 0) k

/-- How many bits the codes of `k` phrases have that come with `n` strings in the table. -/
def bitsAfter : ℕ → ℕ → ℕ
  | _, 0 => 0
  | n, k + 1 =>
    putSize m n + if k = 0 then 0
      else if n < room m then bitsAfter (n + 1) k else putSize m n + bitsAfter 0 k

variable {m}

theorem parseFrom_ne_nil (E : List (List ℕ)) (w xs : List ℕ) : parseFrom m E w xs ≠ [] := by
  induction xs generalizing E w with
  | nil => exact List.cons_ne_nil _ _
  | cons x xs ih =>
    rw [parseFrom]
    split_ifs
    · exact ih _ _
    · exact List.cons_ne_nil _ _
    · exact List.cons_ne_nil _ _

/-- **The bits of the codes are told by the number of phrases.** -/
theorem length_bitsOf_itemsFrom (E : List (List ℕ)) (w xs : List ℕ) :
    (bitsOf (itemsFrom m E w xs)).length = bitsAfter m E.length (parseFrom m E w xs).length := by
  have hzero : ∀ E w xs, (parseFrom m E w xs).length ≠ 0 := fun E w xs h =>
    parseFrom_ne_nil E w xs (List.eq_nil_of_length_eq_zero h)
  induction xs generalizing E w with
  | nil => simp [itemsFrom, parseFrom, bitsAfter]
  | cons x xs ih =>
    rw [itemsFrom, parseFrom]
    split_ifs with hin hroom
    · exact ih E (w ++ [x])
    · rw [bitsOf_cons, List.length_append, length_lsbBits, ih, List.length_cons, bitsAfter,
        if_neg (hzero _ _ _), if_pos hroom, List.length_append, List.length_singleton]
    · rw [bitsOf_cons, bitsOf_cons, List.length_append, List.length_append, length_lsbBits,
        length_lsbBits, ih, List.length_cons, bitsAfter, if_neg (hzero _ _ _), if_neg hroom,
        List.length_nil]

theorem length_bitsOf_itemsOf (xs : List ℕ) :
    (bitsOf (itemsOf m xs)).length = bitsAfter m 0 (parse m xs).length := by
  cases xs with
  | nil => rfl
  | cons x xs => exact length_bitsOf_itemsFrom [] [x] xs

/-! ## Strings and codes -/

/-- A phrase that has a code: a pixel, or a string of the table. -/
def IsPhrase (E : List (List ℕ)) (w : List ℕ) : Prop :=
  (∃ x < 2 ^ m, w = [x]) ∨ w ∈ E ∧ 2 ≤ w.length

theorem IsPhrase.ne_nil (h : @IsPhrase m E w) : w ≠ [] := by
  rcases h with ⟨x, -, rfl⟩ | ⟨-, h⟩
  · exact List.cons_ne_nil _ _
  · rintro rfl
    simp at h

theorem codeOf_string (h : 2 ≤ w.length) : codeOf m E w = firstFree m + E.idxOf w := by
  match w with
  | x :: y :: w => rfl

theorem firstFree_eq : firstFree m = clearCode m + 2 := rfl

/-- The string of a code of the table. -/
theorem lookup_string (E : List (List ℕ)) (i : ℕ) : lookup m E (firstFree m + i) = E[i]? := by
  rw [lookup, if_neg (by rw [firstFree_eq]; omega), if_neg (by omega), Nat.add_sub_cancel_left]

/-- **The code of a phrase has its string.** -/
theorem lookup_codeOf (h : @IsPhrase m E w) : lookup m E (codeOf m E w) = some w := by
  rcases h with ⟨x, hx, rfl⟩ | ⟨hw, hlen⟩
  · rw [codeOf, lookup, if_pos (show x < clearCode m from hx)]
  · rw [codeOf_string hlen, lookup_string, List.getElem?_eq_getElem (List.idxOf_lt_length_of_mem hw),
      List.getElem_idxOf]

/-- What has a code: a pixel, or a string of the table. -/
theorem lookup_cases {c : ℕ} (h : lookup m E c = some w) :
    c < clearCode m ∧ w = [c] ∨ ∃ i, c = firstFree m + i ∧ E[i]? = some w := by
  rw [lookup] at h
  split_ifs at h with hpixel hfree
  · exact Or.inl ⟨hpixel, (Option.some.inj h).symm⟩
  · exact Or.inr ⟨c - firstFree m, by omega, h⟩

/-- A string more in the table leaves the codes as they are. -/
theorem lookup_append {c : ℕ} (h : lookup m E c = some w)
    (s : List ℕ) : lookup m (E ++ [s]) c = some w := by
  rcases lookup_cases h with ⟨hc, rfl⟩ | ⟨i, rfl, hi⟩
  · rw [lookup, if_pos hc]
  · rw [lookup_string, List.getElem?_append_left (List.getElem?_eq_some_iff.mp hi).1, hi]

/-- The code of a phrase is that of a pixel, or of a string of the table. -/
theorem codeOf_cases (h : @IsPhrase m E w) :
    codeOf m E w < clearCode m ∨ ∃ i < E.length, codeOf m E w = firstFree m + i := by
  rcases h with ⟨x, hx, rfl⟩ | ⟨hw, hlen⟩
  · exact Or.inl hx
  · exact Or.inr ⟨_, List.idxOf_lt_length_of_mem hw, codeOf_string hlen⟩

/-! ## Sizes -/

/-- One string more takes one bit more at most. -/
theorem codeSize_pred (n : ℕ) :
    codeSize m n = putSize m n ∨ codeSize m n = putSize m n + 1 := by
  have hmono : Nat.size (firstFree m + (n - 1)) ≤ Nat.size (firstFree m + n) :=
    Nat.size_le_size (by omega)
  have hstep : Nat.size (firstFree m + n) ≤ Nat.size (firstFree m + (n - 1)) + 1 := by
    have hlt := Nat.lt_size_self (firstFree m + (n - 1))
    rw [Nat.size_le, pow_succ]
    omega
  rw [putSize, codeSize, codeSize]
  omega

/-- How an encoder grows its code size: when the next code is too large for it. -/
theorem putSize_succ (n : ℕ) :
    putSize m (n + 1) =
      if 2 ^ putSize m n < firstFree m + n + 1 ∧ putSize m n < 12 then putSize m n + 1
      else putSize m n := by
  have hmono : Nat.size (firstFree m + (n - 1)) ≤ Nat.size (firstFree m + n) :=
    Nat.size_le_size (by omega)
  have hstep := @codeSize_pred m n
  have hlt : 2 ^ putSize m n < firstFree m + n + 1 ↔ putSize m n < Nat.size (firstFree m + n) := by
    rw [Nat.lt_size, Nat.lt_succ_iff]
  have hnext : putSize m (n + 1) = codeSize m n := by rw [putSize, Nat.add_sub_cancel]
  simp only [hlt, hnext]
  rw [putSize, codeSize, codeSize] at *
  split_ifs <;> omega

/-- A code of the table has the bits it needs. -/
theorem lt_two_pow_codeSize {n : ℕ} (hn : firstFree m + n < 4096) :
    firstFree m + n < 2 ^ codeSize m n := by
  have hlt := Nat.lt_size_self (firstFree m + n)
  have hsize : Nat.size (firstFree m + n) ≤ 12 := Nat.size_le.mpr hn
  refine hlt.trans_le (Nat.pow_le_pow_right (by decide) ?_)
  rw [codeSize]
  omega

/-- So have the codes of the pixels, the clear code and the end code. -/
theorem lt_two_pow_of_lt (hm : m ≤ 8) {c : ℕ} (hc : c < 2 ^ (m + 1)) (n : ℕ) : c < 2 ^ codeSize m n := by
  refine hc.trans_le (Nat.pow_le_pow_right (by decide) ?_)
  rw [codeSize]
  omega

/-- A full table is told to clear with the size its codes had. -/
theorem putSize_room (hm : m ≤ 8) : putSize m (room m) = codeSize m (room m) := by
  have hpow : 2 ^ m ≤ 2 ^ 8 := Nat.pow_le_pow_right (by decide) hm
  have hfull : firstFree m + room m = 4096 := by
    rw [room, firstFree]
    omega
  have hlast : firstFree m + (room m - 1) = 4095 := by
    rw [room, firstFree] at *
    omega
  rw [putSize, codeSize, codeSize, hfull, hlast, show Nat.size 4096 = 13 by decide,
    show Nat.size 4095 = 12 by decide]
  omega

/-! ## The codes are read back -/

/-- The decoder of an encoder that has the table `E` and the beginning `w` of a phrase: it lacks the
newest string, and will make it of the phrase before and the first pixel of this one. -/
def Synced (E : List (List ℕ)) (w : List ℕ) (d : Decoder) : Prop :=
  E = [] ∧ d = fresh ∨ ∃ S p, d = ⟨S, some p⟩ ∧ p ≠ [] ∧ E = S ++ [p ++ w.take 1]

/-- Behind a code the decoder has the encoder's table. -/
theorem synced_of_emitted (hw : w ≠ []) (x : ℕ) :
    Synced (E ++ [w ++ [x]]) [x] ⟨E, some w⟩ := Or.inr ⟨E, w, rfl, hw, rfl⟩

/-- **The code of a phrase is read**, also that of the string the decoder lacks. -/
theorem run_phrase (hm8 : m ≤ 8) {d : Decoder}
    (hd : Synced E w d) (hw : @IsPhrase m E w) (hroom : E.length ≤ room m) :
    Run m d [(codeOf m E w, putSize m E.length)] w ⟨E, some w⟩ := by
  have hpow : 2 ^ m ≤ 2 ^ 8 := Nat.pow_le_pow_right (by decide) hm8
  have hfree : firstFree m = 2 ^ m + 2 := rfl
  have hlookup := lookup_codeOf hw
  have hcases := codeOf_cases hw
  have hclear : codeOf m E w ≠ clearCode m := by
    rcases hcases with h | ⟨i, -, h⟩
    · exact h.ne
    · rw [h, firstFree_eq]
      omega
  have hend : codeOf m E w ≠ endCode m := by
    rcases hcases with h | ⟨i, -, h⟩
    · rw [clearCode] at h
      rw [endCode]
      omega
    · rw [h, endCode, hfree]
      omega
  have hfits : codeOf m E w < 2 ^ putSize m E.length := by
    rcases hcases with h | ⟨i, hi, h⟩
    · rw [clearCode] at h
      refine lt_two_pow_of_lt hm8 ?_ _
      rw [pow_succ]
      omega
    · have hsize := @lt_two_pow_codeSize m (E.length - 1) (by rw [room] at hroom; omega)
      rw [putSize, h]
      omega
  rcases hd with ⟨rfl, rfl⟩ | ⟨S, p, rfl, hp, rfl⟩
  · -- the first phrase behind a clear
    refine run_single rfl hfits hend ?_
    rw [step, if_neg hclear]
    show (lookup m [] (codeOf m [] w)).map _ = _
    rw [hlookup]
    rfl
  · have hlen : (S ++ [p ++ w.take 1]).length = S.length + 1 := by
      rw [List.length_append, List.length_singleton]
    have hstring : stringOf m ⟨S, some p⟩ p (codeOf m (S ++ [p ++ w.take 1]) w) = some w := by
      rw [stringOf]
      split_ifs with hnew
      · -- the string about to be added is the phrase itself, so it begins as the one before does
        rw [hnew, lookup_string, List.getElem?_append_right le_rfl, Nat.sub_self] at hlookup
        have heq : p ++ w.take 1 = w := Option.some.inj hlookup
        have htake : w.take 1 = p.take 1 := by
          conv_lhs => rw [← heq]
          exact List.take_append_of_le_length (List.length_pos_iff.mpr hp)
        rw [← htake, heq]
      · rcases hcases with h | ⟨i, hi, h⟩
        · rw [lookup, if_pos h] at hlookup ⊢
          exact hlookup
        · have hi' : i < S.length := by
            dsimp only at hnew
            rw [hlen] at hi
            omega
          rw [h, lookup_string] at hlookup ⊢
          rwa [List.getElem?_append_left hi'] at hlookup
    refine run_single ?_ hfits hend ?_
    · rw [putSize, hlen, Nat.add_sub_cancel]
    · rw [hlen] at hroom
      rw [step, if_neg hclear]
      dsimp only
      rw [hstring, Option.map_some, addString, if_pos (by omega)]

/-- The string that a phrase and the pixel behind it are. -/
theorem isPhrase_append (hw : w ≠ []) {x : ℕ} (h : w ++ [x] ∈ E) : @IsPhrase m E (w ++ [x]) := by
  have hpos := List.length_pos_iff.mpr hw
  refine Or.inr ⟨h, ?_⟩
  rw [List.length_append, List.length_singleton]
  omega

/-- **Whatever the pixels are, their codes are read back**, and the decoder then has the encoder's
table. -/
theorem run_itemsFrom (hm8 : m ≤ 8) {xs : List ℕ} (hxs : ∀ x ∈ xs, x < 2 ^ m) {d : Decoder}
    (hd : Synced E w d) (hw : @IsPhrase m E w)
    (hroom : E.length ≤ room m) : ∃ d', Run m d (itemsFrom m E w xs) (w ++ xs) d' ∧
      d'.strings.length = entriesAfter m E.length (parseFrom m E w xs).length := by
  induction xs generalizing E w d with
  | nil =>
    rw [List.append_nil, itemsFrom, parseFrom]
    exact ⟨⟨E, some w⟩, run_phrase hm8 hd hw hroom, rfl⟩
  | cons x xs ih =>
    obtain ⟨hx, hxs⟩ := List.forall_mem_cons.mp hxs
    have hphrase := run_phrase hm8 hd hw hroom
    have hpixel : ∀ E, @IsPhrase m E [x] := fun _ => Or.inl ⟨x, hx, rfl⟩
    have hzero : ∀ E w xs, (parseFrom m E w xs).length ≠ 0 := fun E w xs h =>
      parseFrom_ne_nil E w xs (List.eq_nil_of_length_eq_zero h)
    rw [itemsFrom, parseFrom]
    split_ifs with hin hfull
    · have hsame : Synced E (w ++ [x]) d := by
        have hpos := List.length_pos_iff.mpr hw.ne_nil
        rwa [Synced, List.take_append_of_le_length hpos]
      obtain ⟨d', hrun, hlen⟩ := ih hxs hsame (isPhrase_append hw.ne_nil hin) hroom
      rw [List.append_assoc] at hrun
      exact ⟨d', hrun, hlen⟩
    · have hroom' : (E ++ [w ++ [x]]).length ≤ room m := by
        rw [List.length_append, List.length_singleton]
        omega
      obtain ⟨d', hrun, hlen⟩ :=
        @ih (E ++ [w ++ [x]]) [x] hxs _ (synced_of_emitted hw.ne_nil x) (hpixel _) hroom'
      refine ⟨d', hphrase.append hrun, ?_⟩
      rw [hlen, List.length_cons, entriesAfter, if_neg (hzero _ _ _), if_pos hfull,
        List.length_append, List.length_singleton]
    · have heq : E.length = room m := le_antisymm hroom (not_lt.mp hfull)
      have hcleared : Run m ⟨E, some w⟩ [(clearCode m, putSize m E.length)] [] fresh := by
        refine run_single ?_ ?_ ?_ (by rw [step, if_pos rfl])
        · rw [heq, putSize_room hm8]
        · refine lt_two_pow_of_lt hm8 ?_ _
          exact Nat.pow_lt_pow_right (by decide) (Nat.lt_succ_self m)
        · rw [clearCode, endCode]
          omega
      obtain ⟨d', hrun, hlen⟩ := ih hxs (Or.inl ⟨rfl, rfl⟩) (hpixel []) (Nat.zero_le _)
      refine ⟨d', hphrase.append (hcleared.append hrun), ?_⟩
      rw [hlen, List.length_cons, entriesAfter, if_neg (hzero _ _ _), if_neg hfull, List.length_nil]

/-- The codes of all pixels, behind a clear code. -/
theorem run_itemsOf (hm8 : m ≤ 8) {xs : List ℕ} (hxs : ∀ x ∈ xs, x < 2 ^ m) :
    ∃ d, Run m fresh ((clearCode m, codeSize m 0) :: itemsOf m xs) xs d ∧
      d.strings.length = entriesAfter m 0 (parse m xs).length := by
  have hclear : Run m fresh [(clearCode m, codeSize m 0)] [] fresh := by
    refine run_single rfl ?_ ?_ (by rw [step, if_pos rfl])
    · exact lt_two_pow_of_lt hm8 (Nat.pow_lt_pow_right (by decide) (Nat.lt_succ_self m)) 0
    · rw [clearCode, endCode]
      omega
  cases xs with
  | nil => exact ⟨fresh, hclear, rfl⟩
  | cons x xs =>
    obtain ⟨hx, hxs⟩ := List.forall_mem_cons.mp hxs
    obtain ⟨d, hrun, hlen⟩ :=
      run_itemsFrom hm8 hxs (Or.inl ⟨rfl, rfl⟩) (Or.inl ⟨x, hx, rfl⟩) (Nat.zero_le _)
    exact ⟨d, hclear.append hrun, hlen⟩

end BoatRudder.Lzw
