import BoatRudder.Text.Utf8
import Mathlib.Data.List.DropRight

/-! # Code points

A text in UTF-8 counted, and cut, by its code points: there are as many as bytes that continue none,
each takes at most four bytes, and a cut after some of them leaves two texts. -/

namespace BoatRudder

variable {s : Bytes}

/-- How many code points a text has. -/
def codePoints (s : Bytes) : ℕ := s.countP fun b => !continues b

@[simp] theorem codePoints_nil : codePoints [] = 0 := rfl

@[simp] theorem codePoints_append (a b : Bytes) : codePoints (a ++ b) = codePoints a + codePoints b :=
  List.countP_append

theorem codePoints_cons (b : UInt8) (s : Bytes) :
    codePoints (b :: s) = codePoints s + if continues b then 0 else 1 := by
  rw [codePoints, List.countP_cons]
  cases continues b <;> rfl

/-- Every byte of ASCII is one. -/
theorem codePoints_of_ascii (h : ∀ b ∈ s, isAscii b = true) : codePoints s = s.length :=
  List.countP_eq_length.mpr fun b hb => by simp [continues_of_isAscii (h b hb)]

theorem codePoints_of_continues (h : ∀ b ∈ s, continues b = true) : codePoints s = 0 :=
  List.countP_eq_zero.mpr fun b hb => by simp [h b hb]

/-- The first code points of a text. -/
def takeCodePoints : ℕ → Bytes → Bytes
  | 0, _ => []
  | _ + 1, [] => []
  | n + 1, b :: s => b :: (s.takeWhile continues ++ takeCodePoints n (s.dropWhile continues))

theorem takeCodePoints_begins (n : ℕ) (s : Bytes) : takeCodePoints n s <+: s := by
  induction n generalizing s with
  | zero => exact List.nil_prefix
  | succ n ih =>
    cases s with
    | nil => exact List.nil_prefix
    | cons b s =>
      obtain ⟨r, hr⟩ := ih (s.dropWhile continues)
      refine ⟨r, ?_⟩
      rw [takeCodePoints, List.cons_append, List.append_assoc, hr, List.takeWhile_append_dropWhile]

/-! ## Valid texts -/

/-- No text begins inside a character. -/
theorem ValidUtf8.head {b : UInt8} (h : ValidUtf8 (b :: s)) : continues b = false := by
  obtain ⟨cs, heq⟩ := h
  cases cs with
  | nil => cases heq
  | cons c cs =>
    obtain ⟨d, t, hc, hd, -⟩ := utf8EncodeChar_eq_cons c
    rw [List.flatMap_cons, hc, List.cons_append] at heq
    rw [(List.cons.inj heq).1]
    exact hd

/-- Each code point takes at most four bytes. -/
theorem ValidUtf8.length_le (h : ValidUtf8 s) : s.length ≤ 4 * codePoints s := by
  obtain ⟨cs, rfl⟩ := h
  induction cs with
  | nil => exact Nat.zero_le _
  | cons c cs ih =>
    have hlen : (String.utf8EncodeChar c).length ≤ 4 := by
      rcases utf8EncodeChar_cases c with ⟨-, heq⟩ | ⟨-, -, heq⟩ | ⟨-, -, heq⟩ | ⟨-, heq⟩ <;>
        simp [heq]
    have hone : codePoints (String.utf8EncodeChar c) = 1 := by
      obtain ⟨b, t, hc, hb, ht⟩ := utf8EncodeChar_eq_cons c
      rw [hc, codePoints_cons, hb, codePoints_of_continues ht]
      rfl
    rw [List.flatMap_cons, List.length_append, codePoints_append, hone]
    omega

theorem ValidUtf8.codePoints_pos (h : ValidUtf8 s) (hne : s ≠ []) : 0 < codePoints s := by
  have hlen := h.length_le
  have := List.length_pos_iff.mpr hne
  omega

/-- **A text is cut behind some of its code points.** -/
theorem ValidUtf8.takeCodePoints (h : ValidUtf8 s) (n : ℕ) :
    ValidUtf8 (takeCodePoints n s) ∧ ValidUtf8 (s.drop (takeCodePoints n s).length) ∧
      codePoints (takeCodePoints n s) = min n (codePoints s) := by
  induction n generalizing s with
  | zero => exact ⟨validUtf8_nil, h, by simp [BoatRudder.takeCodePoints]⟩
  | succ n ih =>
    cases s with
    | nil => exact ⟨validUtf8_nil, h, by simp [BoatRudder.takeCodePoints]⟩
    | cons b s =>
      have hb := h.head
      have hsplit : b :: s = (b :: s.takeWhile continues) ++ s.dropWhile continues := by
        rw [List.cons_append, List.takeWhile_append_dropWhile]
      have hstop : ∀ c ∈ (s.dropWhile continues).head?, continues c = false := by
        intro c hc
        have hnot := List.head?_dropWhile_not continues s
        rw [Option.mem_def.mp hc] at hnot
        simpa using hnot
      obtain ⟨hchar, hrest⟩ := ValidUtf8.cut (hsplit ▸ h) hstop
      obtain ⟨htake, hdrop, hcount⟩ := ih hrest
      have heq : BoatRudder.takeCodePoints (n + 1) (b :: s) = (b :: s.takeWhile continues) ++
          BoatRudder.takeCodePoints n (s.dropWhile continues) := rfl
      have hone : codePoints (b :: s.takeWhile continues) = 1 := by
        rw [codePoints_cons, hb, codePoints_of_continues fun c hc => List.mem_takeWhile_imp hc]
        rfl
      have hall : codePoints (b :: s) = 1 + codePoints (s.dropWhile continues) := by
        rw [hsplit, codePoints_append, hone]
      refine ⟨heq ▸ hchar.append htake, ?_, ?_⟩
      · rw [heq, List.length_append, hsplit, List.drop_length_add_append]
        exact hdrop
      · rw [heq, codePoints_append, hone, hcount, hall]
        omega

/-- The parts of a text between separators of ASCII are texts. -/
theorem ValidUtf8.splitOnP {sep : UInt8 → Bool} (hsep : ∀ b, sep b = true → isAscii b = true)
    (h : ValidUtf8 s) : ∀ t ∈ s.splitOnP sep, ValidUtf8 t := by
  induction hlen : s.length using Nat.strong_induction_on generalizing s with
  | _ n ih =>
    subst hlen
    by_cases hmem : ∃ b ∈ s, sep b = true
    · obtain ⟨b, hb, hsepb⟩ := hmem
      obtain ⟨u, v, rfl⟩ := List.append_of_mem hb
      obtain ⟨hu, hv⟩ := (validUtf8_append_cons (hsep b hsepb)).mp h
      intro t ht
      rw [List.splitOnP_append_cons u v hsepb, List.mem_append] at ht
      rcases ht with ht | ht
      · exact ih u.length (by simp) hu rfl t ht
      · exact ih v.length (by simp; omega) hv rfl t ht
    · push Not at hmem
      intro t ht
      rw [List.splitOnP_eq_singleton fun b hb => by simpa using hmem b hb, List.mem_singleton] at ht
      exact ht ▸ h

/-- A text without the ASCII bytes of a kind at its end. -/
theorem ValidUtf8.rdropWhile {p : UInt8 → Bool} (hp : ∀ b, p b = true → isAscii b = true)
    (h : ValidUtf8 s) : ValidUtf8 (s.rdropWhile p) := by
  induction s using List.reverseRecOn with
  | nil => exact h
  | append_singleton s b ih =>
    rw [List.rdropWhile_concat]
    split_ifs with hb
    · exact ih (ValidUtf8.cut h (by simpa using continues_of_isAscii (hp b hb))).1
    · exact h

end BoatRudder
