import Mathlib.Algebra.BigOperators.Group.List.Basic
import Mathlib.Algebra.Order.Ring.Int
import Mathlib.Data.List.Basic
import Mathlib.Data.List.TakeWhile
import Mathlib.Data.List.Infix

/-! # Byte strings in the C locale

The strings of C as lists of bytes without their terminator, with the character classes of the C
locale (`isalpha`, `isspace`, ...), comparison without case (`strcasecmp`), search for a substring
(`strstr`) and number formatting (`%d`). -/

namespace BoatRudder

variable {c : UInt8} {i : ℕ}

/-- A byte string, without a terminator. -/
abbrev Bytes := List UInt8

instance : LawfulBEq Bytes := inferInstanceAs (LawfulBEq (List UInt8))

/-- The bytes of an ASCII string literal. -/
def lit (s : String) : Bytes := s.toList.map (fun c => UInt8.ofNat c.toNat)

/-- What is asked of the bytes of a string is decided along the string, wherever else it might be. -/
instance (priority := high) decidableForallMem (s : Bytes) (p : UInt8 → Prop) [∀ b, Decidable (p b)] :
    Decidable (∀ b ∈ s, p b) := List.decidableBAll p s

/-- What is asked of all bytes is decided by the table of them. -/
instance (priority := low) decidableForallByte (p : UInt8 → Prop) [∀ b, Decidable (p b)] : Decidable (∀ b, p b) :=
  @decidable_of_iff _ (∀ n < 256, p (UInt8.ofNat n))
    ⟨fun h b => by simpa using h b.toNat b.toNat_lt, fun h n _ => h (UInt8.ofNat n)⟩
    (Nat.decidableBallLT 256 fun n _ => p (UInt8.ofNat n))

/-- What C sees of a buffer: the bytes before the first NUL. -/
def cstr (s : Bytes) : Bytes := s.takeWhile (· ≠ 0)

/-- A C string holds no NUL. -/
theorem zero_notMem_cstr (s : Bytes) : 0 ∉ cstr s := by
  intro h
  have := List.mem_takeWhile_imp h
  simp at this

variable {s : Bytes}

/-- A list of bytes without a NUL is a C string as it stands. -/
theorem cstr_eq_self (h : 0 ∉ s) : cstr s = s := by
  rw [cstr, List.takeWhile_eq_self_iff]
  intro b hb
  simpa using fun h0 : b = 0 => h (h0 ▸ hb)

variable {a : Bytes}

/-- A string without a NUL stays before the rest. -/
theorem cstr_append_of_notMem (h : 0 ∉ a) (s : Bytes) : cstr (a ++ s) = a ++ cstr s := by
  rw [cstr, List.takeWhile_append_of_pos]
  · rfl
  · exact fun c hc => by simpa using fun h0 : c = 0 => h (h0 ▸ hc)

/-- What follows a string with a NUL in it is not looked at. -/
theorem cstr_append_of_mem (h : 0 ∈ a) (s : Bytes) : cstr (a ++ s) = cstr a := by
  induction a with
  | nil => cases h
  | cons c a ih =>
    by_cases hc : c = 0
    · simp [cstr, hc]
    · have hmem : 0 ∈ a := (List.mem_cons.mp h).resolve_left (Ne.symm hc)
      rw [List.cons_append, cstr, cstr, List.takeWhile_cons_of_pos (by simpa using hc),
        List.takeWhile_cons_of_pos (by simpa using hc)]
      exact congrArg (c :: ·) (ih hmem)

/-! ## Character classes -/

/-- `isdigit`. -/
def isDigit (b : UInt8) : Bool := 48 ≤ b && b ≤ 57

/-- `isupper`. -/
def isUpper (b : UInt8) : Bool := 65 ≤ b && b ≤ 90

/-- `islower`. -/
def isLower (b : UInt8) : Bool := 97 ≤ b && b ≤ 122

/-- `isalpha`. -/
def isAlpha (b : UInt8) : Bool := isUpper b || isLower b

/-- `isalnum`. -/
def isAlnum (b : UInt8) : Bool := isAlpha b || isDigit b

/-- `isxdigit`. -/
def isXDigit (b : UInt8) : Bool := isDigit b || (65 ≤ b && b ≤ 70) || (97 ≤ b && b ≤ 102)

/-- `isspace`: blank, tab, line feed, vertical tab, form feed, carriage return. -/
def isSpace (b : UInt8) : Bool := b == 32 || (9 ≤ b && b ≤ 13)

/-- `tolower`. -/
def toLower (b : UInt8) : UInt8 := if isUpper b then b + 32 else b

/-- A string in lower case. -/
def lower (s : Bytes) : Bytes := s.map toLower

/-- `strcasecmp(a, b) == 0`. -/
def eqNoCase (a b : Bytes) : Bool := lower a == lower b

variable {b : Bytes}

theorem eqNoCase_iff : eqNoCase a b = true ↔ lower a = lower b := by
  simp [eqNoCase]

@[simp] theorem eqNoCase_refl (a : Bytes) : eqNoCase a a = true := by simp [eqNoCase]

theorem eqNoCase_comm (a b : Bytes) : eqNoCase a b = eqNoCase b a := by
  rw [Bool.eq_iff_iff, eqNoCase_iff, eqNoCase_iff, eq_comm]

/-- Strings are compared byte by byte. -/
theorem eqNoCase_cons_iff {a b : UInt8} {t : Bytes} :
    eqNoCase (a :: s) (b :: t) = true ↔ toLower a = toLower b ∧ eqNoCase s t = true := by
  simp [eqNoCase, lower]

/-- An upper-case letter has a lower-case one. -/
theorem isLower_add_32 (h : isUpper c = true) : isLower (c + 32) = true := by
  simp only [isUpper, isLower, Bool.and_eq_true, decide_eq_true_eq, UInt8.le_iff_toNat_le,
    UInt8.toNat_add] at h ⊢
  have h65 : UInt8.toNat 65 = 65 ∧ UInt8.toNat 90 = 90 ∧ UInt8.toNat 97 = 97 ∧
      UInt8.toNat 122 = 122 ∧ UInt8.toNat 32 = 32 := by decide
  omega

/-- Only a letter has another byte in lower case. -/
theorem eq_of_toLower_eq {d : UInt8} (h : toLower c = d) (hd : isAlpha d = false) : c = d := by
  unfold toLower at h
  split_ifs at h with hup
  · have hlower := isLower_add_32 hup
    rw [h] at hlower
    simp [isAlpha, hlower] at hd
  · exact h

/-- The value of a hexadecimal digit, or of a decimal one. -/
def digitValue (b : UInt8) : Option ℕ :=
  if isDigit b then some (b.toNat - 48)
  else if isUpper b then some (b.toNat - 55)
  else if isLower b then some (b.toNat - 87)
  else none

/-! ## Substrings -/

/-- `strstr`: where `pat` first occurs in `s`. -/
def findSub (pat : Bytes) : Bytes → Option ℕ
  | [] => if pat = [] then some 0 else none
  | c :: s => if pat.isPrefixOf (c :: s) then some 0 else (findSub pat s).map (· + 1)

variable {pat : Bytes}

/-- The place `findSub` returns is an occurrence, and no earlier place is. -/
theorem findSub_eq_some (h : findSub pat s = some i) :
    pat <+: s.drop i ∧ ∀ j < i, ¬ pat <+: s.drop j := by
  induction s generalizing i with
  | nil =>
    simp only [findSub] at h
    split at h
    · next hp =>
        obtain rfl : (0 : ℕ) = i := by simpa using h
        simp [hp]
    · cases h
  | cons c s ih =>
    simp only [findSub] at h
    split at h
    · next hp =>
        obtain rfl : (0 : ℕ) = i := by simpa using h
        exact ⟨by simpa using hp, by simp⟩
    · next hp =>
        obtain ⟨k, hk, rfl⟩ := Option.map_eq_some_iff.mp h
        obtain ⟨hpre, hmin⟩ := ih hk
        refine ⟨by simpa using hpre, ?_⟩
        intro j hj
        cases j with
        | zero => simpa using hp
        | succ j => simpa using hmin j (by omega)

/-- `findSub` finds nothing only where `pat` does not occur. -/
theorem findSub_eq_none (h : findSub pat s = none) (j : ℕ) : ¬ pat <+: s.drop j := by
  induction s generalizing j with
  | nil =>
    simp only [findSub] at h
    split at h
    · cases h
    · next hp => simpa using hp
  | cons c s ih =>
    simp only [findSub] at h
    split at h
    · cases h
    · next hp =>
        cases j with
        | zero => simpa using hp
        | succ j => simpa using ih (by simpa using h) j

/-- An occurrence lies inside the string. -/
theorem findSub_add_le (h : findSub pat s = some i) : i + pat.length ≤ s.length ∨ pat = [] := by
  obtain ⟨hpre, -⟩ := findSub_eq_some h
  have hle := hpre.length_le
  rw [List.length_drop] at hle
  by_cases hp : pat = []
  · exact Or.inr hp
  · have : 0 < pat.length := List.length_pos_iff.mpr hp
    exact Or.inl (by omega)

/-- A string is what stands before an occurrence, the occurrence, and what follows it. -/
theorem findSub_split (h : findSub pat s = some i) :
    s = s.take i ++ (pat ++ s.drop (i + pat.length)) := by
  obtain ⟨hpre, -⟩ := findSub_eq_some h
  obtain ⟨t, ht⟩ := hpre
  have hdrop : s.drop (i + pat.length) = t := by
    rw [← List.drop_drop, ← ht, List.drop_left]
  rw [hdrop, ht, List.take_append_drop]

/-- `findSub` finds nothing exactly where `pat` does not occur. -/
theorem findSub_eq_none_iff : findSub pat s = none ↔ ¬ pat <:+: s := by
  constructor
  · rintro h ⟨a, b, rfl⟩
    refine findSub_eq_none h a.length ?_
    rw [List.append_assoc, List.drop_left]
    exact List.prefix_append pat b
  · intro h
    cases hfind : findSub pat s with
    | none => rfl
    | some i => exact absurd ⟨_, _, by rw [List.append_assoc]; exact (findSub_split hfind).symm⟩ h

/-- What stands before the first occurrence holds no occurrence of more than a byte. -/
theorem not_infix_take_of_findSub (hpat : pat ≠ [])
    (h : findSub pat s = some i) : ¬ pat <:+: s.take i := by
  rintro ⟨a, b, hab⟩
  obtain ⟨-, hmin⟩ := findSub_eq_some h
  have hpos : 0 < pat.length := List.length_pos_iff.mpr hpat
  have hlen := congrArg List.length hab
  simp only [List.length_append, List.length_take] at hlen
  refine hmin a.length (by omega) ?_
  rw [← List.take_append_drop i s, ← hab, List.append_assoc, List.append_assoc, List.drop_left]
  exact List.prefix_append pat _

/-- An occurrence found stays the first one, whatever follows the string. -/
theorem findSub_append (h : findSub pat s = some i) (t : Bytes) :
    findSub pat (s ++ t) = some i := by
  induction s generalizing i with
  | nil =>
    simp only [findSub] at h
    split at h
    · next hp =>
        obtain rfl : (0 : ℕ) = i := by simpa using h
        cases t <;> simp [findSub, hp]
    · cases h
  | cons c s ih =>
    have hle := findSub_add_le h
    simp only [findSub] at h
    rw [List.cons_append, findSub]
    split at h
    · next hp =>
        have hpre : pat <+: c :: (s ++ t) :=
          (List.isPrefixOf_iff_prefix.mp hp).trans (List.prefix_append (c :: s) t)
        rw [if_pos (List.isPrefixOf_iff_prefix.mpr hpre)]
        exact h
    · next hp =>
        obtain ⟨k, hk, rfl⟩ := Option.map_eq_some_iff.mp h
        -- a match here would end inside the string, as the one found does
        have hno : ¬ pat.isPrefixOf (c :: (s ++ t)) = true := by
          intro hpre
          rcases hle with hle | hnil
          · exact hp (List.isPrefixOf_iff_prefix.mpr (List.prefix_of_prefix_length_le
              (List.isPrefixOf_iff_prefix.mp hpre) (List.prefix_append (c :: s) t) (by omega)))
          · exact hp (by simp [hnil])
        rw [if_neg hno, ih hk]
        rfl

/-- A string without the byte `c` occurs before a `c` or after it. -/
theorem infix_append_cons_iff (hc : c ∉ pat) : pat <:+: a ++ c :: b ↔ pat <:+: a ∨ pat <:+: b := by
  constructor
  · rintro ⟨x, y, h⟩
    rcases List.append_eq_append_iff.mp h with ⟨z, ha, -⟩ | ⟨z, hxp, hz⟩
    · exact Or.inl ⟨x, z, ha.symm⟩
    · cases z with
      | nil => exact Or.inl ⟨x, [], by simpa using hxp⟩
      | cons d z =>
        obtain ⟨rfl, rfl⟩ := List.cons.inj hz
        rcases List.append_eq_append_iff.mp hxp with ⟨w, -, hp⟩ | ⟨w, -, hw⟩
        · exact absurd (by rw [hp]; simp) hc
        · cases w with
          | nil => exact absurd (by rw [List.nil_append] at hw; rw [← hw]; simp) hc
          | cons e w =>
            obtain ⟨-, rfl⟩ := List.cons.inj hw
            exact Or.inr ⟨w, y, rfl⟩
  · rintro (h | h)
    · exact h.trans (List.prefix_append a _).isInfix
    · exact h.trans ((List.suffix_cons c b).isInfix.trans (List.suffix_append a _).isInfix)

/-- A string without the byte `c` that stands at the beginning ends before the first `c`. -/
theorem prefix_of_prefix_append_cons (hc : c ∉ pat) (h : pat <+: a ++ c :: b) : pat <+: a := by
  by_cases hle : pat.length ≤ a.length
  · exact List.prefix_of_prefix_length_le h (List.prefix_append a _) hle
  · have hcons : a ++ [c] <+: a ++ c :: b := ⟨b, by simp⟩
    have hlong := List.prefix_of_prefix_length_le hcons h (by simp; omega)
    exact absurd (hlong.subset (by simp)) hc

/-- A string without the byte `c` that stands after the first `c` is found there. -/
theorem findSub_append_cons_self (hc : c ∉ pat) (ha : ¬ pat <:+: a)
    (t : Bytes) : findSub pat (a ++ c :: (pat ++ t)) = some (a.length + 1) := by
  have hthere : pat <+: (a ++ c :: (pat ++ t)).drop (a.length + 1) := by
    rw [← List.drop_drop, List.drop_left]
    exact List.prefix_append pat t
  cases hfind : findSub pat (a ++ c :: (pat ++ t)) with
  | none => exact absurd hthere (findSub_eq_none hfind _)
  | some i =>
    obtain ⟨hpre, hmin⟩ := findSub_eq_some hfind
    have hle : i ≤ a.length + 1 := by
      by_contra hlt
      exact hmin _ (by omega) hthere
    have hge : ¬ i < a.length + 1 := by
      intro hlt
      apply ha
      -- an earlier occurrence cannot reach over the byte
      rw [List.drop_append_of_le_length (by omega)] at hpre
      exact (prefix_of_prefix_append_cons hc hpre).isInfix.trans (List.drop_suffix i a).isInfix
    rw [show i = a.length + 1 by omega]

/-- A search goes past a string without the first byte searched for. -/
theorem findSub_cons_append_of_notMem {p : Bytes} (ha : c ∉ a) (t : Bytes) :
    findSub (c :: p) (a ++ t) = (findSub (c :: p) t).map (· + a.length) := by
  induction a with
  | nil => simp
  | cons b a ih =>
    have hne : ¬ (c :: p).isPrefixOf (b :: (a ++ t)) = true := by
      rw [List.isPrefixOf_iff_prefix]
      rintro ⟨r, hr⟩
      exact ha (by rw [(List.cons.inj hr).1]; simp)
    rw [List.cons_append, findSub, if_neg hne, ih fun h => ha (List.mem_cons_of_mem b h),
      Option.map_map]
    rfl

/-- A string that ends in the byte `q`, and holds no other, is found at the first `q` exactly where
what stands before it ends in the rest of the string. -/
theorem findSub_append_singleton {k : Bytes} {q : UInt8} (hk : q ∉ k) (ha : q ∉ a) (t : Bytes) :
    findSub (k ++ [q]) (a ++ q :: t) = if k <:+ a then some (a.length - k.length)
      else (findSub (k ++ [q]) t).map (· + (a.length + 1)) := by
  -- an occurrence at the beginning ends at the first `q`
  have hstart : ∀ {a : Bytes}, q ∉ a → (k ++ [q] <+: a ++ q :: t ↔ k = a) := by
    intro a ha
    constructor
    · intro hpre
      have hka : k <+: a := prefix_of_prefix_append_cons hk
        ((List.prefix_append k [q]).trans hpre)
      obtain ⟨z, rfl⟩ := hka
      rw [List.append_assoc, List.prefix_append_right_inj] at hpre
      cases z with
      | nil => simp
      | cons b z =>
        obtain ⟨r, hr⟩ := hpre
        exact absurd (by rw [(List.cons.inj hr).1]; simp) ha
    · rintro rfl
      exact ⟨t, by simp⟩
  induction a with
  | nil =>
    have h0 := hstart (a := []) (by simp)
    rw [List.nil_append] at h0 ⊢
    rw [findSub]
    by_cases hk0 : k = []
    · rw [if_pos (List.isPrefixOf_iff_prefix.mpr (h0.mpr hk0)), if_pos (by simp [hk0])]
      simp
    · rw [if_neg (fun hp => hk0 (h0.mp (List.isPrefixOf_iff_prefix.mp hp))),
        if_neg (by simpa using hk0)]
      rfl
  | cons b a ih =>
    have hcons := hstart ha
    rw [List.cons_append] at hcons ⊢
    rw [findSub]
    by_cases hkba : k = b :: a
    · rw [if_pos (List.isPrefixOf_iff_prefix.mpr (hcons.mpr hkba)), if_pos (by simp [hkba])]
      simp [hkba]
    · rw [if_neg (fun hp => hkba (hcons.mp (List.isPrefixOf_iff_prefix.mp hp))),
        ih fun h => ha (List.mem_cons_of_mem b h)]
      have hsuffix : k <:+ b :: a ↔ k <:+ a := by
        rw [List.suffix_cons_iff]
        exact ⟨fun h => h.resolve_left hkba, Or.inr⟩
      by_cases hka : k <:+ a
      · rw [if_pos hka, if_pos (hsuffix.mpr hka), Option.map_some, List.length_cons,
          Nat.sub_add_comm hka.length_le]
      · rw [if_neg hka, if_neg (mt hsuffix.mp hka), Option.map_map]
        rfl

/-- Dropping a prefix leaves no more bytes than there were. -/
theorem length_dropWhile_le (p : UInt8 → Bool) (s : Bytes) : (s.dropWhile p).length ≤ s.length :=
  (List.dropWhile_suffix p).length_le

/-- What follows the first `c`; nothing when there is none (`memchr`, then past it). -/
def afterByte (c : UInt8) (s : Bytes) : Bytes := (s.dropWhile (· ≠ c)).drop 1

theorem length_afterByte_le (c : UInt8) (s : Bytes) : (afterByte c s).length ≤ s.length := by
  have := length_dropWhile_le (· ≠ c) s
  simp only [afterByte, List.length_drop]
  omega

/-- Up to a byte the string before it does not hold. -/
theorem takeWhile_ne_append (h : c ∉ s) (t : Bytes) : (s ++ c :: t).takeWhile (· ≠ c) = s := by
  rw [List.takeWhile_append_of_pos (by simpa using fun b hb => ne_of_mem_of_not_mem hb h)]
  simp

/-- From a byte the string before it does not hold. -/
theorem dropWhile_ne_append (h : c ∉ s) (t : Bytes) : (s ++ c :: t).dropWhile (· ≠ c) = c :: t := by
  rw [List.dropWhile_append_of_pos (by simpa using fun b hb => ne_of_mem_of_not_mem hb h)]
  simp

/-- Past a byte the string before it does not hold. -/
theorem afterByte_append (h : c ∉ s) (t : Bytes) : afterByte c (s ++ c :: t) = t := by
  rw [afterByte, dropWhile_ne_append h]
  rfl

/-- Up to a byte the string itself holds. -/
theorem takeWhile_ne_append_of_mem (h : c ∈ s) (t : Bytes) :
    (s ++ t).takeWhile (· ≠ c) = s.takeWhile (· ≠ c) := by
  induction s with
  | nil => cases h
  | cons b s ih =>
    by_cases hb : b = c
    · simp [hb]
    · have := ih ((List.mem_cons.mp h).resolve_left (Ne.symm hb))
      simpa [hb] using this

/-- Past a byte the string itself holds. -/
theorem afterByte_append_of_mem (h : c ∈ s) (t : Bytes) :
    afterByte c (s ++ t) = afterByte c s ++ t := by
  induction s with
  | nil => cases h
  | cons b s ih =>
    by_cases hb : b = c
    · simp [afterByte, hb]
    · have := ih ((List.mem_cons.mp h).resolve_left (Ne.symm hb))
      simpa [afterByte, hb] using this

/-- Past a byte only the second string holds. -/
theorem afterByte_append_of_notMem (h : c ∉ s) (t : Bytes) :
    afterByte c (s ++ t) = afterByte c t := by
  rw [afterByte, List.dropWhile_append_of_pos (by simpa using fun b hb => ne_of_mem_of_not_mem hb h)]
  rfl

/-- A string with a byte `c` in it goes on from there. -/
theorem takeWhile_afterByte (h : c ∈ s) : s.takeWhile (· ≠ c) ++ c :: afterByte c s = s := by
  induction s with
  | nil => cases h
  | cons b s ih =>
    by_cases hb : b = c
    · simp [afterByte, hb]
    · have := ih ((List.mem_cons.mp h).resolve_left (Ne.symm hb))
      simpa [afterByte, hb] using this

/-! ## Tokens and words -/

/-- `strtok_r`, called until nothing is left: the maximal runs of bytes that are not separators. -/
def strtok (sep : UInt8 → Bool) (s : Bytes) : List Bytes := (s.splitOnP sep).filter (· ≠ [])

@[simp] theorem strtok_nil (sep : UInt8 → Bool) : strtok sep [] = [] := by simp [strtok]

/-- A separator ends a token. -/
theorem strtok_append {sep : UInt8 → Bool} (hc : sep c = true) (a b : Bytes) :
    strtok sep (a ++ c :: b) = strtok sep a ++ strtok sep b := by
  rw [strtok, List.splitOnP_append_cons a b hc, List.filter_append]
  rfl

/-- A separator at the beginning is in no token. -/
theorem strtok_cons {sep : UInt8 → Bool} (hc : sep c = true) (b : Bytes) :
    strtok sep (c :: b) = strtok sep b := by
  simpa using strtok_append hc [] b

/-- Leading separators are in no token. -/
theorem strtok_dropWhile (sep : UInt8 → Bool) (s : Bytes) :
    strtok sep (s.dropWhile sep) = strtok sep s := by
  induction s with
  | nil => rfl
  | cons c s ih =>
    by_cases hc : sep c = true
    · rw [List.dropWhile_cons_of_pos hc, ih, strtok_cons hc]
    · rw [List.dropWhile_cons_of_neg hc]

/-- A run of bytes that are no separators is one token. -/
theorem strtok_of_forall {sep : UInt8 → Bool} {w : Bytes} (h : ∀ c ∈ w, sep c = false)
    (hne : w ≠ []) : strtok sep w = [w] := by
  have hsplit : w.splitOnP sep = [w] := List.splitOnP_eq_singleton fun c hc => by simp [h c hc]
  simp [strtok, hsplit, hne]

section Tokens

variable {sep : UInt8 → Bool}

/-- A token ends where a separator follows it, or nothing. -/
theorem strtok_append_of_forall {w t : Bytes} (h : ∀ c ∈ w, sep c = false) (hne : w ≠ [])
    (ht : ∀ c ∈ t.head?, sep c = true) : strtok sep (w ++ t) = w :: strtok sep t := by
  cases t with
  | nil => rw [List.append_nil, strtok_of_forall h hne, strtok_nil]
  | cons c t =>
    have hc : sep c = true := ht c (by simp)
    rw [strtok_append hc, strtok_of_forall h hne, strtok_cons hc]
    rfl

variable {s : Bytes}

/-- What is left behind the leading separators begins with the first token. -/
theorem exists_token (h : s.dropWhile sep ≠ []) :
    ∃ w t, s.dropWhile sep = w ++ t ∧ w ≠ [] ∧ (∀ c ∈ w, sep c = false) ∧
      (∀ c ∈ t.head?, sep c = true) ∧ strtok sep s = w :: strtok sep t := by
  obtain ⟨c, u, hu⟩ := List.exists_cons_of_ne_nil h
  have hc : sep c = false := by
    have hhead := List.head_dropWhile_not sep (l := s) h
    simpa [hu] using hhead
  let w := (s.dropWhile sep).takeWhile fun b => !sep b
  let t := (s.dropWhile sep).dropWhile fun b => !sep b
  have hsplit : s.dropWhile sep = w ++ t := (List.takeWhile_append_dropWhile).symm
  have hne : w ≠ [] := by simp [w, hu, hc]
  have hplain : ∀ b ∈ w, sep b = false := fun b hb => by simpa using List.mem_takeWhile_imp hb
  have hstop : ∀ b ∈ t.head?, sep b = true := by
    intro b hb
    have hhead := List.head?_dropWhile_not (fun b => !sep b) (s.dropWhile sep)
    rw [Option.mem_def] at hb
    rw [show ((s.dropWhile sep).dropWhile fun b => !sep b) = t from rfl, hb] at hhead
    simpa using hhead
  refine ⟨w, t, hsplit, hne, hplain, hstop, ?_⟩
  rw [← strtok_dropWhile, hsplit, strtok_append_of_forall hplain hne hstop]

/-- There is no token exactly where there are only separators. -/
theorem strtok_eq_nil_iff : strtok sep s = [] ↔ s.dropWhile sep = [] := by
  constructor
  · intro h
    by_contra hne
    obtain ⟨w, t, -, -, -, -, hcons⟩ := exists_token hne
    rw [h] at hcons
    cases hcons
  · intro h
    rw [← strtok_dropWhile, h, strtok_nil]

/-- The first token, with what stands before it and after it. -/
theorem of_strtok_eq_cons {w : Bytes} {ws : List Bytes} (h : strtok sep s = w :: ws) :
    ∃ t, s.dropWhile sep = w ++ t ∧ w ≠ [] ∧ (∀ c ∈ w, sep c = false) ∧
      (∀ c ∈ t.head?, sep c = true) ∧ strtok sep t = ws := by
  have hne : s.dropWhile sep ≠ [] := by
    intro hnil
    rw [strtok_eq_nil_iff.mpr hnil] at h
    cases h
  obtain ⟨w', t, hsplit, hw, hplain, hstop, hcons⟩ := exists_token hne
  rw [h] at hcons
  obtain ⟨rfl, rfl⟩ := List.cons_eq_cons.mp hcons
  exact ⟨t, hsplit, hw, hplain, hstop, rfl⟩

/-- **The tokens are all the bytes that are no separators**, in their order. -/
theorem flatten_strtok (s : Bytes) : (strtok sep s).flatten = s.filter fun c => !sep c := by
  induction hlen : s.length using Nat.strong_induction_on generalizing s with
  | _ n ih =>
    have hleading : (s.takeWhile sep).filter (fun c => !sep c) = [] := by
      rw [List.filter_eq_nil_iff]
      exact fun c hc => by simp [List.mem_takeWhile_imp hc]
    have hfilter : s.filter (fun c => !sep c) = (s.dropWhile sep).filter fun c => !sep c := by
      conv_lhs => rw [← List.takeWhile_append_dropWhile (p := sep) (l := s)]
      rw [List.filter_append, hleading, List.nil_append]
    rw [hfilter]
    by_cases hne : s.dropWhile sep = []
    · rw [strtok_eq_nil_iff.mpr hne, hne]
      rfl
    · obtain ⟨w, t, hsplit, hw, hplain, -, htokens⟩ := exists_token hne
      have hle := (List.dropWhile_suffix sep (l := s)).length_le
      have hpos : 0 < w.length := List.length_pos_iff.mpr hw
      rw [hsplit, List.length_append] at hle
      have hword : w.filter (fun c => !sep c) = w :=
        List.filter_eq_self.mpr fun c hc => by simp [hplain c hc]
      rw [htokens, hsplit, List.flatten_cons, List.filter_append, ih t.length (by omega) t rfl,
        hword]

end Tokens

/-- The words of a text: its maximal runs of bytes other than the blank. -/
def words (t : Bytes) : List Bytes := strtok (· == 32) t

@[simp] theorem words_nil : words [] = [] := strtok_nil _

/-- A blank separates words. -/
theorem words_append_blank (a b : Bytes) : words (a ++ 32 :: b) = words a ++ words b :=
  strtok_append rfl a b

@[simp] theorem words_blank_cons (b : Bytes) : words (32 :: b) = words b := strtok_cons rfl b

/-- A run of bytes other than the blank is one word. -/
theorem words_of_notMem {w : Bytes} (h : 32 ∉ w) (hne : w ≠ []) : words w = [w] :=
  strtok_of_forall (fun c hc => by simpa using fun h32 : c = 32 => h (h32 ▸ hc)) hne

/-- Leading blanks hold no word. -/
theorem words_dropWhile_blank (t : Bytes) : words (t.dropWhile (· == 32)) = words t :=
  strtok_dropWhile _ t

/-- A word ends where the text does, or before a blank. -/
theorem getElem?_length_takeWhile_word (t : Bytes) :
    t[(t.takeWhile (· ≠ 32)).length]? = none ∨ t[(t.takeWhile (· ≠ 32)).length]? = some 32 := by
  induction t with
  | nil => simp
  | cons c t ih =>
    by_cases hc : c = 32
    · simp [hc]
    · simpa [List.takeWhile_cons, hc] using ih

/-- What holds of the words of a text holds of the text, when a blank does no harm. -/
theorem of_words {P : Bytes → Prop} (hnil : P [])
    (hblank : ∀ a b, P a → P b → P (a ++ 32 :: b)) {t : Bytes} (ht : ∀ w ∈ words t, P w) : P t := by
  -- the induction goes from blank to blank
  induction hn : t.length using Nat.strong_induction_on generalizing t with
  | _ n ih =>
    have hword : ∀ w : Bytes, 32 ∉ w → (∀ v ∈ words w, P v) → P w := by
      intro w hw hwords
      by_cases hne : w = []
      · rwa [hne]
      · exact hwords w (by simp [words_of_notMem hw hne])
    by_cases hmem : 32 ∈ t
    · have hsplit := takeWhile_afterByte hmem
      have hnotMem : 32 ∉ t.takeWhile (· ≠ 32) := fun h => by
        simpa using List.mem_takeWhile_imp h
      rw [← hsplit, words_append_blank] at ht
      rw [← hsplit]
      refine hblank _ _ (hword _ hnotMem fun w hw => ht w (List.mem_append_left _ hw)) ?_
      refine ih (afterByte 32 t).length ?_ (fun w hw => ht w (List.mem_append_right _ hw)) rfl
      have := congrArg List.length hsplit
      rw [List.length_append, List.length_cons] at this
      omega
    · exact hword t hmem ht

/-- A cut at the end, or before a blank, keeps the words apart. -/
theorem words_take_append_drop {t : Bytes} (h : t[i]? = none ∨ t[i]? = some 32) :
    words t = words (t.take i) ++ words (t.drop i) := by
  rcases h with h | h
  · have hle : t.length ≤ i := List.getElem?_eq_none_iff.mp h
    rw [List.take_of_length_le hle, List.drop_of_length_le hle, words_nil, List.append_nil]
  · obtain ⟨hlt, hget⟩ := List.getElem?_eq_some_iff.mp h
    have hdrop : t.drop i = 32 :: t.drop (i + 1) := by
      rw [List.drop_eq_getElem_cons hlt, hget]
    conv_lhs => rw [← List.take_append_drop i t, hdrop]
    rw [words_append_blank, hdrop, words_blank_cons]

/-! ## Numbers -/

/-- The value of a run of digits of base `base`, most significant first, after `acc`. -/
def digitsValue (base acc : ℕ) (s : Bytes) : ℕ :=
  s.foldl (fun v b => v * base + (digitValue b).getD 0) acc

/-- Whether `b` is a digit of base `base`. -/
def isDigitOf (base : ℕ) (b : UInt8) : Bool :=
  match digitValue b with
  | some v => v < base
  | none => false

/-- `strtoul`: the value read from the start of `s`, and where it stops (at `s` itself when there
is no digit). A minus sign negates modulo `2^64`, and a value too large reads as `ULONG_MAX`. -/
def strtoul (base : ℕ) (s : Bytes) : ℕ × Bytes :=
  let t := s.dropWhile isSpace
  let negative := t.head? == some 45
  let t := if negative || t.head? == some 43 then t.drop 1 else t
  let t := if base == 16 && t.head? == some 48 && ((t.drop 1).head?.map toLower == some 120) &&
      ((t.drop 2).head?.any (isDigitOf 16)) then t.drop 2 else t
  let digits := t.takeWhile (isDigitOf base)
  if digits = [] then (0, s)
  else
    let v := digitsValue base 0 digits
    let v := if 2 ^ 64 ≤ v then 2 ^ 64 - 1 else if negative then (2 ^ 64 - v) % 2 ^ 64 else v
    (v, t.drop digits.length)

/-- The decimal digits of `n`, as `%d` and `%zu` write them. -/
def decimal (n : ℕ) : Bytes := (Nat.toDigits 10 n).map (fun c => UInt8.ofNat c.toNat)

/-- A decimal number is made of digits. -/
theorem isDigit_of_mem_decimal {n : ℕ} {b : UInt8} (h : b ∈ decimal n) : isDigit b = true := by
  obtain ⟨c, hc, rfl⟩ := List.mem_map.mp h
  have hdigit : c.isDigit = true := Nat.isDigit_of_mem_toDigits (by decide) (by decide) hc
  simp only [Char.isDigit, Bool.and_eq_true, decide_eq_true_eq] at hdigit
  have hlow : 48 ≤ c.toNat := UInt32.le_iff_toNat_le.mp hdigit.1
  have hhigh : c.toNat ≤ 57 := UInt32.le_iff_toNat_le.mp hdigit.2
  have hval : (UInt8.ofNat c.toNat).toNat = c.toNat := by
    rw [UInt8.toNat_ofNat']
    omega
  simp only [isDigit, Bool.and_eq_true, decide_eq_true_eq, UInt8.le_iff_toNat_le, hval]
  exact ⟨hlow, hhigh⟩

/-- The length of a decimal number. -/
theorem length_decimal_le_iff {n k : ℕ} (hk : 0 < k) : (decimal n).length ≤ k ↔ n < 10 ^ k := by
  rw [decimal, List.length_map]
  exact Nat.length_toDigits_le_iff (by decide) hk

end BoatRudder
