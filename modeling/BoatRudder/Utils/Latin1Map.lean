import BoatRudder.Text.Traced
import BoatRudder.Text.Utf8Scan
import BoatRudder.Utils.EpochResponse

/-! # The transcode to Latin-1, character by character

`utf8_to_latin1` as it reads memory (`returns_utf8ToLatin1Loop`), and what it writes compared with a
map of the characters of the string. It goes by the pattern of a character alone: a pattern that is no
character - an overlong form, a surrogate, a code point that does not exist - is written as one byte
all the same, and that byte may be zero (`transcodesByChar_iff`). -/

namespace BoatRudder.Utils

/-! ## Reading -/

variable {a t x : Bytes} {b : UInt8}

/-- The tests `(p[k] & 0xC0) == 0x80` for `n` bytes from `i` on, each made only where the one before
holds. -/
def trailsAt (mem : Memory) : ℕ → ℕ → Traced ℕ Bool
  | 0, _ => pure true
  | n + 1, i => do
    let b ← readByte mem i
    if b &&& 0xC0 == 0x80 then trailsAt mem n (i + 1) else pure false

/-- The test of a branch: what it asks of the first byte, and of the `n` bytes behind it. -/
def branchTest (mem : Memory) (lead : Bool) (n i : ℕ) : Traced ℕ Bool :=
  if lead then trailsAt mem n (i + 1) else pure false

/-- One turn of the loop at `p = utf8 + i`: the byte that is written and how far `p` moves, nothing at
the end of the string. -/
def latin1Turn (mem : Memory) (i : ℕ) : Traced ℕ (Option (UInt8 × ℕ)) := do
  let p ← readByte mem i
  if p = 0 then pure none
  else if p < 0x80 then pure (some (p, 1))
  else do
    let two ← branchTest mem (p &&& 0xE0 == 0xC0) 1 i
    if two then do
      let q ← readByte mem (i + 1)
      let cp := (p &&& 0x1F).toNat * 64 + (q &&& 0x3F).toNat
      pure (some (if cp ≤ 0xFF then UInt8.ofNat cp else latin1Fallback, 2))
    else do
      let three ← branchTest mem (p &&& 0xF0 == 0xE0) 2 i
      if three then pure (some (latin1Fallback, 3))
      else do
        let four ← branchTest mem (p &&& 0xF8 == 0xF0) 3 i
        if four then pure (some (latin1Fallback, 4)) else pure (some (latin1Fallback, 1))

/-- The loop of `utf8_to_latin1` over memory. -/
def utf8ToLatin1Loop (mem : Memory) : ℕ → ℕ → Traced ℕ Bytes
  | 0, _ => Traced.fail
  | fuel + 1, i => do
    match ← latin1Turn mem i with
    | none => pure []
    | some (b, n) => do
      let out ← utf8ToLatin1Loop mem fuel (i + n)
      pure (b :: out)

/-- What a turn does, told from the string that is left. -/
def turnOf : Bytes → Option (UInt8 × ℕ)
  | [] => none
  | p :: s =>
    if p < 0x80 then some (p, 1)
    else if p &&& 0xE0 = 0xC0 ∧ isTrail s[0]? then
      let cp := (p &&& 0x1F).toNat * 64 + (s.headD 0 &&& 0x3F).toNat
      some (if cp ≤ 0xFF then UInt8.ofNat cp else latin1Fallback, 2)
    else if p &&& 0xF0 = 0xE0 ∧ isTrail s[0]? ∧ isTrail s[1]? then some (latin1Fallback, 3)
    else if p &&& 0xF8 = 0xF0 ∧ isTrail s[0]? ∧ isTrail s[1]? ∧ isTrail s[2]? then
      some (latin1Fallback, 4)
    else some (latin1Fallback, 1)

/-- The loop turn by turn. -/
theorem foldLatin1_eq (s : Bytes) : foldLatin1 s =
    match turnOf s with
    | none => []
    | some (b, n) => b :: foldLatin1 (s.drop n) := by
  cases s with
  | nil => rw [foldLatin1, turnOf]
  | cons p s =>
    rw [foldLatin1, turnOf]
    split_ifs <;> rfl

/-- A byte that continues a character stands in the string. -/
theorem lt_of_isTrail {s : Bytes} {k : ℕ} (h : isTrail s[k]? = true) : k < s.length := by
  by_contra hge
  rw [List.getElem?_eq_none (Nat.le_of_not_lt hge)] at h
  cases h

/-- A turn gets on, within the string. -/
theorem turnOf_bounds {s : Bytes} {n : ℕ} (h : turnOf s = some (b, n)) : 0 < n ∧ n ≤ s.length := by
  cases s with
  | nil => cases h
  | cons p s =>
    rw [turnOf] at h
    rw [List.length_cons]
    split_ifs at h with h1 h2 h3 h4 <;> cases h
    · omega
    · have := lt_of_isTrail h2.2
      omega
    · have := lt_of_isTrail h3.2.2
      omega
    · have := lt_of_isTrail h4.2.2.2
      omega
    · omega

/-- The bytes that continue a character end with the text, where the one behind it begins with none. -/
theorem trails_append {s b : Bytes} (hb : isTrail b.head? = false) (n : ℕ) :
    (∀ k < n, isTrail (s ++ b)[k]? = true) ↔ ∀ k < n, isTrail s[k]? = true := by
  constructor
  · intro h k hk
    rcases Nat.lt_or_ge k s.length with hlt | hge
    · have := h k hk
      rwa [List.getElem?_append_left hlt] at this
    · have := h s.length (hge.trans_lt hk)
      rw [List.getElem?_append_right le_rfl, Nat.sub_self, ← List.head?_eq_getElem?, hb] at this
      cases this
  · intro h k hk
    rw [List.getElem?_append_left (lt_of_isTrail (h k hk))]
    exact h k hk

/-- A turn ends in front of a byte that continues no character. -/
theorem turnOf_append {b : Bytes} (ha : a ≠ []) (hb : isTrail b.head? = false) :
    turnOf (a ++ b) = turnOf a := by
  obtain ⟨p, s, rfl⟩ := List.exists_cons_of_ne_nil ha
  have htrails := @trails_append s b hb
  have h1 : isTrail (s ++ b)[0]? = true ↔ isTrail s[0]? = true := by
    have := htrails 1
    simp only [Nat.forall_lt_succ_right, Nat.not_lt_zero, false_imp_iff, forall_const, true_and] at this
    exact this
  have h2 : isTrail s[0]? = true ∧ isTrail (s ++ b)[1]? = true ↔
      isTrail s[0]? = true ∧ isTrail s[1]? = true := by
    have := htrails 2
    simp only [Nat.forall_lt_succ_right, Nat.not_lt_zero, false_imp_iff, forall_const, true_and, h1] at this
    exact this
  have h3 : isTrail s[0]? = true ∧ isTrail (s ++ b)[1]? = true ∧ isTrail (s ++ b)[2]? = true ↔
      isTrail s[0]? = true ∧ isTrail s[1]? = true ∧ isTrail s[2]? = true := by
    have := htrails 3
    simp only [Nat.forall_lt_succ_right, Nat.not_lt_zero, false_imp_iff, forall_const, true_and, h1,
      and_assoc] at this
    exact this
  simp only [List.cons_append, turnOf, h1, h2, h3]
  by_cases htwo : p &&& 0xE0 = 0xC0 ∧ isTrail s[0]? = true
  · -- the byte that is read stands in the first text
    obtain ⟨c, s, rfl⟩ := List.exists_cons_of_length_pos (lt_of_isTrail htwo.2)
    rw [if_pos htwo, if_pos htwo]
    rfl
  · rw [if_neg htwo, if_neg htwo]

/-- **Two texts are folded one after the other** where the second begins with no byte that continues a
character. -/
theorem foldLatin1_append {b : Bytes} (hb : isTrail b.head? = false) :
    foldLatin1 (a ++ b) = foldLatin1 a ++ foldLatin1 b := by
  induction hlen : a.length using Nat.strong_induction_on generalizing a with
  | _ n ih =>
    rcases eq_or_ne a [] with rfl | ha
    · rw [foldLatin1]
      rfl
    · rw [foldLatin1_eq (a ++ b), turnOf_append ha hb, foldLatin1_eq a]
      cases hturn : turnOf a with
      | none =>
        obtain ⟨p, s, rfl⟩ := List.exists_cons_of_ne_nil ha
        rw [turnOf] at hturn
        split_ifs at hturn
      | some r =>
        obtain ⟨c, k⟩ := r
        obtain ⟨hpos, hle⟩ := turnOf_bounds hturn
        simp only
        rw [List.drop_append_of_le_length hle,
          ih (a.drop k).length (by rw [List.length_drop]; omega) rfl, List.cons_append]

/-- A byte of ASCII is kept. -/
theorem foldLatin1_cons {c : UInt8} (hc : c < 0x80) (s : Bytes) :
    foldLatin1 (c :: s) = c :: foldLatin1 s := by
  rw [foldLatin1, if_pos hc]

/-- ASCII is kept. -/
theorem foldLatin1_ascii (ht : ∀ b ∈ t, b < 128) : foldLatin1 t = t := by
  induction t with
  | nil => rw [foldLatin1]
  | cons c t ih =>
    rw [foldLatin1_cons (ht c List.mem_cons_self), ih fun b hb => ht b (List.mem_cons_of_mem _ hb)]

/-- A byte of ASCII is passed over by no turn. -/
theorem mem_foldLatin1 {c : UInt8} (hc : c < 0x80) {s : Bytes} (h : c ∈ s) : c ∈ foldLatin1 s := by
  have htrail : ∀ {s : Bytes}, isTrail s[0]? = true → c ∈ s → c ∈ s.drop 1 := by
    intro s hs hmem
    cases s with
    | nil => cases hmem
    | cons d s =>
      refine (List.mem_cons.mp hmem).resolve_left fun heq => ?_
      have hascii : ∀ n < 128, (UInt8.ofNat n &&& 0xC0 == 0x80) = false := by decide
      have := hascii c.toNat hc
      rw [UInt8.ofNat_toNat, heq] at this
      exact Bool.false_ne_true (this.symm.trans hs)
  have htrail2 : ∀ {s : Bytes}, isTrail s[0]? = true → isTrail s[1]? = true → c ∈ s → c ∈ s.drop 2 :=
    fun {s} h0 h1 hmem => by
      have := @htrail (s.drop 1) (by rwa [List.getElem?_drop]) (htrail h0 hmem)
      rwa [List.drop_drop] at this
  fun_induction foldLatin1 s with
  | case1 => cases h
  | case2 p s hp ih =>
    rcases List.mem_cons.mp h with rfl | hmem
    · exact List.mem_cons_self
    · exact List.mem_cons_of_mem _ (ih hmem)
  | case3 p s hp h2 cp ih =>
    have hmem := (List.mem_cons.mp h).resolve_left fun heq => hp (heq ▸ hc)
    exact List.mem_cons_of_mem _ (ih (htrail h2.2 hmem))
  | case4 p s hp h2 h3 ih =>
    have hmem := (List.mem_cons.mp h).resolve_left fun heq => hp (heq ▸ hc)
    exact List.mem_cons_of_mem _ (ih (htrail2 h3.2.1 h3.2.2 hmem))
  | case5 p s hp h2 h3 h4 ih =>
    have hmem := (List.mem_cons.mp h).resolve_left fun heq => hp (heq ▸ hc)
    have hlast := @htrail (s.drop 2) (by rw [List.getElem?_drop]; exact h4.2.2.2)
      (htrail2 h4.2.1 h4.2.2.1 hmem)
    rw [List.drop_drop] at hlast
    exact List.mem_cons_of_mem _ (ih hlast)
  | case6 p s hp h2 h3 h4 ih =>
    have hmem := (List.mem_cons.mp h).resolve_left fun heq => hp (heq ▸ hc)
    exact List.mem_cons_of_mem _ (ih hmem)

/-- The strings of two texts one after the other: the first one goes no further than its first NUL. -/
theorem utf8ToLatin1_append {b : Bytes} (hb : isTrail b.head? = false) : utf8ToLatin1 (a ++ b) =
      if 0 ∈ foldLatin1 a then utf8ToLatin1 a else foldLatin1 a ++ utf8ToLatin1 b := by
  rw [utf8ToLatin1, foldLatin1_append hb]
  split_ifs with hnul
  · obtain ⟨u, w, hsplit, hu⟩ := List.eq_append_cons_of_mem hnul
    rw [utf8ToLatin1, hsplit, List.append_assoc, List.cons_append, cstr, cstr, takeWhile_ne_append hu,
      takeWhile_ne_append hu]
  · exact cstr_append_of_notMem hnul _

section Reading

variable {i : ℕ}
variable {mem : Memory} {s : Bytes}

/-- The tests look no further than the NUL. -/
theorem returns_trailsAt (hmem : mem.HoldsString s) (n : ℕ) (hi : i ≤ s.length) :
    Traced.Returns (· ≤ s.length) (trailsAt mem n i)
      ((List.range n).all fun k => isTrail s[i + k]?) := by
  induction n generalizing i with
  | zero => exact Traced.returns_pure true
  | succ n ih =>
    have hbyte : isTrail s[i]? = (mem i &&& 0xC0 == 0x80) := by
      rw [hmem i hi, List.getD_eq_getElem?_getD]
      cases hget : s[i]? with
      | none => decide
      | some c => rfl
    rw [List.range_succ_eq_map, List.all_cons, List.all_map, Nat.add_zero i, hbyte]
    refine (@returns_readByte mem (· ≤ s.length) i hi).bind ?_
    by_cases htrail : (mem i &&& 0xC0 == 0x80) = true
    · -- the NUL is no byte that continues, so the next one is within the string
      have hlt : i < s.length := lt_of_isTrail (hbyte.trans htrail)
      rw [if_pos htrail, htrail, Bool.true_and]
      simpa [Function.comp_def, Nat.add_assoc, Nat.add_comm 1] using @ih (i + 1) hlt
    · rw [if_neg htrail, Bool.eq_false_iff.mpr htrail, Bool.false_and]
      exact Traced.returns_pure false

/-- **A turn looks no further than the NUL.** -/
theorem returns_latin1Turn (hmem : mem.HoldsString s) (hs : 0 ∉ s) (hi : i ≤ s.length) :
    Traced.Returns (· ≤ s.length) (latin1Turn mem i) (turnOf (s.drop i)) := by
  refine (@returns_readByte mem (· ≤ s.length) i hi).bind ?_
  rcases hi.eq_or_lt with rfl | hlt
  · have hnul : mem s.length = 0 := by rw [hmem _ le_rfl]; simp
    rw [hnul, if_pos rfl, List.drop_length]
    exact Traced.returns_pure none
  · have hp : mem i = s[i] := by
      rw [hmem i hi, List.getD_eq_getElem?_getD, List.getElem?_eq_getElem hlt, Option.getD_some]
    have hne : mem i ≠ 0 := by
      rw [hp]
      exact fun h => hs (h ▸ List.getElem_mem hlt)
    rw [if_neg hne, List.drop_eq_getElem_cons hlt, ← hp, turnOf]
    have hget : ∀ k, (s.drop (i + 1))[k]? = s[i + 1 + k]? := fun k => List.getElem?_drop
    have htrails : ∀ (lead : Bool) (n : ℕ), Traced.Returns (· ≤ s.length) (branchTest mem lead n i)
        (lead && (List.range n).all fun k => isTrail s[i + 1 + k]?) := by
      intro lead n
      cases lead with
      | true => exact returns_trailsAt hmem n hlt
      | false => exact Traced.returns_pure false
    by_cases hascii : mem i < 0x80
    · rw [if_pos hascii, if_pos hascii]
      exact Traced.returns_pure _
    · rw [if_neg hascii, if_neg hascii]
      simp only [hget]
      refine (htrails (mem i &&& 0xE0 == 0xC0) 1).bind ?_
      by_cases h2 : mem i &&& 0xE0 = 0xC0 ∧ isTrail s[i + 1 + 0]? = true
      · have hq : (s.drop (i + 1)).headD 0 = mem (i + 1) := by
          rw [hmem (i + 1) hlt, List.headD_eq_head?_getD, List.head?_drop,
            List.getD_eq_getElem?_getD]
        rw [if_pos h2, if_pos (by simpa using h2), hq]
        exact (@returns_readByte mem (· ≤ s.length) (i + 1) hlt).bind (Traced.returns_pure _)
      · rw [if_neg h2, if_neg (by simpa using h2)]
        refine (htrails (mem i &&& 0xF0 == 0xE0) 2).bind ?_
        by_cases h3 : mem i &&& 0xF0 = 0xE0 ∧ isTrail s[i + 1 + 0]? = true ∧
            isTrail s[i + 1 + 1]? = true
        · rw [if_pos h3, if_pos (by simpa [List.range_succ] using h3)]
          exact Traced.returns_pure _
        · rw [if_neg h3, if_neg (by simpa [List.range_succ] using h3)]
          refine (htrails (mem i &&& 0xF8 == 0xF0) 3).bind ?_
          by_cases h4 : mem i &&& 0xF8 = 0xF0 ∧ isTrail s[i + 1 + 0]? = true ∧
              isTrail s[i + 1 + 1]? = true ∧ isTrail s[i + 1 + 2]? = true
          · rw [if_pos h4, if_pos (by simpa [List.range_succ, and_assoc] using h4)]
            exact Traced.returns_pure _
          · rw [if_neg h4, if_neg (by simpa [List.range_succ, and_assoc] using h4)]
            exact Traced.returns_pure _

/-- **The loop ends, and reads nothing behind the NUL.** -/
theorem returns_utf8ToLatin1Loop (hmem : mem.HoldsString s) (hs : 0 ∉ s) (fuel : ℕ)
    (hi : i ≤ s.length) (hfuel : s.length < i + fuel) :
    Traced.Returns (· ≤ s.length) (utf8ToLatin1Loop mem fuel i) (foldLatin1 (s.drop i)) := by
  induction fuel generalizing i with
  | zero => omega
  | succ fuel ih =>
    refine (returns_latin1Turn hmem hs hi).bind ?_
    rw [foldLatin1_eq]
    cases hturn : turnOf (s.drop i) with
    | none => exact Traced.returns_pure []
    | some r =>
      obtain ⟨b, n⟩ := r
      obtain ⟨hpos, hle⟩ := turnOf_bounds hturn
      rw [List.length_drop] at hle
      have hrest := ih (i := i + n) (by omega) (by omega)
      rw [← List.drop_drop] at hrest
      exact hrest.bind (Traced.returns_pure _)

end Reading

/-! ## Patterns -/

/-- What is written for the pattern of a character. -/
def patternByte : Bytes → UInt8
  | [p] => p
  | [p, q] =>
    let cp := (p &&& 0x1F).toNat * 64 + (q &&& 0x3F).toNat
    if cp ≤ 0xFF then UInt8.ofNat cp else latin1Fallback
  | _ => latin1Fallback

/-- The tests of the first byte, one after the other, say how many bytes follow. -/
theorem trailCount_eq (b : UInt8) : trailCount b =
    if b < 0x80 then some 0
    else if b &&& 0xE0 = 0xC0 then some 1
    else if b &&& 0xF0 = 0xE0 then some 2
    else if b &&& 0xF8 = 0xF0 then some 3
    else none := by
  revert b
  decide +kernel

/-- Each of these tests alone says how many bytes follow. -/
theorem trailCount_lead (b : UInt8) : (b < 0x80 → trailCount b = some 0) ∧
    (b &&& 0xE0 = 0xC0 → trailCount b = some 1) ∧ (b &&& 0xF0 = 0xE0 → trailCount b = some 2) ∧
    (b &&& 0xF8 = 0xF0 → trailCount b = some 3) := by
  revert b
  decide +kernel

/-- A first byte with the bytes that are asked for behind it is a pattern. -/
theorem charPattern_take {s : Bytes} {n : ℕ} (hb : trailCount b = some n)
    (h : ∀ k < n, isTrail s[k]? = true) : CharPattern (b :: s.take n) := by
  have hlen : n ≤ s.length := by
    cases n with
    | zero => exact Nat.zero_le _
    | succ n => exact lt_of_isTrail (h n n.lt_succ_self)
  refine ⟨b, s.take n, rfl, by rw [List.length_take, Nat.min_eq_left hlen, hb], ?_⟩
  intro d hd
  obtain ⟨k, hk, rfl⟩ := List.mem_take_iff_getElem.mp hd
  have htrail := h k (by omega)
  rw [List.getElem?_eq_getElem (by omega)] at htrail
  rwa [← continues_eq_and]

/-- The bytes of a pattern stand where they are asked for. -/
theorem isTrail_append {u : Bytes} (hu : ∀ d ∈ u, continues d = true) {k : ℕ} (hk : k < u.length) :
    isTrail (u ++ t)[k]? = true := by
  rw [List.getElem?_append_left hk, List.getElem?_eq_getElem hk]
  exact (continues_eq_and _).trans (hu _ (List.getElem_mem hk))

/-- **A pattern is written as one byte.** -/
theorem turnOf_pattern (hx : CharPattern x) (t : Bytes) :
    turnOf (x ++ t) = some (patternByte x, x.length) := by
  obtain ⟨b, u, rfl, hb, hu⟩ := hx
  have htrail : ∀ {k}, k < u.length → isTrail (u ++ t)[k]? = true := isTrail_append hu
  rw [trailCount_eq] at hb
  rw [List.cons_append, turnOf]
  split_ifs at hb with h1 h2 h3 h4
  · have hu : u = [] := List.eq_nil_of_length_eq_zero (Option.some.inj hb).symm
    subst hu
    rw [if_pos h1]
    rfl
  · obtain ⟨q, rfl⟩ := List.length_eq_one_iff.mp (Option.some.inj hb).symm
    rw [if_neg h1, if_pos ⟨h2, htrail (by simp)⟩]
    rfl
  · obtain ⟨q, r, rfl⟩ := List.length_eq_two.mp (Option.some.inj hb).symm
    rw [if_neg h1, if_neg (fun h => h2 h.1), if_pos ⟨h3, htrail (by simp), htrail (by simp)⟩]
    rfl
  · obtain ⟨q, r, v, rfl⟩ := List.length_eq_three.mp (Option.some.inj hb).symm
    rw [if_neg h1, if_neg (fun h => h2 h.1), if_neg (fun h => h3 h.1),
      if_pos ⟨h4, htrail (by simp), htrail (by simp), htrail (by simp)⟩]
    rfl

/-- **Where no pattern begins, one byte is passed over.** -/
theorem turnOf_stray (hstray : ∀ x, CharPattern x → ¬ x <+: b :: t) :
    turnOf (b :: t) = some (latin1Fallback, 1) := by
  have hnone : ∀ n, trailCount b = some n → ¬ ∀ k < n, isTrail t[k]? = true := by
    intro n hb h
    exact hstray _ (charPattern_take hb h) (List.cons_prefix_cons.mpr ⟨rfl, List.take_prefix n t⟩)
  obtain ⟨h0, h1, h2, h3⟩ := trailCount_lead b
  rw [turnOf, if_neg fun h => ?_, if_neg fun h => ?_, if_neg fun h => ?_, if_neg fun h => ?_]
  · obtain ⟨hlead, hk0, hk1, hk2⟩ := h
    refine hnone 3 (h3 hlead) fun k hk => ?_
    obtain rfl | rfl | rfl : k = 0 ∨ k = 1 ∨ k = 2 := by omega
    · exact hk0
    · exact hk1
    · exact hk2
  · obtain ⟨hlead, hk0, hk1⟩ := h
    refine hnone 2 (h2 hlead) fun k hk => ?_
    obtain rfl | rfl : k = 0 ∨ k = 1 := by omega
    · exact hk0
    · exact hk1
  · refine hnone 1 (h1 h.1) fun k hk => ?_
    obtain rfl : k = 0 := by omega
    exact h.2
  · exact hnone 0 (h0 h) fun k hk => absurd hk k.not_lt_zero

/-- A pattern is folded to one byte. -/
theorem foldLatin1_pattern (hx : CharPattern x) (t : Bytes) :
    foldLatin1 (x ++ t) = patternByte x :: foldLatin1 t := by
  rw [foldLatin1_eq, turnOf_pattern hx]
  simp only [List.drop_left]

/-- A byte where no pattern begins is folded to the fallback. -/
theorem foldLatin1_stray (hstray : ∀ x, CharPattern x → ¬ x <+: b :: t) :
    foldLatin1 (b :: t) = latin1Fallback :: foldLatin1 t := by
  rw [foldLatin1_eq, turnOf_stray hstray]
  rfl

/-! ## Characters -/

/-- The byte of a character: its code point when Latin-1 has it. -/
def latin1Byte (c : Char) : UInt8 := if c.toNat ≤ 0xFF then UInt8.ofNat c.toNat else latin1Fallback

/-- **A character is written as it should be.** -/
theorem patternByte_utf8 (c : Char) : patternByte (String.utf8EncodeChar c) = latin1Byte c := by
  have htwo : ∀ n < 0x800,
      (UInt8.ofNat (n / 64 % 0x20 + 0xC0) &&& 0x1F).toNat * 64 +
        (UInt8.ofNat (n % 0x40 + 0x80) &&& 0x3F).toNat = n := by
    intro n hn
    have hfirst := Nat.and_two_pow_sub_one_eq_mod (n / 64 % 0x20 + 0xC0) 5
    have hsecond := Nat.and_two_pow_sub_one_eq_mod (n % 0x40 + 0x80) 6
    simp only [UInt8.toNat_and, UInt8.reduceToNat,
      toNat_ofNat_of_lt (show n / 64 % 0x20 + 0xC0 < 256 by omega),
      toNat_ofNat_of_lt (show n % 0x40 + 0x80 < 256 by omega)]
    simp only [Nat.reducePow, Nat.reduceSub] at hfirst hsecond
    omega
  rw [latin1Byte]
  rcases utf8EncodeChar_cases c with ⟨h, hc⟩ | ⟨-, h, hc⟩ | ⟨h, -, hc⟩ | ⟨h, hc⟩ <;> rw [hc]
  · rw [if_pos (by omega)]
    rfl
  · simp only [patternByte, htwo c.toNat (by omega)]
  · rw [if_neg (by omega)]
    rfl
  · rw [if_neg (by omega)]
    rfl

/-- A character other than NUL is not written as a zero. -/
theorem latin1Byte_ne_zero {c : Char} (h : 0 ∉ String.utf8EncodeChar c) :
    latin1Byte c ≠ 0 := by
  rw [latin1Byte]
  split_ifs with hsmall
  · intro h0
    have hnat := congrArg UInt8.toNat h0
    rw [toNat_ofNat_of_lt (by omega)] at hnat
    rcases utf8EncodeChar_cases c with ⟨-, hc⟩ | ⟨h1, -⟩ | ⟨h1, -⟩ | ⟨h1, -⟩
    · rw [hc, show c.toNat = 0 from hnat] at h
      exact h (List.mem_cons_self ..)
    all_goals
      rw [show c.toNat = 0 from hnat] at h1
      omega
  · decide

/-- A pattern of one byte is a character. -/
theorem exists_char_of_length_one (hx : CharPattern x) (h : x.length = 1) :
    ∃ c, x = String.utf8EncodeChar c := by
  obtain ⟨b, u, rfl, hb, -⟩ := hx
  obtain rfl : u = [] := by simpa using h
  have hascii : isAscii b = true := by
    rw [trailCount_eq] at hb
    split_ifs at hb with h1 <;> first | simpa [isAscii] using h1 | cases hb
  obtain ⟨cs, hcs⟩ := validUtf8_singleton hascii
  cases cs with
  | nil => cases hcs
  | cons c cs =>
    obtain ⟨d, v, hc, -⟩ := utf8EncodeChar_eq_cons c
    rw [List.flatMap_cons, hc, List.cons_append, List.cons.injEq] at hcs
    obtain ⟨hv, -⟩ := List.append_eq_nil_iff.mp hcs.2.symm
    exact ⟨c, by rw [hc, hcs.1, hv]⟩

/-- What looks like a character is one, everywhere in `s`. -/
def TrueChars (s : Bytes) : Prop :=
  ∀ x, CharPattern x → x <:+: s → ∃ c, x = String.utf8EncodeChar c

theorem trueChars_nil : TrueChars [] := fun _ hx h =>
  absurd (List.infix_nil.mp h) hx.ne_nil

theorem trueChars_pattern (hx : CharPattern x) :
    TrueChars (x ++ t) ↔ (∃ c, x = String.utf8EncodeChar c) ∧ TrueChars t := by
  constructor
  · intro h
    exact ⟨h x hx (List.prefix_append x t).isInfix,
      fun y hy hyt => h y hy ((hx.infix_append hy).mpr (Or.inr hyt))⟩
  · rintro ⟨hc, ht⟩ y hy hin
    rcases (hx.infix_append hy).mp hin with rfl | hyt
    · exact hc
    · exact ht y hy hyt

theorem trueChars_stray (hstray : ∀ x, CharPattern x → ¬ x <+: b :: t) :
    TrueChars (b :: t) ↔ TrueChars t :=
  forall₂_congr fun _ hy => by rw [CharPattern.infix_cons hstray hy]

/-- **Where all characters are true, the fold is the map of the characters.** -/
theorem foldLatin1_eq_mapChars {s : Bytes} (h : TrueChars s) :
    foldLatin1 s = mapChars latin1Byte latin1Fallback s := by
  induction s using pattern_induction with
  | nil => rw [foldLatin1, mapChars_nil]
  | pattern x t hx ih =>
    obtain ⟨⟨c, rfl⟩, ht⟩ := (trueChars_pattern hx).mp h
    rw [foldLatin1_pattern hx, patternByte_utf8, mapChars_char, ih ht]
  | stray b t hstray ih =>
    have ht := (trueChars_stray hstray).mp h
    rw [foldLatin1_stray hstray, mapChars_stray fun c => hstray _ (charPattern_utf8 c), ih ht]

/-- A false character is written as one byte and has more. -/
theorem length_foldLatin1 (s : Bytes) :
    (foldLatin1 s).length ≤ (mapChars latin1Byte latin1Fallback s).length ∧
      ((foldLatin1 s).length = (mapChars latin1Byte latin1Fallback s).length → TrueChars s) := by
  induction s using pattern_induction with
  | nil =>
    rw [foldLatin1, mapChars_nil]
    exact ⟨le_rfl, fun _ => trueChars_nil⟩
  | pattern x t hx ih =>
    rw [foldLatin1_pattern hx, List.length_cons, trueChars_pattern hx]
    by_cases hc : ∃ c, x = String.utf8EncodeChar c
    · obtain ⟨c, rfl⟩ := hc
      rw [mapChars_char, List.length_cons]
      exact ⟨by omega, fun h => ⟨⟨c, rfl⟩, ih.2 (by omega)⟩⟩
    · have htwo : 2 ≤ x.length := by
        have hpos := List.length_pos_iff.mpr hx.ne_nil
        have hone := mt (exists_char_of_length_one hx) hc
        omega
      rw [mapChars_falseChar hx (not_exists.mp hc), List.length_append, List.length_replicate]
      exact ⟨by omega, fun h => by omega⟩
  | stray b t hstray ih =>
    rw [foldLatin1_stray hstray, mapChars_stray fun c => hstray _ (charPattern_utf8 c),
      List.length_cons, List.length_cons, trueChars_stray hstray]
    exact ⟨by omega, fun h => ih.2 (by omega)⟩

/-- Where all characters are true, no zero is written for a string without one. -/
theorem zero_notMem_foldLatin1 {s : Bytes} (hs : 0 ∉ s) (h : TrueChars s) :
    0 ∉ foldLatin1 s := by
  induction s using pattern_induction with
  | nil => simp [foldLatin1]
  | pattern x t hx ih =>
    obtain ⟨⟨c, rfl⟩, ht⟩ := (trueChars_pattern hx).mp h
    obtain ⟨hc0, ht0⟩ := not_or.mp (mt List.mem_append.mpr hs)
    rw [foldLatin1_pattern hx, patternByte_utf8, List.mem_cons, not_or]
    exact ⟨(latin1Byte_ne_zero hc0).symm, ih ht0 ht⟩
  | stray b t hstray ih =>
    have ht0 := (not_or.mp (mt List.mem_cons.mpr hs)).2
    rw [foldLatin1_stray hstray, List.mem_cons, not_or]
    exact ⟨by decide, ih ht0 ((trueChars_stray hstray).mp h)⟩

/-! ## The law -/

/-- What `utf8_to_latin1` is to do on `s`. -/
structure TranscodesByChar (s : Bytes) : Prop where
  /-- It ends, and reads nothing beyond the NUL. -/
  reads : ∀ mem : Memory, mem.HoldsString s → ∀ fuel, s.length < fuel →
    Traced.Returns (· ≤ s.length) (utf8ToLatin1Loop mem fuel 0) (foldLatin1 s)
  /-- It writes one byte for each character, and one for each byte of none. -/
  map : foldLatin1 s = mapChars latin1Byte latin1Fallback s
  /-- Nothing of it is lost behind a zero. -/
  zero : 0 ∉ foldLatin1 s

/-- **The transcode is a map of the characters exactly where all that looks like one is one.** -/
theorem transcodesByChar_iff {s : Bytes} (hs : 0 ∉ s) :
    TranscodesByChar s ↔ TrueChars s := by
  constructor
  · intro h
    exact (length_foldLatin1 s).2 (congrArg List.length h.map)
  · intro h
    refine ⟨?_, foldLatin1_eq_mapChars h, zero_notMem_foldLatin1 hs h⟩
    intro mem hmem fuel hfuel
    exact returns_utf8ToLatin1Loop hmem hs fuel (Nat.zero_le _) (by omega)

/-- A letter of Spanish. -/
theorem transcodesByChar_enye : TranscodesByChar (String.utf8EncodeChar 'ñ') := by
  refine (transcodesByChar_iff (by decide)).mpr ?_
  have htrue := (trueChars_pattern (charPattern_utf8 'ñ')).mpr ⟨⟨'ñ', rfl⟩, trueChars_nil⟩
  rwa [List.append_nil] at htrue

/-- The overlong form of NUL is written as a zero. -/
theorem not_transcodesByChar_overlong : ¬ TranscodesByChar [0xC0, 0x80] := by
  intro h
  apply h.zero
  have hturn : turnOf [0xC0, 0x80] = some (0, 2) := by decide
  rw [foldLatin1_eq, hturn]
  exact List.mem_cons_self ..

end BoatRudder.Utils
