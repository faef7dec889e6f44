import BoatRudder.Text.Bytes

/-! # Verdicts on a stream that is still arriving

A reader looks at what has arrived of a stream again and again until that is enough for a verdict.
When a verdict, once reached, is the verdict on everything that goes on from there, it does not
matter how much had arrived at each look. -/

namespace BoatRudder

variable {α β : Type}

/-- A verdict that more of the stream does not change; `none` as long as more of it is needed. -/
def Stable (verdict : List α → Option β) : Prop :=
  ∀ {p s : List α}, p <+: s → ∀ {v : β}, verdict p = some v → verdict s = some v

/-- **The first verdict reached is the verdict on the whole stream**, whatever had arrived of it at
each look. -/
theorem Stable.findSome? {verdict : List α → Option β} (h : Stable verdict) {s : List α}
    {looks : List (List α)} (hlooks : ∀ p ∈ looks, p <+: s) :
    looks.findSome? verdict = none ∨ looks.findSome? verdict = verdict s := by
  induction looks with
  | nil => exact Or.inl rfl
  | cons p looks ih =>
    rw [List.findSome?_cons]
    cases hp : verdict p with
    | some v => exact Or.inr (h (hlooks p (by simp)) hp).symm
    | none => exact ih fun q hq => hlooks q (by simp [hq])

/-- A verdict is reached as soon as enough has arrived. -/
theorem Stable.findSome?_of_mem {verdict : List α → Option β} (h : Stable verdict) {s p : List α}
    {looks : List (List α)} (hlooks : ∀ q ∈ looks, q <+: s) (hp : p ∈ looks)
    (hverdict : verdict p = verdict s) : looks.findSome? verdict = verdict s := by
  rcases h.findSome? hlooks with hnone | hsome
  · rw [hnone, ← hverdict]
    exact (List.findSome?_eq_none_iff.mp hnone p hp).symm
  · exact hsome

/-! ## Looking for a pattern one item at a time

A reader of a stream that keeps only how much of a pattern the stream ends with, and on each item
takes that number to the next by a rule of its own. When the rule gives the longest beginning of the
pattern that what it already has, with the item, ends with, the reader stops right behind the first
occurrence, wherever the stream is cut. -/

variable {α : Type}

/-! ## How much of a pattern a stream ends with -/

/-- `m` is the length of the longest beginning of `pat` that `p` ends with. -/
structure Overlap (pat p : List α) (m : ℕ) : Prop where
  /-- It is a beginning of the pattern. -/
  le : m ≤ pat.length
  /-- The stream ends with it. -/
  suffix : pat.take m <:+ p
  /-- The stream ends with no longer one. -/
  longest : ∀ k ≤ pat.length, pat.take k <:+ p → k ≤ m

theorem Overlap.nil (pat : List α) : Overlap pat [] 0 := by
  refine ⟨Nat.zero_le _, by simp, ?_⟩
  intro k hk hsuffix
  have hlen := congrArg List.length (List.suffix_nil.mp hsuffix)
  rw [List.length_take, List.length_nil] at hlen
  omega

/-- All of the pattern overlaps exactly where the stream ends with it. -/
theorem Overlap.eq_length_iff {pat p : List α} {m : ℕ} (h : Overlap pat p m) :
    m = pat.length ↔ pat <:+ p := by
  constructor
  · intro hm
    have hsuffix := h.suffix
    rwa [hm, List.take_length] at hsuffix
  · intro hsuffix
    refine le_antisymm h.le (h.longest pat.length le_rfl ?_)
    rwa [List.take_length]

/-! ## The matcher -/

/-- A rule that takes the overlap with a pattern from one item to the next. -/
structure Matcher (pat : List α) where
  /-- The overlap after the item, by the one before it. -/
  next : ℕ → α → ℕ
  /-- The overlap after the item is one with the part of the pattern already seen and the item. -/
  overlap_next : ∀ m < pat.length, ∀ c, Overlap pat (pat.take m ++ [c]) (next m c)

variable {pat : List α} (M : Matcher pat)

/-- **One item.** The rule keeps the overlap with the whole stream. -/
theorem Matcher.overlap_concat {p : List α} {m : ℕ} (h : Overlap pat p m) (hm : m < pat.length)
    (c : α) : Overlap pat (p ++ [c]) (M.next m c) := by
  have hnext := M.overlap_next m hm c
  have hseen : pat.take m ++ [c] <:+ p ++ [c] := List.suffix_append_self_iff.mpr h.suffix
  refine ⟨hnext.le, hnext.suffix.trans hseen, ?_⟩
  intro k hk hsuffix
  cases k with
  | zero => exact Nat.zero_le _
  | succ k =>
    -- without its last item it is an ending of what came before, so no longer than the overlap
    have hk' : k < pat.length := hk
    have hpieces : pat.take (k + 1) = pat.take k ++ [pat[k]] := by
      rw [List.take_succ_eq_append_getElem hk']
    have hbefore : pat.take k <:+ p := by
      rcases List.suffix_concat_iff.mp hsuffix with hnil | ⟨t, ht, hsuffix⟩
      · rw [hpieces] at hnil
        exact absurd hnil (List.append_ne_nil_of_right_ne_nil _ (List.cons_ne_nil _ _))
      · rw [hpieces] at ht
        rwa [(List.append_inj' ht rfl).1]
    have hle : k ≤ m := h.longest k hk'.le hbefore
    refine hnext.longest (k + 1) hk (List.suffix_of_suffix_length_le hsuffix hseen ?_)
    simp only [List.length_take, List.length_append, List.length_singleton]
    omega

/-- Reads on until all of the pattern was seen: the overlap, and what is left of the input. -/
def Matcher.scan : ℕ → List α → ℕ × List α
  | m, [] => (m, [])
  | m, c :: s => if m < pat.length then Matcher.scan (M.next m c) s else (m, c :: s)

@[simp] theorem Matcher.scan_nil (m : ℕ) : M.scan m [] = (m, []) := rfl

theorem Matcher.scan_cons {m : ℕ} (hm : m < pat.length) (c : α) (s : List α) :
    M.scan m (c :: s) = M.scan (M.next m c) s := by
  rw [Matcher.scan, if_pos hm]

theorem Matcher.scan_of_le {m : ℕ} (hm : pat.length ≤ m) (s : List α) : M.scan m s = (m, s) := by
  cases s with
  | nil => rfl
  | cons c s => rw [Matcher.scan, if_neg (by omega)]

/-- Nothing is left of the input as long as the pattern was not seen. -/
theorem Matcher.scan_eq_nil {m : ℕ} {s : List α} (h : (M.scan m s).1 < pat.length) :
    (M.scan m s).2 = [] := by
  induction s generalizing m with
  | nil => rfl
  | cons c s ih =>
    by_cases hm : m < pat.length
    · rw [M.scan_cons hm] at h ⊢
      exact ih h
    · rw [M.scan_of_le (by omega)] at h
      exact absurd h hm

/-- **The input may be cut anywhere.** -/
theorem Matcher.scan_append (m : ℕ) (s t : List α) :
    M.scan m (s ++ t) =
      if (M.scan m s).1 < pat.length then M.scan (M.scan m s).1 t
      else ((M.scan m s).1, (M.scan m s).2 ++ t) := by
  induction s generalizing m with
  | nil =>
    by_cases hm : m < pat.length
    · rw [List.nil_append, M.scan_nil, if_pos hm]
    · rw [List.nil_append, M.scan_nil, if_neg hm, M.scan_of_le (by omega), List.nil_append]
  | cons c s ih =>
    by_cases hm : m < pat.length
    · rw [List.cons_append, M.scan_cons hm, M.scan_cons hm, ih]
    · rw [List.cons_append, M.scan_of_le (by omega), M.scan_of_le (by omega), if_neg hm,
        List.cons_append]

/-! ## The first occurrence -/

/-- No proper beginning of `p` ends with the pattern. -/
def Fresh (pat p : List α) : Prop := ∀ q, q <+: p → q ≠ p → ¬ pat <:+ q

theorem Fresh.concat {p : List α} (h : Fresh pat p) (hend : ¬ pat <:+ p) (c : α) :
    Fresh pat (p ++ [c]) := by
  intro q hq hne
  rcases List.prefix_concat_iff.mp hq with rfl | hq
  · exact absurd rfl hne
  · by_cases hqp : q = p
    · rwa [hqp]
    · exact h q hq hqp

/-- **A whole run.** The matcher stops with its overlap at a place that nothing before ends an
occurrence at: behind the pattern, or at the end of the input. -/
theorem Matcher.scan_spec {p : List α} {m : ℕ} (h : Overlap pat p m) (hfresh : Fresh pat p)
    (s : List α) :
    ∃ q, p ++ s = q ++ (M.scan m s).2 ∧ Overlap pat q (M.scan m s).1 ∧ Fresh pat q := by
  induction s generalizing p m with
  | nil => exact ⟨p, rfl, h, hfresh⟩
  | cons c s ih =>
    by_cases hm : m < pat.length
    · have hend : ¬ pat <:+ p := fun hsuffix => hm.ne (h.eq_length_iff.mpr hsuffix)
      obtain ⟨q, hq⟩ := ih (M.overlap_concat h hm c) (hfresh.concat hend c)
      rw [List.append_assoc, List.singleton_append] at hq
      rw [M.scan_cons hm]
      exact ⟨q, hq⟩
    · rw [M.scan_of_le (by omega)]
      exact ⟨p, rfl, h, hfresh⟩

/-- **The matcher finds the first occurrence**: what it leaves is what follows it, or nothing where
there is none. -/
theorem Matcher.scan_eq_findSub {pat : Bytes} (M : Matcher pat) (hpat : pat ≠ []) (s : Bytes) :
    (M.scan 0 s).2 =
      match findSub pat s with
      | some i => s.drop (i + pat.length)
      | none => [] := by
  have hnil : Fresh pat [] := fun q hq hne => absurd (List.prefix_nil.mp hq) hne
  obtain ⟨q, hq, hoverlap, hfresh⟩ := M.scan_spec (Overlap.nil pat) hnil s
  rw [List.nil_append] at hq
  have hpos : 0 < pat.length := List.length_pos_iff.mpr hpat
  -- an occurrence that ends before `q` does would end a proper beginning of `q`
  have hearliest {j : ℕ} (hj : pat <+: s.drop j) (hle : j + pat.length ≤ s.length) :
      q.length ≤ j + pat.length := by
    by_contra hlt
    obtain ⟨t, ht⟩ := hj
    have htake : s.take (j + pat.length) = s.take j ++ pat := by
      rw [List.take_add, ← ht, List.take_left]
    have hprefix : s.take (j + pat.length) <+: q := by
      refine List.prefix_of_prefix_length_le (List.take_prefix _ _) ?_ ?_
      · rw [hq]
        exact List.prefix_append _ _
      · rw [List.length_take]
        omega
    refine hfresh _ hprefix ?_ (htake ▸ List.suffix_append _ _)
    intro heq
    rw [← heq, List.length_take] at hlt
    omega
  by_cases hm : (M.scan 0 s).1 < pat.length
  · have hleft := M.scan_eq_nil hm
    rw [hleft, List.append_nil] at hq
    cases hfind : findSub pat s with
    | none => exact hleft
    | some i =>
      -- the occurrence would end where the input does, and the overlap would be all of it
      have hle := (findSub_add_le hfind).resolve_right hpat
      have hlast := hearliest (findSub_eq_some hfind).1 hle
      have hsplit := findSub_split hfind
      rw [List.drop_eq_nil_of_le (by rw [hq]; omega), List.append_nil] at hsplit
      refine absurd (hoverlap.eq_length_iff.mpr ?_) hm.ne
      rw [← hq, hsplit]
      exact List.suffix_append _ _
  · have hend : pat <:+ q := hoverlap.eq_length_iff.mp (le_antisymm hoverlap.le (by omega))
    obtain ⟨a, rfl⟩ := hend
    have hat : pat <+: s.drop a.length := by
      rw [hq, List.append_assoc, List.drop_left]
      exact List.prefix_append _ _
    cases hfind : findSub pat s with
    | none => exact absurd hat (findSub_eq_none hfind _)
    | some i =>
      obtain ⟨hpre, hmin⟩ := findSub_eq_some hfind
      have hle := (findSub_add_le hfind).resolve_right hpat
      have hge := hearliest hpre hle
      have hsame : i = a.length := by
        rw [List.length_append] at hge
        refine le_antisymm ?_ (by omega)
        by_contra hlt
        exact hmin a.length (by omega) hat
      have hdrop : s.drop (i + pat.length) = (M.scan 0 s).2 := by
        conv_lhs => rw [hq]
        rw [hsame, ← List.length_append, List.drop_left]
      exact hdrop.symm

end BoatRudder
