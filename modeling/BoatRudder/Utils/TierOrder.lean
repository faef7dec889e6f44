import BoatRudder.Text.Padded
import BoatRudder.Text.Utf8
import BoatRudder.Utils.UsableRules
import Mathlib.Data.List.MinMax
import Mathlib.Data.Prod.Lex

/-! # Classification and its definition

A classification told in numbers without a bound: the first rule that matches, and of its tiers the
one with the greatest version that the browser reaches. The loop over the tiers takes the first of
these, so their order counts where two of one version say different things
(`classifiesByDefinition_iff`). -/

namespace BoatRudder.Utils

/-! ## Version numbers -/

variable {r r' : BrowserRule} {t : BrowserTier} {i : ℕ}

/-- The number at the start, however long. -/
def leadingNumber (p : Bytes) : ℕ := digitsValue 10 0 (p.takeWhile isDigit)

/-- The major and the minor number of the version at the start, in that order of weight. -/
def versionNumbers (p : Bytes) : Option (ℕ ×ₗ ℕ) :=
  if startsDigit p then
    let last := p.dropWhile isDigit
    some (toLex (leadingNumber p,
      if startsVersionSep last && startsDigit (last.drop 1) then leadingNumber (last.drop 1) else 0))
  else none

/-- A number in a `long`. -/
def saturate (n : ℕ) : ℤ := min (2 ^ 63 - 1) n

/-- Version numbers in `long`s. -/
def saturated (n : ℕ ×ₗ ℕ) : Version := ⟨saturate (ofLex n).1, saturate (ofLex n).2⟩

theorem strtoll_of_startsDigit {p : Bytes} (h : startsDigit p = true) :
    strtoll p = (saturate (leadingNumber p), p.dropWhile isDigit) := by
  obtain ⟨b, s, rfl⟩ : ∃ b s, p = b :: s := by
    cases p with
    | nil => cases h
    | cons b s => exact ⟨b, s, rfl⟩
  have hb : isDigit b = true := h
  have hfirst : isSpace b = false ∧ b ≠ 45 ∧ b ≠ 43 := by
    simp only [isDigit, isSpace, Bool.and_eq_true, decide_eq_true_eq] at hb ⊢
    grind
  have h45 : (some b == some 45) = false := by simp [hfirst.2.1]
  have h43 : (some b == some 43) = false := by simp [hfirst.2.2]
  have hdrop : (b :: s).dropWhile isSpace = b :: s :=
    List.dropWhile_cons_of_neg (by simp [hfirst.1])
  have hne : (b :: s).takeWhile isDigit ≠ [] := by
    rw [List.takeWhile_cons_of_pos hb]
    exact List.cons_ne_nil _ _
  simp only [strtoll, hdrop, List.head?_cons, h45, h43, Bool.or_self, Bool.false_eq_true, if_false,
    if_neg hne, drop_length_takeWhile]
  rw [leadingNumber, saturate]
  congr 1
  omega

/-- What `parse_version` reads are the numbers, in `long`s. -/
theorem parseVersion_eq (p : Bytes) : parseVersion p = (versionNumbers p).map saturated := by
  rw [parseVersion, versionNumbers]
  split_ifs with hp
  · rw [strtoll_of_startsDigit hp, Option.map_some, saturated]
    simp only [ofLex_toLex]
    split_ifs with hminor
    · rw [strtoll_of_startsDigit (by simp only [Bool.and_eq_true] at hminor; exact hminor.2)]
    · rfl
  · rfl

/-- A number has no more digits than there are bytes. -/
theorem leadingNumber_lt (p : Bytes) : leadingNumber p < 10 ^ p.length :=
  (digitsValue_lt fun _ hb => List.mem_takeWhile_imp hb).trans_le
    (Nat.pow_le_pow_right (by decide) (List.takeWhile_prefix _).length_le)

/-- Numbers that fit a `long`. -/
def FitLong (n : ℕ ×ₗ ℕ) : Prop := (ofLex n).1 < 2 ^ 63 - 1 ∧ (ofLex n).2 < 2 ^ 63 - 1

theorem fitLong_of_length {p : Bytes} (hp : p.length < browserVersionMax) {n : ℕ ×ₗ ℕ}
    (h : versionNumbers p = some n) : FitLong n := by
  have hbound : ∀ q : Bytes, q.length ≤ p.length → leadingNumber q < 2 ^ 63 - 1 := by
    intro q hq
    have hpow : 10 ^ q.length ≤ 10 ^ 15 := by
      apply Nat.pow_le_pow_right (by decide)
      rw [browserVersionMax] at hp
      omega
    exact (leadingNumber_lt q).trans_le (hpow.trans (by decide))
  rw [versionNumbers] at h
  split_ifs at h
  cases h
  refine ⟨hbound p le_rfl, ?_⟩
  simp only [ofLex_toLex]
  split_ifs
  · apply hbound
    rw [List.length_drop]
    have := (List.dropWhile_suffix (isDigit) (l := p)).length_le
    omega
  · decide

/-- Cut at the largest `long`, a number is still ordered rightly against one that fits. -/
theorem saturate_lt_iff {a c : ℕ} (hc : c < 2 ^ 63 - 1) :
    (saturate a < saturate c ↔ a < c) ∧ (saturate a = saturate c ↔ a = c) := by
  simp only [saturate]
  omega

/-- **No version makes the comparison wrap**: against numbers that fit a `long` it is that of the
numbers themselves. -/
theorem versionCmp_saturated (m : ℕ ×ₗ ℕ) {n : ℕ ×ₗ ℕ} (hn : FitLong n) :
    versionCmp (saturated m) (saturated n) = compare m n := by
  obtain ⟨hltMajor, heqMajor⟩ := @saturate_lt_iff (ofLex m).1 _ hn.1
  obtain ⟨hltMinor, heqMinor⟩ := @saturate_lt_iff (ofLex m).2 _ hn.2
  rw [Prod.Lex.compare_def]
  simp only [versionCmp, saturated, compareLex, compareOn, ne_eq, hltMajor, heqMajor, hltMinor,
    heqMinor]
  rcases lt_trichotomy (ofLex m).1 (ofLex n).1 with hmajor | hmajor | hmajor
  · rw [if_pos hmajor.ne, if_pos hmajor, compare_lt_iff_lt.mpr hmajor]
    rfl
  · rw [if_neg (not_not.mpr hmajor), compare_eq_iff_eq.mpr hmajor]
    rcases lt_trichotomy (ofLex m).2 (ofLex n).2 with hminor | hminor | hminor
    · rw [if_pos hminor.ne, if_pos hminor, compare_lt_iff_lt.mpr hminor]
      rfl
    · rw [if_neg (not_not.mpr hminor), compare_eq_iff_eq.mpr hminor]
      rfl
    · rw [if_pos hminor.ne', if_neg hminor.not_gt, compare_gt_iff_gt.mpr hminor]
      rfl
  · rw [if_pos hmajor.ne', if_neg hmajor.not_gt, compare_gt_iff_gt.mpr hmajor]
    rfl

/-! ## The tier of a version -/

/-- The numbers of the version a tier begins with. -/
def BrowserTier.numbers (t : BrowserTier) : ℕ ×ₗ ℕ :=
  (versionNumbers t.fromVersion.text).getD (toLex (0, 0))

/-- What is read of the version of a tier that is valid. -/
theorem parseTierVersion_of_usable (h : t.Usable) :
    versionNumbers t.fromVersion.text = some t.numbers ∧
      parseTierVersion t.fromVersion.text = some (saturated t.numbers) ∧ FitLong t.numbers := by
  obtain ⟨v, hv⟩ := Option.isSome_iff_exists.mp h.version
  have hparse : parseVersion t.fromVersion.text = some v := by
    rw [parseTierVersion] at hv
    split at hv
    · cases hv
    · rename_i w hw
      rw [hw]
      dsimp only at hv
      split_ifs at hv <;> exact hv
  rw [parseVersion_eq] at hparse
  obtain ⟨n, hn, rfl⟩ := Option.map_eq_some_iff.mp hparse
  rw [BrowserTier.numbers, hn, Option.getD_some]
  exact ⟨rfl, hv, fitLong_of_length (CharBuf.length_text_lt h.hasNul) hn⟩

/-- The tiers a version reaches. -/
def reachedTiers (m : ℕ ×ₗ ℕ) (tiers : List BrowserTier) : List BrowserTier :=
  tiers.filter (·.numbers ≤ m)

/-- A tier with the version that is read of it. -/
def withVersion (t : BrowserTier) : BrowserTier × Version := (t, saturated t.numbers)

/-- A tier takes the place of the best when it is reached and higher. -/
theorem betterTier_of_usable (m : ℕ ×ₗ ℕ) {best : Option BrowserTier}
    (hbest : ∀ b ∈ best, b.Usable) (ht : t.Usable) :
    betterTier (saturated m) (best.map withVersion) t =
      (if t.numbers ≤ m then List.argAux (fun b c => c.numbers < b.numbers) best t
        else best).map withVersion := by
  obtain ⟨-, hparse, hfit⟩ := parseTierVersion_of_usable ht
  have hreached : versionCmp (saturated m) (saturated t.numbers) ≠ .lt ↔ t.numbers ≤ m := by
    rw [versionCmp_saturated m hfit, compare_ge_iff_ge]
  rw [betterTier, hparse]
  dsimp only
  by_cases hm : t.numbers ≤ m
  · rw [if_pos hm]
    cases best with
    | none =>
      rw [if_pos ⟨hreached.mpr hm, rfl⟩]
      rfl
    | some b =>
      have hhigher : versionCmp (saturated t.numbers) (saturated b.numbers) = .gt ↔
          b.numbers < t.numbers := by
        rw [versionCmp_saturated _ (parseTierVersion_of_usable (hbest b rfl)).2.2, compare_gt_iff_gt]
      by_cases hb : b.numbers < t.numbers
      · rw [if_pos ⟨hreached.mpr hm, by simpa [withVersion] using hhigher.mpr hb⟩]
        simp [List.argAux, hb, withVersion]
      · rw [if_neg fun h => hb (hhigher.mp (by simpa [withVersion] using h.2))]
        simp [List.argAux, hb]
  · rw [if_neg hm, if_neg fun h => hm (hreached.mp h.1)]

/-- **The loop over the tiers finds the first of the highest that are reached.** -/
theorem foldl_betterTier {tiers : List BrowserTier} (h : ∀ t ∈ tiers, t.Usable) (m : ℕ ×ₗ ℕ) :
    tiers.foldl (betterTier (saturated m)) none =
      ((reachedTiers m tiers).argmax BrowserTier.numbers).map withVersion := by
  suffices hfrom : ∀ best : Option BrowserTier, (∀ b ∈ best, b.Usable) →
      tiers.foldl (betterTier (saturated m)) (best.map withVersion) =
        ((reachedTiers m tiers).foldl (List.argAux fun b c => c.numbers < b.numbers) best).map
          withVersion from hfrom none nofun
  induction tiers with
  | nil => exact fun best _ => rfl
  | cons t tiers ih =>
    obtain ⟨ht, htiers⟩ := List.forall_mem_cons.mp h
    intro best hbest
    rw [List.foldl_cons, betterTier_of_usable m hbest ht, reachedTiers, List.filter_cons]
    by_cases hm : t.numbers ≤ m
    · rw [if_pos hm, if_pos (decide_eq_true hm), List.foldl_cons]
      apply ih htiers
      -- the best is the new tier or what it was
      intro b hb
      cases best with
      | none =>
        obtain rfl : t = b := by simpa [List.argAux] using hb
        exact ht
      | some c =>
        rw [List.argAux] at hb
        dsimp only at hb
        split_ifs at hb
        · obtain rfl : t = b := by simpa using hb
          exact ht
        · exact hbest b hb
    · rw [if_neg hm, if_neg (by simpa using hm)]
      exact ih htiers best hbest

/-! ## The definition -/

/-- A rule that matches a User-Agent. -/
def BrowserRule.Matches (r : BrowserRule) (ua : Bytes) : Prop :=
  r.enabled = true ∧ (∃ t ∈ r.contains, t.text <:+: ua) ∧ ∀ t ∈ r.excludes, ¬ t.text <:+: ua

/-- The first rule that matches. -/
def Picked (d : BrowserDetection) (ua : Bytes) (i : ℕ) (r : BrowserRule) : Prop :=
  d.rules[i]? = some r ∧ r.Matches ua ∧ ∀ j < i, ∀ q, d.rules[j]? = some q → ¬ q.Matches ua

/-- The version behind `version_after`. -/
def BrowserRule.versionRead (r : BrowserRule) (ua : Bytes) : Option (ℕ ×ₗ ℕ) :=
  if r.versionAfter.text = [] then none else (versionText r.versionAfter.text ua).bind versionNumbers

/-- A tier of the rule that the version reaches. -/
def BrowserRule.Reached (r : BrowserRule) (ua : Bytes) (t : BrowserTier) : Prop :=
  t ∈ r.tiers ∧ ∃ m, r.versionRead ua = some m ∧ t.numbers ≤ m

/-- One with the greatest version of those. -/
def BrowserRule.Highest (r : BrowserRule) (ua : Bytes) (t : BrowserTier) : Prop :=
  r.Reached ua t ∧ ∀ u, r.Reached ua u → u.numbers ≤ t.numbers

/-- **What a User-Agent is classified as.** -/
inductive Classified (d : BrowserDetection) (ua : Bytes) : BrowserMatch → Prop
  | tier {i : ℕ} {r : BrowserRule} {t : BrowserTier} (hpicked : Picked d ua i r)
      (hhighest : r.Highest ua t) : Classified d ua ⟨t.epoch, t.dashboard, i⟩
  | own {i : ℕ} {r : BrowserRule} (hpicked : Picked d ua i r) (hnone : ∀ t, ¬ r.Reached ua t) :
      Classified d ua ⟨r.epoch, r.dashboard, i⟩
  | fallback (hnone : ∀ i r, ¬ Picked d ua i r) : Classified d ua ⟨d.fallbackEpoch, false, -1⟩

variable {d : BrowserDetection} {ua : Bytes}

theorem ruleMatches_iff : ruleMatches ua r = true ↔ r.Matches ua := by
  have hfind : ∀ t : BrowserToken, (findSub t.text ua).isSome = true ↔ t.text <:+: ua := by
    intro t
    rw [← not_iff_not, Bool.not_eq_true, Option.isSome_eq_false_iff, Option.isNone_iff_eq_none,
      findSub_eq_none_iff]
  simp only [ruleMatches, containsAny, BrowserRule.Matches, Bool.and_eq_true, Bool.not_eq_true',
    List.any_eq_true, List.any_eq_false, hfind, and_assoc]

/-- The loop over the rules stops at the one that is picked. -/
theorem find?_zipIdx_eq_some :
    (d.rules.zipIdx.find? fun p => ruleMatches ua p.1) = some (r, i) ↔ Picked d ua i r := by
  rw [List.find?_eq_some_iff_getElem]
  constructor
  · rintro ⟨hr, k, hk, hget, hbefore⟩
    rw [List.getElem_zipIdx, Prod.mk.injEq, Nat.zero_add] at hget
    obtain ⟨rfl, rfl⟩ := hget
    rw [List.length_zipIdx] at hk
    refine ⟨List.getElem?_eq_getElem hk, ruleMatches_iff.mp hr, fun j hj q hq => ?_⟩
    obtain ⟨-, rfl⟩ := List.getElem?_eq_some_iff.mp hq
    have hno := hbefore j hj
    rw [List.getElem_zipIdx, Bool.not_eq_true', ← Bool.not_eq_true] at hno
    exact fun hmatch => hno (ruleMatches_iff.mpr hmatch)
  · rintro ⟨hget, hmatch, hbefore⟩
    obtain ⟨hi, rfl⟩ := List.getElem?_eq_some_iff.mp hget
    refine ⟨ruleMatches_iff.mpr hmatch, i, by rwa [List.length_zipIdx], ?_, fun j hj => ?_⟩
    · rw [List.getElem_zipIdx, Nat.zero_add]
    · rw [List.getElem_zipIdx, Bool.not_eq_true', ← Bool.not_eq_true, ruleMatches_iff]
      exact hbefore j hj _ (List.getElem?_eq_getElem (hj.trans hi))

theorem Picked.mem (h : Picked d ua i r) : r ∈ d.rules :=
  List.mem_of_getElem? h.1

/-- One rule is picked. -/
theorem Picked.unique {j : ℕ} {q : BrowserRule} (h : Picked d ua i r) (h' : Picked d ua j q) :
    i = j ∧ r = q := by
  have h1 := find?_zipIdx_eq_some.mpr h
  rw [find?_zipIdx_eq_some.mpr h', Option.some.injEq, Prod.mk.injEq] at h1
  exact ⟨h1.2.symm, h1.1.symm⟩

/-- The first of the highest tiers that are reached. -/
def BrowserRule.firstHighest (r : BrowserRule) (ua : Bytes) : Option BrowserTier :=
  (r.versionRead ua).bind fun m => (reachedTiers m r.tiers).argmax BrowserTier.numbers

theorem mem_reachedTiers {m : ℕ ×ₗ ℕ} (hm : r.versionRead ua = some m) : t ∈ reachedTiers m r.tiers
    ↔ r.Reached ua t := by
  rw [reachedTiers, List.mem_filter, decide_eq_true_iff, BrowserRule.Reached, hm]
  simp only [Option.some.injEq, exists_eq_left']

/-- It is one of the highest. -/
theorem highest_of_firstHighest (h : r.firstHighest ua = some t) : r.Highest ua t := by
  obtain ⟨m, hm, hmax⟩ := Option.bind_eq_some_iff.mp h
  exact ⟨(mem_reachedTiers hm).mp (List.argmax_mem hmax),
    fun u hu => List.le_of_mem_argmax ((mem_reachedTiers hm).mpr hu) hmax⟩

theorem not_reached_of_firstHighest (h : r.firstHighest ua = none)
    (t : BrowserTier) : ¬ r.Reached ua t := by
  intro ht
  obtain ⟨m, hm, -⟩ := ht.2
  rw [BrowserRule.firstHighest, hm, Option.bind_some, List.argmax_eq_none] at h
  have hmem := (mem_reachedTiers hm).mpr ht
  rw [h] at hmem
  cases hmem

/-- **A tier that is the first and one of the highest is the one.** -/
theorem firstHighest_of_head {tiers : List BrowserTier}
    (htiers : r.tiers = t :: tiers) (h : r.Highest ua t) : r.firstHighest ua = some t := by
  obtain ⟨m, hm, hle⟩ := h.1.2
  rw [BrowserRule.firstHighest, hm, Option.bind_some, List.argmax_eq_some_iff]
  refine ⟨(mem_reachedTiers hm).mpr h.1, fun u hu => h.2 u ((mem_reachedTiers hm).mp hu), ?_⟩
  intro u _ _
  rw [reachedTiers, htiers, List.filter_cons, if_pos (decide_eq_true hle), List.idxOf_cons_self]
  exact Nat.zero_le _

/-- A rule classifies by the first of the highest tiers, or by itself. -/
theorem classifyRule_eq (hr : r.Usable) (ua : Bytes) (i : ℤ) : classifyRule r ua i =
      match r.firstHighest ua with
      | some t => ⟨t.epoch, t.dashboard, i⟩
      | none => ⟨r.epoch, r.dashboard, i⟩ := by
  have hread : ((versionText r.versionAfter.text ua).bind parseVersion) =
      ((versionText r.versionAfter.text ua).bind versionNumbers).map saturated := by
    rw [Option.map_bind]
    exact congrArg _ (funext parseVersion_eq)
  rw [classifyRule, BrowserRule.firstHighest, BrowserRule.versionRead]
  by_cases hafter : r.versionAfter.text = []
  · rw [if_pos (Or.inl hafter), if_pos hafter]
    rfl
  · rw [if_neg hafter, hread]
    by_cases hnil : r.tiers = []
    · rw [if_pos (Or.inr hnil), hnil]
      cases (versionText r.versionAfter.text ua).bind versionNumbers <;> rfl
    · rw [if_neg (by tauto)]
      cases (versionText r.versionAfter.text ua).bind versionNumbers with
      | none => rfl
      | some m =>
        rw [Option.map_some, Option.bind_some]
        dsimp only
        rw [foldl_betterTier hr.tiers m]
        cases (reachedTiers m r.tiers).argmax BrowserTier.numbers <;> rfl

/-- **Every classification is by the definition.** -/
theorem classified_classify (hd : ∀ r ∈ d.rules, r.Usable) (userAgent : Option Bytes) :
    Classified d (userAgent.getD []) (browserDetectionClassify d userAgent) := by
  rw [browserDetectionClassify]
  cases hfind : d.rules.zipIdx.find? fun p => ruleMatches (userAgent.getD []) p.1 with
  | none =>
    apply Classified.fallback
    intro i r hpicked
    rw [find?_zipIdx_eq_some.mpr hpicked] at hfind
    cases hfind
  | some p =>
    obtain ⟨r, i⟩ := p
    have hpicked := find?_zipIdx_eq_some.mp hfind
    dsimp only
    rw [classifyRule_eq (hd r hpicked.mem)]
    cases hhighest : r.firstHighest (userAgent.getD []) with
    | none => exact Classified.own hpicked (not_reached_of_firstHighest hhighest)
    | some t => exact Classified.tier hpicked (highest_of_firstHighest hhighest)

/-! ## The order of the tiers -/

/-- The highest tiers that are reached say the same. -/
def TiesAgree (d : BrowserDetection) (ua : Bytes) : Prop :=
  ∀ i r, Picked d ua i r → ∀ t u, r.Highest ua t → r.Highest ua u →
    t.epoch = u.epoch ∧ t.dashboard = u.dashboard

/-- Where they do, a User-Agent is classified in one way. -/
theorem Classified.unique (hties : TiesAgree d ua) {m m' : BrowserMatch} (h : Classified d ua m)
    (h' : Classified d ua m') : m = m' := by
  cases h with
  | @tier i r t hpicked ht =>
    cases h' with
    | @tier j q u hpicked' hu =>
      obtain ⟨rfl, rfl⟩ := hpicked.unique hpicked'
      obtain ⟨hepoch, hdashboard⟩ := hties i r hpicked t u ht hu
      rw [hepoch, hdashboard]
    | own hpicked' hnone =>
      obtain ⟨rfl, rfl⟩ := hpicked.unique hpicked'
      exact absurd ht.1 (hnone t)
    | fallback hnone => exact absurd hpicked (hnone _ _)
  | @own i r hpicked hnone =>
    cases h' with
    | @tier j q u hpicked' hu =>
      obtain ⟨rfl, rfl⟩ := hpicked.unique hpicked'
      exact absurd hu.1 (hnone u)
    | own hpicked' _ =>
      obtain ⟨rfl, rfl⟩ := hpicked.unique hpicked'
      rfl
    | fallback hnone' => exact absurd hpicked (hnone' _ _)
  | fallback hnone =>
    cases h' with
    | tier hpicked => exact absurd hpicked (hnone _ _)
    | own hpicked => exact absurd hpicked (hnone _ _)
    | fallback => rfl

/-- The same rule, its tiers in another order. -/
def Reordered (r r' : BrowserRule) : Prop := r.tiers.Perm r'.tiers ∧ r' = { r with tiers := r'.tiers }

theorem Reordered.symm (h : Reordered r r') : Reordered r' r := by
  obtain ⟨hperm, heq⟩ := h
  refine ⟨hperm.symm, ?_⟩
  rw [heq]

theorem forall₂_reordered_symm {rules rules' : List BrowserRule}
    (h : List.Forall₂ Reordered rules rules') : List.Forall₂ Reordered rules' rules :=
  (h.imp fun _ _ hr => Reordered.symm hr).flip

theorem Reordered.highest (h : Reordered r r') :
    (r'.Reached ua t ↔ r.Reached ua t) ∧ (r'.Highest ua t ↔ r.Highest ua t) := by
  obtain ⟨hperm, heq⟩ := h
  have hread : r'.versionRead ua = r.versionRead ua := by rw [heq]; rfl
  have hreached : ∀ u, r'.Reached ua u ↔ r.Reached ua u := fun u => by
    rw [BrowserRule.Reached, BrowserRule.Reached, hread, hperm.mem_iff]
  simp only [BrowserRule.Highest, hreached, true_and]

theorem Reordered.matches_iff (h : Reordered r r') : r'.Matches ua ↔ r.Matches ua := by
  rw [h.2]
  rfl

theorem Reordered.usable (h : Reordered r r') (hr : r.Usable) : r'.Usable := by
  obtain ⟨hperm, heq⟩ := h
  rw [heq]
  exact ⟨hr.name, hr.contains_ne_nil, hr.contains, hr.excludes, hr.versionAfter, hr.epoch,
    hperm.length_eq ▸ hr.length_tiers,
    fun hne => hr.versioned fun hnil => hne (List.nil_perm.mp (hnil ▸ hperm)),
    fun t ht => hr.tiers t (hperm.mem_iff.mpr ht)⟩

/-- The same rule is picked. -/
theorem picked_of_reordered {rules' : List BrowserRule}
    (h : List.Forall₂ Reordered d.rules rules') {i : ℕ} {r' : BrowserRule}
    (hpicked : Picked { d with rules := rules' } ua i r') : ∃ r, Reordered r r' ∧ Picked d ua i r := by
  obtain ⟨hlen, hall⟩ := List.forall₂_iff_get.mp h
  obtain ⟨hget, hmatch, hbefore⟩ := hpicked
  obtain ⟨hi, rfl⟩ := List.getElem?_eq_some_iff.mp hget
  have hi' : i < d.rules.length := by rwa [hlen]
  have hr := hall i hi' hi
  refine ⟨_, hr, List.getElem?_eq_getElem hi', hr.matches_iff.mp hmatch, ?_⟩
  intro j hj q hq hmatchq
  obtain ⟨hlt, rfl⟩ := List.getElem?_eq_some_iff.mp hq
  exact hbefore j hj _ (List.getElem?_eq_getElem (hlen ▸ hlt))
    ((hall j hlt (hlen ▸ hlt)).matches_iff.mpr hmatchq)

/-- **An order of the tiers is nothing to the definition.** -/
theorem classified_of_reordered {rules' : List BrowserRule}
    (h : List.Forall₂ Reordered d.rules rules') {m : BrowserMatch}
    (hm : Classified { d with rules := rules' } ua m) : Classified d ua m := by
  cases hm with
  | tier hpicked hhighest =>
    obtain ⟨r, hr, hpicked⟩ := picked_of_reordered h hpicked
    exact Classified.tier hpicked (hr.highest.2.mp hhighest)
  | @own i r' hpicked hnone =>
    obtain ⟨r, hr, hpicked⟩ := picked_of_reordered h hpicked
    have hown : r'.epoch = r.epoch ∧ r'.dashboard = r.dashboard := by
      rw [hr.2]
      exact ⟨rfl, rfl⟩
    rw [hown.1, hown.2]
    exact Classified.own hpicked fun t ht => hnone t (hr.highest.1.mpr ht)
  | fallback hnone =>
    apply Classified.fallback
    intro i r hpicked
    obtain ⟨r', -, hpicked'⟩ := @picked_of_reordered { d with rules := rules' } ua d.rules
      (forall₂_reordered_symm h) i r hpicked
    exact hnone i r' hpicked'

theorem classify_of_picked {userAgent : Option Bytes} (h : Picked d (userAgent.getD []) i r) :
    browserDetectionClassify d userAgent = classifyRule r (userAgent.getD []) i := by
  rw [browserDetectionClassify, find?_zipIdx_eq_some.mpr h]

/-- **Each of the highest tiers is what some order of the tiers gives.** -/
theorem exists_reordered_classify (hd : ∀ r ∈ d.rules, r.Usable) {userAgent : Option Bytes}
    (hpicked : Picked d (userAgent.getD []) i r)
    (ht : r.Highest (userAgent.getD []) t) : ∃ rules', List.Forall₂ Reordered d.rules rules' ∧
      browserDetectionClassify { d with rules := rules' } userAgent = ⟨t.epoch, t.dashboard, i⟩ := by
  -- the tier is put first
  set r' : BrowserRule := { r with tiers := t :: r.tiers.erase t }
  have hreordered : Reordered r r' := ⟨List.perm_cons_erase ht.1.1, rfl⟩
  have hrules : List.Forall₂ Reordered d.rules (d.rules.set i r') := by
    refine List.forall₂_iff_get.mpr ⟨by rw [List.length_set], fun j hj hj' => ?_⟩
    rw [List.get_eq_getElem, List.get_eq_getElem, List.getElem_set]
    split_ifs with hij
    · subst hij
      obtain ⟨_, rfl⟩ := List.getElem?_eq_some_iff.mp hpicked.1
      exact hreordered
    · exact ⟨List.Perm.refl _, rfl⟩
  refine ⟨d.rules.set i r', hrules, ?_⟩
  obtain ⟨q, hq, hpicked'⟩ := @picked_of_reordered { d with rules := d.rules.set i r' }
    (userAgent.getD []) d.rules (forall₂_reordered_symm hrules) i r hpicked
  have hqr : q = r' := by
    have hlt : i < d.rules.length := (List.getElem?_eq_some_iff.mp hpicked.1).1
    have hget := hpicked'.1
    rw [List.getElem?_set_self hlt] at hget
    exact (Option.some.inj hget).symm
  subst hqr
  rw [classify_of_picked hpicked', classifyRule_eq (hreordered.usable (hd r hpicked.mem)),
    firstHighest_of_head rfl (hreordered.highest.2.mpr ht)]

/-- What is asked of the classification of a User-Agent. -/
structure ClassifiesByDefinition (d : BrowserDetection) (userAgent : Option Bytes) : Prop where
  /-- It is by the definition. -/
  definition : Classified d (userAgent.getD []) (browserDetectionClassify d userAgent)
  /-- The tiers of the rules may be put in any order. -/
  anyOrder : ∀ rules', List.Forall₂ Reordered d.rules rules' →
    browserDetectionClassify { d with rules := rules' } userAgent = browserDetectionClassify d userAgent
  /-- No version, however long, is compared with a tier in another way than its numbers. -/
  unbounded : ∀ r ∈ d.rules, ∀ t ∈ r.tiers, ∀ p m, versionNumbers p = some m →
    ∃ v w, parseVersion p = some v ∧ parseTierVersion t.fromVersion.text = some w ∧
      versionNumbers t.fromVersion.text = some t.numbers ∧ versionCmp v w = compare m t.numbers

/-- **A set that passes the validation classifies a User-Agent by the definition, its tiers in
whatever order, exactly where the highest tiers that are reached say the same.** -/
theorem classifiesByDefinition_iff (hd : browserDetectionValidate d = none)
    (userAgent : Option Bytes) :
    ClassifiesByDefinition d userAgent ↔ TiesAgree d (userAgent.getD []) := by
  have hrules := (browserDetectionValidate_eq_none_iff.mp hd).rules
  constructor
  · intro h i r hpicked t u ht hu
    -- whichever of the two is put first is the result
    obtain ⟨rules₁, h₁, heq₁⟩ := exists_reordered_classify hrules hpicked ht
    obtain ⟨rules₂, h₂, heq₂⟩ := exists_reordered_classify hrules hpicked hu
    have heq := (heq₁.symm.trans (h.anyOrder rules₁ h₁)).trans
      ((h.anyOrder rules₂ h₂).symm.trans heq₂)
    exact ⟨congrArg BrowserMatch.epoch heq, congrArg BrowserMatch.dashboard heq⟩
  · intro hties
    refine ⟨classified_classify hrules userAgent, ?_, ?_⟩
    · intro rules' hreordered
      have hrules' : ∀ r' ∈ rules', r'.Usable := by
        obtain ⟨hlen, hall⟩ := List.forall₂_iff_get.mp hreordered
        intro r' hr'
        obtain ⟨i, hi, rfl⟩ := List.getElem_of_mem hr'
        exact (hall i (by rwa [hlen]) hi).usable (hrules _ (List.getElem_mem _))
      have hclassified := @classified_classify { d with rules := rules' } hrules' userAgent
      exact (classified_of_reordered hreordered hclassified).unique hties
        (classified_classify hrules userAgent)
    · intro r hr t ht p m hm
      obtain ⟨hnumbers, hparse, hfit⟩ := parseTierVersion_of_usable ((hrules r hr).tiers t ht)
      have hread : parseVersion p = some (saturated m) := by rw [parseVersion_eq, hm, Option.map_some]
      exact ⟨_, _, hread, hparse, hnumbers, versionCmp_saturated m hfit⟩

/-- Tiers of different versions. -/
theorem tiesAgree_of_versions (h : ∀ r ∈ d.rules, ∀ t ∈ r.tiers, ∀ u ∈ r.tiers,
    t.numbers = u.numbers → t = u) (ua : Bytes) : TiesAgree d ua := by
  intro i r hpicked t u ht hu
  obtain rfl := h r hpicked.mem t ht.1.1 u hu.1.1 (le_antisymm (hu.2 t ht.1) (ht.2 u hu.1))
  exact ⟨rfl, rfl⟩

/-- One rule, its two tiers for version 14 in two spellings. -/
def twoSpellings : BrowserDetection where
  fallbackEpoch := epochEarly
  rules := [FactoryRule.expand ⟨"X", ["X/"], [], "X/",
    [("14", epochModern, true), ("14.0", epochMiddle, false)], epochMiddle, false⟩]
  cases := []

/-- The factory rules for a browser whose version no `long` holds. -/
theorem classifiesByDefinition_long :
    ClassifiesByDefinition browserDetectionFactory (some (lit "Firefox/99999999999999999999.0")) := by
  refine (classifiesByDefinition_iff
    (browserDetectionValidate_eq_none_iff.mpr usable_factory) _).mpr ?_
  refine tiesAgree_of_versions (fun r hr => ?_) _
  have hversions : ∀ f ∈ factoryRules, ∀ t ∈ f.expand.tiers, ∀ u ∈ f.expand.tiers,
      t.numbers = u.numbers → t = u := by decide
  obtain ⟨f, hf, rfl⟩ := List.mem_map.mp hr
  exact hversions f hf

/-- Version 14 in two spellings: the tier that comes first is the result. -/
theorem not_classifiesByDefinition_twoSpellings :
    browserDetectionValidate twoSpellings = none ∧
      ¬ ClassifiesByDefinition twoSpellings (some (lit "X/14")) := by
  refine ⟨by decide, fun h => ?_⟩
  have hswap := h.anyOrder
    [FactoryRule.expand ⟨"X", ["X/"], [], "X/",
      [("14.0", epochMiddle, false), ("14", epochModern, true)], epochMiddle, false⟩]
    (List.Forall₂.cons ⟨List.Perm.swap _ _ _, rfl⟩ List.Forall₂.nil)
  revert hswap
  decide

end BoatRudder.Utils
