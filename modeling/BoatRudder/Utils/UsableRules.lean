import BoatRudder.Runs.Machine
import BoatRudder.Utils.DetectEpoch

/-! # The active rules are usable

What the validation of a set of rules grants, and what follows for every classification by it. The
active set is replaced by an activation that succeeds only, so it is a valid one after every run. -/

namespace BoatRudder.Utils

variable {d : BrowserDetection} {r : BrowserRule} {t : BrowserTier} {ua : Bytes}

/-! ## What is granted -/

theorem epochValid_iff {epoch : ℤ} : epochValid epoch = true ↔ -1 ≤ epoch ∧ epoch ≤ 3 := by
  show (decide (-1 ≤ epoch) && decide (epoch ≤ 3)) = true ↔ _
  simp

/-- Nothing is found wrong with a list when nothing is with any of it. -/
theorem firstError_eq_none_iff {α : Type} {error : α → Option Bytes} {list : List α} :
    firstError error list = none ↔ ∀ a ∈ list, error a = none := by
  simp only [firstError, List.findSome?_eq_none_iff, Option.map_eq_none_iff, Prod.forall]
  constructor
  · intro h a ha
    obtain ⟨i, hi, rfl⟩ := List.getElem_of_mem ha
    exact h _ i (List.mk_mem_zipIdx_iff_getElem?.mpr (List.getElem?_eq_getElem hi))
  · intro h a i hmem
    exact h a (List.fst_mem_of_mem_zipIdx hmem)

/-- A buffer holds a string of printable characters. -/
def Printable {n : ℕ} (b : CharBuf n) : Prop := b.hasNul = true ∧ textOk b.text = true

theorem tokenError_eq_none_iff {t : BrowserToken} :
    tokenError t = none ↔ Printable t ∧ t.text ≠ [] := by
  simp only [tokenError, Printable]
  split_ifs with hnul hempty hok <;> simp_all

theorem validateTokens_eq_none_iff {list : List BrowserToken} :
    validateTokens list = none ↔
      list.length ≤ browserTokensMax ∧ ∀ t ∈ list, Printable t ∧ t.text ≠ [] := by
  rw [validateTokens]
  split_ifs with hlong
  · simp [not_le.mpr hlong]
  · simp [tokenError_eq_none_iff, not_lt.mp hlong]

/-- What is granted of a tier. -/
structure BrowserTier.Usable (t : BrowserTier) : Prop where
  hasNul : t.fromVersion.hasNul = true
  version : (parseTierVersion t.fromVersion.text).isSome = true
  epoch : epochValid t.epoch = true

theorem tierError_eq_none_iff : tierError t = none ↔ t.Usable := by
  rw [tierError]
  constructor
  · intro h
    split_ifs at h with hversion hepoch
    simp only [Bool.or_eq_true, Bool.not_eq_true', not_or, Bool.not_eq_false] at hversion hepoch
    exact ⟨hversion.1, Option.isSome_iff_ne_none.mpr (by simpa using hversion.2), hepoch⟩
  · intro h
    obtain ⟨v, hv⟩ := Option.isSome_iff_exists.mp h.version
    simp [h.hasNul, hv, h.epoch]

/-- What is granted of a rule. -/
structure BrowserRule.Usable (r : BrowserRule) : Prop where
  name : Printable r.name
  contains_ne_nil : r.contains ≠ []
  contains : validateTokens r.contains = none
  excludes : validateTokens r.excludes = none
  versionAfter : Printable r.versionAfter
  epoch : epochValid r.epoch = true
  length_tiers : r.tiers.length ≤ browserTiersMax
  /-- Tiers come with a token to read the version behind. -/
  versioned : r.tiers ≠ [] → r.versionAfter.text ≠ []
  tiers : ∀ t ∈ r.tiers, t.Usable

theorem ruleError_eq_none_iff : ruleError r = none ↔ r.Usable := by
  constructor
  · intro h
    simp only [ruleError] at h
    split_ifs at h with hname hcontains hc he hafter hepoch hlong hbare
    · exact absurd h (Option.ne_none_iff_isSome.mpr hc)
    · exact absurd h (Option.ne_none_iff_isSome.mpr he)
    · simp only [Bool.or_eq_true, Bool.not_eq_true', not_or, Bool.not_eq_false] at hname hafter
      exact ⟨hname, hcontains, by simpa using hc, by simpa using he, hafter, by simpa using hepoch,
        not_lt.mp hlong, fun htiers hnil => hbare ⟨htiers, hnil⟩, fun t ht =>
          tierError_eq_none_iff.mp (List.findSome?_eq_none_iff.mp h t ht)⟩
  · intro h
    have hbare : ¬ (r.tiers ≠ [] ∧ r.versionAfter.text = []) := fun hb => h.versioned hb.1 hb.2
    have htiers : r.tiers.findSome? tierError = none :=
      List.findSome?_eq_none_iff.mpr fun t ht => tierError_eq_none_iff.mpr (h.tiers t ht)
    simp only [ruleError, h.name.1, h.name.2, h.contains_ne_nil, h.contains, h.excludes,
      h.versionAfter.1, h.versionAfter.2, h.epoch, not_lt.mpr h.length_tiers, if_neg hbare, htiers,
      Bool.not_true, Bool.or_self, Bool.false_eq_true, if_false, Option.isSome_none]

/-- What is granted of a test case. -/
structure BrowserCase.Usable (c : BrowserCase) : Prop where
  name : Printable c.name
  userAgent : Printable c.userAgent
  epoch : epochValid c.epoch = true

theorem caseError_eq_none_iff {c : BrowserCase} : caseError c = none ↔ c.Usable := by
  constructor
  · intro h
    simp only [caseError] at h
    split_ifs at h with hname hua hepoch
    simp only [Bool.or_eq_true, Bool.not_eq_true', not_or, Bool.not_eq_false] at hname hua hepoch
    exact ⟨hname, hua, hepoch⟩
  · intro h
    simp [caseError, h.name.1, h.name.2, h.userAgent.1, h.userAgent.2, h.epoch]

/-- What is granted of a set of rules. -/
structure BrowserDetection.Usable (d : BrowserDetection) : Prop where
  fallbackEpoch : epochValid d.fallbackEpoch = true
  length_rules : d.rules.length ≤ browserRulesMax
  length_cases : d.cases.length ≤ browserCasesMax
  rules : ∀ r ∈ d.rules, r.Usable
  cases : ∀ c ∈ d.cases, c.Usable

/-- **A set passes the validation when all of this is granted.** -/
theorem browserDetectionValidate_eq_none_iff : browserDetectionValidate d = none ↔ d.Usable := by
  constructor
  · intro h
    simp only [browserDetectionValidate] at h
    split_ifs at h with hfallback hrules hcases hrule
    · exact absurd h (Option.ne_none_iff_isSome.mpr hrule)
    · refine ⟨by simpa using hfallback, not_lt.mp hrules, not_lt.mp hcases, fun r hr => ?_,
        fun c hc => ?_⟩
      · have hnone : firstError ruleError d.rules = none := by simpa using hrule
        exact ruleError_eq_none_iff.mp (firstError_eq_none_iff.mp hnone r hr)
      · exact caseError_eq_none_iff.mp (firstError_eq_none_iff.mp h c hc)
  · intro h
    have hrules : firstError ruleError d.rules = none :=
      firstError_eq_none_iff.mpr fun r hr => ruleError_eq_none_iff.mpr (h.rules r hr)
    have hcases : firstError caseError d.cases = none :=
      firstError_eq_none_iff.mpr fun c hc => caseError_eq_none_iff.mpr (h.cases c hc)
    simp [browserDetectionValidate, h.fallbackEpoch, not_lt.mpr h.length_rules,
      not_lt.mpr h.length_cases, hrules, hcases]

/-! ## The factory rules -/

/-- A printable string that leaves room for its NUL. -/
structure Fits (n : ℕ) (s : String) : Prop where
  textOk : Utils.textOk (lit s) = true
  length_lt : (lit s).length < n

/-- A literal told by its characters; to read them off its encoding would take the kernel long. -/
theorem fits_of_chars {n : ℕ} {s : String} {l : List Char} (hs : s = String.ofList l)
    (h : (l.all fun c => 32 ≤ c.toNat && c.toNat < 127) = true ∧ l.length < n) : Fits n s := by
  subst hs
  refine ⟨?_, by simpa [lit] using h.2⟩
  simp only [textOk, lit, String.toList_ofList, List.all_map, List.all_eq_true] at h ⊢
  intro c hc
  have hrange := h.1 c hc
  simp only [Bool.and_eq_true, decide_eq_true_eq] at hrange
  have hnat : (UInt8.ofNat c.toNat).toNat = c.toNat := by
    simp
    omega
  have h32 : ¬ UInt8.ofNat c.toNat < 32 := by
    rw [UInt8.lt_iff_toNat_lt, hnat]
    simpa using hrange.1
  have h127 : UInt8.ofNat c.toNat ≠ 127 := by
    intro heq
    have hval := congrArg UInt8.toNat heq
    rw [hnat] at hval
    simp at hval
    omega
  simp [h32, h127]

set_option maxRecDepth 4000 in
theorem fits_factoryCases :
    ∀ c ∈ factoryCases, Fits browserNameMax c.name ∧ Fits browserUaMax c.userAgent := by
  simp only [factoryCases, List.forall_mem_cons]
  repeat' apply And.intro
  all_goals
    first
    | exact fun _ h => absurd h List.not_mem_nil
    | exact fits_of_chars rfl (by decide)

theorem Fits.zero_notMem {n : ℕ} {s : String} (h : Fits n s) : 0 ∉ lit s := by
  intro hzero
  have hok := List.all_eq_true.mp h.textOk 0 hzero
  cases hok

theorem Fits.printable {n : ℕ} {s : String} (h : Fits n s) : Printable (copyStr n s) := by
  have htext : (copyStr n s).text = lit s := CharBuf.text_fill h.zero_notMem h.length_lt
  exact ⟨(CharBuf.packed_fill h.zero_notMem h.length_lt).hasNul, by rw [htext, h.textOk]⟩

/-- The factory rules pass their own validation. -/
theorem usable_factory : browserDetectionFactory.Usable where
  fallbackEpoch := rfl
  length_rules := by decide
  length_cases := by decide
  rules := by
    have hrules : ∀ f ∈ factoryRules, ruleError f.expand = none := by decide
    intro r hr
    obtain ⟨f, hf, rfl⟩ := List.mem_map.mp hr
    exact ruleError_eq_none_iff.mp (hrules f hf)
  cases := by
    have hepochs : ∀ f ∈ factoryCases, epochValid f.epoch = true := by decide
    intro c hc
    obtain ⟨f, hf, rfl⟩ := List.mem_map.mp hc
    obtain ⟨hname, hua⟩ := fits_factoryCases f hf
    exact ⟨hname.printable, hua.printable, hepochs f hf⟩

/-! ## Every classification -/

/-- The best tier is one of the tiers. -/
theorem mem_of_foldl_betterTier {version : Version} {tiers : List BrowserTier}
    {best : Option (BrowserTier × Version)} {b : BrowserTier × Version}
    (h : tiers.foldl (betterTier version) best = some b) : b.1 ∈ tiers ∨ best = some b := by
  induction tiers generalizing best with
  | nil => exact Or.inr h
  | cons t tiers ih =>
    rw [List.foldl_cons] at h
    rcases ih h with hmem | hbest
    · exact Or.inl (List.mem_cons_of_mem t hmem)
    · rw [betterTier] at hbest
      split at hbest
      · exact Or.inr hbest
      · split_ifs at hbest with hbetter
        · cases hbest
          exact Or.inl List.mem_cons_self
        · exact Or.inr hbest

/-- A rule gives its own epoch or that of one of its tiers. -/
theorem classifyRule_epoch (r : BrowserRule) (ua : Bytes) (i : ℤ) :
    (classifyRule r ua i).epoch = r.epoch ∨ ∃ t ∈ r.tiers, (classifyRule r ua i).epoch = t.epoch := by
  simp only [classifyRule]
  split_ifs with hplain
  · exact Or.inl rfl
  · split
    · exact Or.inl rfl
    · split
      · rename_i best hbest
        rcases mem_of_foldl_betterTier hbest with hmem | hnone
        · exact Or.inr ⟨best.1, hmem, rfl⟩
        · cases hnone
      · exact Or.inl rfl

/-- **A classification by a valid set gives an epoch.** -/
theorem epochValid_classify (h : d.Usable) (ua : Option Bytes) :
    epochValid (browserDetectionClassify d ua).epoch = true := by
  simp only [browserDetectionClassify]
  split
  · rename_i r i hfind
    have hr : r ∈ d.rules := List.fst_mem_of_mem_zipIdx (List.mem_of_find?_eq_some hfind)
    rcases classifyRule_epoch r (ua.getD []) i with hown | ⟨t, ht, htier⟩
    · rw [hown]
      exact (h.rules r hr).epoch
    · rw [htier]
      exact ((h.rules r hr).tiers t ht).epoch
  · exact h.fallbackEpoch

/-! ## The active set -/

/-- What is done with the active rules. An allocation that is needed may fail. -/
inductive RulesEvent where
  /-- `browser_detection_activate`; without a set, the factory rules. -/
  | activate (d : Option BrowserDetection) (allocated : Bool)
  /-- `browser_detection_active_copy`: the factory rules, if they are needed, and the copy. -/
  | activeCopy (allocated copied : Bool)
  /-- `detect_browser`. -/
  | detect (userAgent : Option Bytes) (allocated : Bool)

/-- What comes back. -/
inductive RulesAnswer where
  | result (rc : ℤ)
  | copy (d : Option BrowserDetection)
  | found (m : BrowserMatch)

/-- `browser_detection_factory`. -/
def newFactory (allocated : Bool) : Option BrowserDetection :=
  if allocated then some browserDetectionFactory else none

/-- `ensure_active`: what is active then, if anything is. -/
def ensureActive (active : Option BrowserDetection) (allocated : Bool) : Option BrowserDetection :=
  match active with
  | some d => some d
  | none => newFactory allocated

/-- `browser_detection_activate`: what is active then, and the result. -/
def browserDetectionActivate (active d : Option BrowserDetection) (allocated : Bool) :
    Option BrowserDetection × ℤ :=
  match d.or (newFactory allocated) with
  | none => (active, -1)
  | some d => if (browserDetectionValidate d).isSome then (active, -1) else (some d, 0)

/-- `detect_browser`. -/
def detectBrowser (active : Option BrowserDetection) (userAgent : Option Bytes) (allocated : Bool) :
    BrowserMatch :=
  match ensureActive active allocated with
  | some d => browserDetectionClassify d userAgent
  | none => ⟨factoryFallbackEpoch, false, -1⟩

/-- `active`, from the start of the server. -/
def activeRules : Machine (Option BrowserDetection) RulesEvent RulesAnswer where
  init := none
  step := fun active e =>
    match e with
    | .activate d allocated =>
      ((browserDetectionActivate active d allocated).1,
        .result (browserDetectionActivate active d allocated).2)
    | .activeCopy allocated copied =>
      (ensureActive active allocated,
        .copy (if copied then ensureActive active allocated else none))
    | .detect userAgent allocated =>
      (ensureActive active allocated, .found (detectBrowser active userAgent allocated))

/-- The set that is in effect: the factory rules as long as none has been installed. -/
def inEffect (active : Option BrowserDetection) : BrowserDetection :=
  active.getD browserDetectionFactory

variable {active : Option BrowserDetection}

theorem usable_ensureActive (h : (inEffect active).Usable) (allocated : Bool) :
    (inEffect (ensureActive active allocated)).Usable := by
  cases active with
  | some d => exact h
  | none => cases allocated <;> exact usable_factory

/-- An activation installs a valid set or none. -/
theorem browserDetectionActivate_cases (active d : Option BrowserDetection) (allocated : Bool) :
    browserDetectionActivate active d allocated = (active, -1) ∨
      ∃ d', browserDetectionActivate active d allocated = (some d', 0) ∧ d'.Usable := by
  rw [browserDetectionActivate]
  split
  · exact Or.inl rfl
  · rename_i d' hd'
    split_ifs with hinvalid
    · exact Or.inl rfl
    · exact Or.inr ⟨d', rfl, browserDetectionValidate_eq_none_iff.mp (by simpa using hinvalid)⟩

/-- One event keeps the active set valid. -/
theorem usable_step (h : (inEffect active).Usable) (e : RulesEvent) :
    (inEffect (activeRules.step active e).1).Usable := by
  cases e with
  | activate d allocated =>
    show (inEffect (browserDetectionActivate active d allocated).1).Usable
    rcases browserDetectionActivate_cases active d allocated with heq | ⟨d', heq, hd'⟩
    · rw [heq]
      exact h
    · rw [heq]
      exact hd'
  | activeCopy allocated copied => exact usable_ensureActive h allocated
  | detect userAgent allocated => exact usable_ensureActive h allocated

/-- The active set is valid after every run. -/
theorem usable_after (as : List RulesEvent) : (inEffect (activeRules.after as)).Usable :=
  activeRules.after_induction (I := fun _ active => (inEffect active).Usable) usable_factory
    (fun _ e h => usable_step h e) as

theorem epochValid_detectBrowser (h : (inEffect active).Usable) (userAgent : Option Bytes)
    (allocated : Bool) : epochValid (detectBrowser active userAgent allocated).epoch = true := by
  have hensured := usable_ensureActive h allocated
  rw [detectBrowser]
  cases hactive : ensureActive active allocated with
  | none => rfl
  | some d =>
    rw [hactive] at hensured
    exact epochValid_classify hensured userAgent

/-- **After every run of activations, copies and classifications the active set is valid, an
activation that fails leaves it as it is, and every User-Agent is given an epoch.** -/
theorem activeRules_usable (as : List RulesEvent) :
    browserDetectionValidate (inEffect (activeRules.after as)) = none ∧
      (∀ d allocated, activeRules.answer as (.activate d allocated) = .result (-1) →
        activeRules.after (as ++ [.activate d allocated]) = activeRules.after as) ∧
      ∀ userAgent allocated, ∃ m, activeRules.answer as (.detect userAgent allocated) = .found m ∧
        -1 ≤ m.epoch ∧ m.epoch ≤ 3 := by
  have husable := usable_after as
  refine ⟨browserDetectionValidate_eq_none_iff.mpr husable, fun d allocated hfailed => ?_,
    fun userAgent allocated => ⟨_, rfl, ?_⟩⟩
  · rw [Machine.after_concat]
    show (browserDetectionActivate (activeRules.after as) d allocated).1 = _
    rcases browserDetectionActivate_cases (activeRules.after as) d allocated with heq | ⟨d', heq, -⟩
    · rw [heq]
    · have hrc : (browserDetectionActivate (activeRules.after as) d allocated).2 = -1 :=
        RulesAnswer.result.inj hfailed
      rw [heq] at hrc
      cases hrc
  · exact epochValid_iff.mp (epochValid_detectBrowser husable userAgent allocated)

/-- An empty set whose fallback is no epoch. -/
def noFallback : BrowserDetection := ⟨9, [], []⟩

/-- It is refused, and the factory rules stay. -/
theorem activeRules_usable_noFallback :
    activeRules.after ([.detect none true] ++ [.activate (some noFallback) true]) =
      some browserDetectionFactory :=
  (activeRules_usable [.detect none true]).2.1 (some noFallback) true rfl

end BoatRudder.Utils
