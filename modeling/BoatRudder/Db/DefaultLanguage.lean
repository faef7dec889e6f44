import BoatRudder.Db.CmsLanguages

/-! # The default language

What the collection of the languages must be when a call returns (`Settled`), what every step keeps
of it meanwhile (`Sane`), and exactly which steps leave it so: **`languages_settled_iff`**. -/

namespace BoatRudder.Db

open LanguageCall

/-! ## The collection -/

namespace Languages

/-- One language is the default, and no code appears twice. -/
structure Settled (langs : Languages) : Prop where
  /-- Exactly one is the default. -/
  one : langs.countP (·.isDefault) = 1
  /-- There is a language. -/
  ne_nil : langs ≠ []
  /-- No code appears twice. -/
  nodup : (langs.map (·.code)).Nodup

/-- What holds of the collection also between the clearing of the default and the setting. -/
structure Sane (langs : Languages) : Prop where
  /-- At most one is the default. -/
  le_one : langs.countP (·.isDefault) ≤ 1
  /-- There is a language. -/
  ne_nil : langs ≠ []
  /-- No code appears twice. -/
  nodup : (langs.map (·.code)).Nodup

/-- Some language is the default. -/
def HasDefault (langs : Languages) : Prop := ∃ l ∈ langs, l.isDefault = true

theorem Settled.sane {langs : Languages} (h : langs.Settled) : langs.Sane :=
  ⟨h.one.le, h.ne_nil, h.nodup⟩

theorem hasDefault_iff {langs : Languages} : langs.HasDefault ↔ 0 < langs.countP (·.isDefault) :=
  List.countP_pos_iff.symm

/-- A collection with one default has a language. -/
theorem settled_iff_of_nodup {langs : Languages} (h : (langs.map (·.code)).Nodup) :
    langs.Settled ↔ langs.countP (·.isDefault) = 1 := by
  refine ⟨Settled.one, fun hone => ⟨hone, ?_, h⟩⟩
  rintro rfl
  cases hone

theorem settled_iff {langs : Languages} (h : langs.Sane) : langs.Settled ↔ langs.HasDefault := by
  rw [settled_iff_of_nodup h.nodup, hasDefault_iff]
  have := h.le_one
  omega

/-- The languages with another code than this. -/
theorem sane_filter {langs : Languages} (h : langs.Sane) (code : Bytes) :
    (langs.eraseP fun l => l.code = code) = langs.filter fun l => l.code ≠ code :=
  Collection.eraseP_eq_filter (f := Language.code) h.nodup code

/-! ## The writes -/

variable {langs : Languages}

theorem settled_insert_iff (h : langs.Sane) (code name : Bytes) :
    Settled (langs ++ [⟨code, name, false⟩]) ↔
      langs.HasDefault ∧ code ∉ langs.map (·.code) := by
  have hcount : (langs ++ [(⟨code, name, false⟩ : Language)]).countP (·.isDefault) =
      langs.countP (·.isDefault) := by simp
  have hle := h.le_one
  constructor
  · intro hs
    have hone := hs.one
    have hnodup := hs.nodup
    rw [List.map_append, List.nodup_append] at hnodup
    refine ⟨hasDefault_iff.mpr (by omega), fun hmem => ?_⟩
    exact hnodup.2.2 code hmem code (by simp) rfl
  · rintro ⟨hdefault, hnew⟩
    have hpos := hasDefault_iff.mp hdefault
    refine ⟨by omega, by simp, ?_⟩
    rw [List.map_append, List.nodup_append]
    refine ⟨h.nodup, by simp, ?_⟩
    rintro c hc d hd rfl
    simp only [List.map_cons, List.map_nil, List.mem_singleton] at hd
    exact hnew (hd ▸ hc)

/-- Clearing keeps the codes. -/
theorem map_code_clear (langs : Languages) (reached : Bytes → Bool) :
    (langs.map fun l => if reached l.code then mark false l else l).map (·.code) =
      langs.map (·.code) := by
  rw [List.map_map]
  refine List.map_congr_left fun l _ => ?_
  simp only [Function.comp_apply]
  split <;> rfl

/-- The defaults that clearing has not reached. -/
theorem hasDefault_clear (langs : Languages) (reached : Bytes → Bool) :
    HasDefault (langs.map fun l => if reached l.code then mark false l else l) ↔
      ∃ l ∈ langs, l.isDefault = true ∧ reached l.code = false := by
  constructor
  · rintro ⟨l', hl', hdefault⟩
    obtain ⟨l, hl, rfl⟩ := List.mem_map.mp hl'
    split at hdefault
    next => cases hdefault
    next hreached => exact ⟨l, hl, hdefault, by simpa using hreached⟩
  · rintro ⟨l, hl, hdefault, hreached⟩
    exact ⟨l, List.mem_map.mpr ⟨l, hl, by simp [hreached]⟩, hdefault⟩

theorem sane_clear (h : langs.Sane) (reached : Bytes → Bool) :
    Sane (langs.map fun l => if reached l.code then mark false l else l) where
  le_one := by
    refine le_trans ?_ h.le_one
    rw [List.countP_map]
    refine List.countP_mono_left fun l _ hl => ?_
    simp only [Function.comp_apply] at hl
    split at hl
    · cases hl
    · exact hl
  ne_nil := by simpa using h.ne_nil
  nodup := by
    rw [map_code_clear]
    exact h.nodup

/-- The count of the defaults with another code. -/
theorem countP_eraseP_add (langs : Languages) (code : Bytes) :
    (langs.eraseP fun l => l.code = code).countP (·.isDefault) +
        ((langs.withCode code).any (·.isDefault)).toNat = langs.countP (·.isDefault) :=
  Collection.countP_eraseP (fun l : Language => l.code = code) (·.isDefault) langs

theorem settled_set_iff (h : langs.Sane) {code : Bytes} (hcode : code ∈ langs.map (·.code)) :
    Settled (Collection.updateOne (fun l => l.code = code) (mark true) langs) ↔
      ∀ l ∈ langs, l.isDefault = true → l.code = code := by
  have hkeys : ((Collection.updateOne (fun l => l.code = code) (mark true) langs).map
      (·.code)) = langs.map (·.code) :=
    Collection.map_updateOne (f := Language.code) (g := mark true) (fun _ => rfl) _ _
  obtain ⟨l, hl, rfl⟩ := List.mem_map.mp hcode
  have hfound : ∃ d, langs.withCode l.code = some d := by
    rw [withCode, ← Option.isSome_iff_exists, List.find?_isSome]
    exact ⟨l, hl, by simp⟩
  obtain ⟨d, hd⟩ := hfound
  have hset := Collection.countP_updateOne (fun l' : Language => l'.code = l.code) (·.isDefault)
    (mark true) langs
  have hrest := countP_eraseP_add langs l.code
  rw [withCode] at hd hrest
  rw [hd] at hset hrest
  rw [settled_iff_of_nodup (by rw [hkeys]; exact h.nodup)]
  have hone : (Collection.updateOne (fun l' => l'.code = l.code) (mark true) langs).countP
      (·.isDefault) = (langs.eraseP fun l' => l'.code = l.code).countP (·.isDefault) + 1 := by
    simp only [Option.any_some, mark, Bool.toNat_true] at hset hrest
    omega
  rw [hone, sane_filter h]
  constructor
  · intro heq l' hl' hdefault
    by_contra hne
    have hzero : (langs.filter fun l' => l'.code ≠ l.code).countP (·.isDefault) = 0 := by omega
    exact List.countP_eq_zero.mp hzero l' (List.mem_filter.mpr ⟨hl', by simpa using hne⟩) hdefault
  · intro hall
    have hzero : (langs.filter fun l' => l'.code ≠ l.code).countP (·.isDefault) = 0 := by
      refine List.countP_eq_zero.mpr fun l' hl' hdefault => ?_
      obtain ⟨hl', hne⟩ := List.mem_filter.mp hl'
      exact absurd (hall l' hl' hdefault) (by simpa using hne)
    omega

/-- An update that finds no document leaves the collection. -/
theorem updateOne_of_notMem {code : Bytes} (hcode : code ∉ langs.map (·.code)) :
    Collection.updateOne (fun l => l.code = code) (mark true) langs = langs := by
  induction langs with
  | nil => rfl
  | cons l langs ih =>
    rw [List.map_cons, List.mem_cons, not_or] at hcode
    rw [Collection.updateOne_cons, if_neg (by simpa using fun h : l.code = code => hcode.1 h.symm),
      ih hcode.2]

theorem settled_delete_iff (h : langs.Sane) (code : Bytes) :
    Settled (langs.eraseP fun l => l.code = code) ↔
      ∃ l ∈ langs, l.isDefault = true ∧ l.code ≠ code := by
  have hrest := countP_eraseP_add langs code
  have hle := h.le_one
  rw [settled_iff_of_nodup (h.nodup.sublist (List.eraseP_sublist.map _))]
  have hpos : 0 < (langs.eraseP fun l => l.code = code).countP (·.isDefault) ↔
      ∃ l ∈ langs, l.isDefault = true ∧ l.code ≠ code := by
    rw [sane_filter h, List.countP_pos_iff]
    constructor
    · rintro ⟨l, hl, hdefault⟩
      obtain ⟨hl, hne⟩ := List.mem_filter.mp hl
      exact ⟨l, hl, hdefault, by simpa using hne⟩
    · rintro ⟨l, hl, hdefault, hne⟩
      exact ⟨l, List.mem_filter.mpr ⟨hl, by simpa using hne⟩, hdefault⟩
  rw [← hpos]
  omega

end Languages

/-! ## The steps that leave a default -/

open Languages

variable {c : LanguageCall}

/-- What a call knows: it has counted a language, so the one it adds is not the default. -/
def LanguageCall.Knows (c : LanguageCall) : Prop :=
  match c.phase with
  | .existing total => 0 < total
  | .insert isDefault => isDefault = false
  | _ => True

/-- The call returns at its next step. -/
def LanguageCall.Returns (langs : Languages) (c : LanguageCall) : Prop :=
  c.returned = false ∧ (c.act langs).2.returned = true

theorem LanguageCall.returned_of_phase {rc : ℤ} (h : c.phase = .done rc) : c.returned = true := by
  rw [returned, h]

/-- The last write of a call is its last step. -/
theorem LanguageCall.returns_of_rc {langs : Languages} {w : WriteOutcome}
    (h : c.returned = false) (hnext : c.next langs = rc w) : c.Returns langs :=
  ⟨h, returned_of_phase (c := (c.act langs).2) hnext⟩

/-- What is promised of a step: the collection is settled when it is the last of a call. -/
def SettledAtReturn (langs : Languages) (c : LanguageCall) : Prop :=
  c.Returns langs → Settled (c.act langs).1

/-- **A default is left.** What the last step of a call must find: a language is the default, so
that no other call stands between the clearing and the setting; a language to add has not been added
meanwhile; the one to remove has not become the default; of those that are the default none is
another than the one to make it, which is there and is made it; and a clearing that breaks off has
not reached the default. -/
def LeavesDefault (langs : Languages) (c : LanguageCall) : Prop :=
  match c.phase with
  | .insert _ =>
    langs.HasDefault ∧ (c.req.write ≠ .failed → c.req.code ∉ langs.map (·.code))
  | .clear =>
    ∀ reached, c.req.clear = .failed reached →
      ∃ l ∈ langs, l.isDefault = true ∧ reached l.code = false
  | .set =>
    if c.req.write ≠ .failed ∧ c.req.code ∈ langs.map (·.code) then
      ∀ l ∈ langs, l.isDefault = true → l.code = c.req.code
    else langs.HasDefault
  | .delete =>
    ∃ l ∈ langs, l.isDefault = true ∧ (c.req.write ≠ .failed → l.code ≠ c.req.code)
  | _ => c.Returns langs → langs.HasDefault

/-- A step that writes nothing leaves the collection settled when there is a default. -/
theorem settledAtReturn_iff_of_wrote {langs : Languages} (h : langs.Sane)
    (hwrote : c.wrote langs = langs) :
    SettledAtReturn langs c ↔ (c.Returns langs → langs.HasDefault) := by
  rw [SettledAtReturn, act, hwrote, settled_iff h]

/-- The last write of a call is asked for a settled collection. -/
theorem settledAtReturn_iff_of_rc {langs : Languages} (h : c.returned = false)
    (hnext : c.next langs = rc c.req.write) : SettledAtReturn langs c ↔ Settled (c.wrote langs) :=
  imp_iff_right (returns_of_rc h hnext)

/-- **The last step of a call leaves the collection settled exactly when it leaves a default.** -/
theorem settledAtReturn_iff {langs : Languages} (h : langs.Sane)
    (hknows : c.Knows) : SettledAtReturn langs c ↔ LeavesDefault langs c := by
  cases hphase : c.phase with
  | insert isDefault =>
    obtain rfl : isDefault = false := by simpa [Knows, hphase] using hknows
    rw [settledAtReturn_iff_of_rc (by simp [returned, hphase]) (by simp [next, hphase])]
    simp only [wrote, LeavesDefault, hphase]
    by_cases hwrite : c.req.write = .failed
    · simp [hwrite, settled_iff h]
    · simp [hwrite, settled_insert_iff h]
  | clear =>
    simp only [LeavesDefault, hphase]
    cases hclear : c.req.clear with
    | done =>
      refine iff_of_true (fun hreturns => ?_) nofun
      have hnot := hreturns.2
      simp [act, next, returned, hphase, hclear] at hnot
    | failed reached =>
      have hreturns : c.Returns langs :=
        ⟨by simp [returned, hphase], by simp [act, next, returned, hphase, hclear]⟩
      simp only [SettledAtReturn, hreturns, true_imp_iff, act, wrote, hphase, hclear]
      rw [settled_iff (sane_clear h reached), hasDefault_clear]
      simp
  | set =>
    rw [settledAtReturn_iff_of_rc (by simp [returned, hphase]) (by simp [next, hphase])]
    simp only [wrote, LeavesDefault, hphase]
    by_cases hwrite : c.req.write = .failed
    · simp [hwrite, settled_iff h]
    · by_cases hcode : c.req.code ∈ langs.map (·.code)
      · rw [if_neg hwrite, if_pos ⟨hwrite, hcode⟩, settled_set_iff h hcode]
      · rw [if_neg hwrite, if_neg fun hand => hcode hand.2, updateOne_of_notMem hcode,
          settled_iff h]
  | delete =>
    rw [settledAtReturn_iff_of_rc (by simp [returned, hphase]) (by simp [next, hphase])]
    simp only [wrote, LeavesDefault, hphase]
    by_cases hwrite : c.req.write = .failed
    · simp [hwrite, settled_iff h, HasDefault]
    · simp [hwrite, settled_delete_iff h]
  | _ =>
    rw [settledAtReturn_iff_of_wrote h (by simp [wrote, hphase])]
    simp [LeavesDefault, hphase]

/-- A step that leaves the collection settled where it must leaves it sane. -/
theorem sane_act {langs : Languages} (h : langs.Sane)
    (hsettled : SettledAtReturn langs c) : Sane (c.act langs).1 := by
  by_cases hreturns : c.Returns langs
  · exact (hsettled hreturns).sane
  · cases hphase : c.phase with
    | insert isDefault =>
      exact absurd (returns_of_rc (w := c.req.write) (by simp [returned, hphase])
        (by simp [next, hphase])) hreturns
    | set =>
      exact absurd (returns_of_rc (w := c.req.write) (by simp [returned, hphase])
        (by simp [next, hphase])) hreturns
    | delete =>
      exact absurd (returns_of_rc (w := c.req.write) (by simp [returned, hphase])
        (by simp [next, hphase])) hreturns
    | clear =>
      cases hclear : c.req.clear with
      | done =>
        have hall := sane_clear h fun _ => true
        simpa [act, wrote, hphase, hclear] using hall
      | failed reached =>
        exact absurd ⟨by simp [returned, hphase], by simp [act, next, returned, hphase, hclear]⟩
          hreturns
    | _ => simpa [act, wrote, hphase] using h

/-- A call knows what it has counted. -/
theorem knows_act {langs : Languages} (h : langs.Sane) (hknows : c.Knows) :
    (c.act langs).2.Knows := by
  have hpos : 0 < langs.length := List.length_pos_of_ne_nil h.ne_nil
  simp only [Knows, act, next]
  cases hphase : c.phase with
  | total =>
    cases haction : c.req.action with
    | add =>
      simp only
      by_cases hrefused : ((languageCatalogName c.req.code).isNone || !c.req.ready ||
          !c.req.totalRead) = true
      · rw [if_pos hrefused]
        trivial
      · rw [if_neg hrefused]
        exact hpos
    | _ =>
      simp only
      split_ifs <;> trivial
  | existing total =>
    simp only [Knows, hphase] at hknows
    simp only
    split_ifs
    · trivial
    · simpa using hknows.ne'
  | clear => cases hclear : c.req.clear <;> trivial
  | target => simp only; split_ifs <;> trivial
  | find => simp only; split_ifs <;> trivial
  | _ => trivial

theorem sane_seeded : Sane (languagesEnsureSeeded []) := by
  refine ⟨by decide, by decide, by decide⟩

theorem knows_begin (r : LanguageRequest) : (cmsLanguages.begin r).Knows := by
  show LanguageCall.Knows ⟨r, r.start⟩
  unfold LanguageCall.Knows LanguageRequest.start
  cases r.action <;> trivial

/-- **Exactly one language is the default whenever a call returns**, no code appears twice and there
is a language, in the runs in which each step that is the last of its call leaves a default. -/
theorem languages_settled_iff (run : List (CallEvent LanguageRequest Empty)) :
    cmsLanguages.EachStep SettledAtReturn run ↔ cmsLanguages.EachStep LeavesDefault run :=
  Service.eachStep_iff_eachStep (J := Languages.Sane) (L := LanguageCall.Knows) sane_seeded
    knows_begin (fun _ _ => settledAtReturn_iff)
    (fun _ _ hsane hknows hsettled => ⟨sane_act hsane hsettled, knows_act hsane hknows⟩)
    (fun _ e _ => e.elim) run

/-- The default is cleared, and then the update that sets the new one fails. -/
def clearedOnly : List (CallEvent LanguageRequest Empty) :=
  [.call ⟨.add, lit "es", true, true, true, .done, .done⟩] ++ List.replicate 3 (.run 0) ++
    [.call ⟨.setDefault, lit "es", true, true, true, .done, .failed⟩] ++ List.replicate 3 (.run 1)

/-- No language is the default when that call has returned. -/
theorem languages_not_settled : ¬ cmsLanguages.EachStep SettledAtReturn clearedOnly := by
  intro h
  have hlast := h (clearedOnly.take 7) (.run 1) [] rfl 1
    ⟨⟨.setDefault, lit "es", true, true, true, .done, .failed⟩, .set⟩ rfl rfl ⟨rfl, rfl⟩
  exact absurd hlast.one (by decide)

end BoatRudder.Db
