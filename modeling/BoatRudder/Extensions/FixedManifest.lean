import BoatRudder.Extensions.GracePeriod

/-! # Manifests that are fixed

A rescan reads every manifest again. What it leaves of an extension is decided by the manifest it
finds, by the process the extension has, and by the state it was in; an admin can switch an extension
on again from every state but one. -/

namespace BoatRudder.Extensions

/-! ## One name of the registry -/

theorem mem_iff_find {exts : List Extension} (h : (names exts).Nodup) {ext : Extension} :
    ext ∈ exts ↔ find exts ext.info.name = some ext := by
  refine ⟨fun hmem => ?_, List.mem_of_find?_eq_some⟩
  cases hfind : find exts ext.info.name with
  | none => exact absurd (mem_names hmem) (find_eq_none_iff.mp hfind)
  | some other =>
    have hname : other.info.name = ext.info.name := by simpa using List.find?_some hfind
    rw [eq_of_name h (List.mem_of_find?_eq_some hfind) hmem hname]

theorem find_append (exts others : List Extension) (n : Bytes) :
    find (exts ++ others) n = (find exts n).or (find others n) := List.find?_append

theorem find_change {name : Bytes} {f : Extension → Extension}
    (hf : ∀ ext, ext.info.name = name → (f ext).info.name = name) (exts : List Extension) (n : Bytes) :
    find (change name f exts) n = if n = name then (find exts name).map f else find exts n := by
  induction exts with
  | nil => simp [change, find]
  | cons e es ih =>
    rw [change]
    by_cases he : e.info.name = name
    · rw [if_pos he]
      by_cases hn : n = name
      · subst hn
        simp [find, he, hf e he]
      · have hne : ¬ (f e).info.name = n := fun heq => hn (heq.symm.trans (hf e he))
        have hne' : ¬ e.info.name = n := fun heq => hn (heq.symm.trans he)
        simp [find, hn, hne, hne']
    · rw [if_neg he]
      simp only [find, List.find?_cons] at ih ⊢
      by_cases hn : n = name
      · subst hn
        simpa [he] using ih
      · by_cases hen : e.info.name = n
        · simp [hen, hn]
        · simpa [hen, hn] using ih

/-! ## What a scan makes of one name -/

/-- A scan does not pass the entry over. -/
def DirEntry.Scanned (entry : DirEntry) : Prop := validName entry.name = true ∧ entry.isDir = true

section

variable {place : Place} {disk : Disk} {cur : List Extension} {entry : DirEntry}

theorem rescanned_name (h : validName entry.name = true) (ext : Extension) :
    (rescanned place disk ext entry).info.name = entry.name := by
  have hread : (readManifest place disk ext entry).info.name = entry.name := readManifest_name h ext
  rw [rescanned]
  split_ifs <;> exact hread

theorem find_scanEntry_of_ne {n : Bytes} (h : entry.name ≠ n ∨ ¬ entry.Scanned) :
    find (scanEntry place disk cur entry) n = find cur n := by
  rw [scanEntry]
  split_ifs with hskip hfound hfull
  · rfl
  · have hscanned : entry.Scanned := by simpa [DirEntry.Scanned] using hskip
    rw [find_change fun ext _ => rescanned_name hscanned.1 ext,
      if_neg fun heq => h.elim (fun hne => hne heq.symm) fun hnot => hnot hscanned]
  · rfl
  · have hscanned : entry.Scanned := by simpa [DirEntry.Scanned] using hskip
    have hne : entry.name ≠ n := h.resolve_right fun hnot => hnot hscanned
    rw [find_append]
    simp [find, rescanned_name hscanned.1, hne]

theorem find_scanEntry (h : entry.Scanned) {ext : Extension} (hfind : find cur entry.name = some ext) :
    find (scanEntry place disk cur entry) entry.name = some (rescanned place disk ext entry) := by
  have hskip : (!validName entry.name || !entry.isDir) = false := by simp [h.1, h.2]
  rw [scanEntry, hskip, hfind]
  simp only [Bool.false_eq_true, if_false, Option.isSome_some, if_true]
  rw [find_change fun ext _ => rescanned_name h.1 ext, if_pos rfl, hfind]
  rfl

theorem find_scanEntry_new (h : entry.Scanned) (hfind : find cur entry.name = none) {ext : Extension}
    (hnew : find (scanEntry place disk cur entry) entry.name = some ext) :
    ext = rescanned place disk {} entry := by
  have hskip : (!validName entry.name || !entry.isDir) = false := by simp [h.1, h.2]
  rw [scanEntry, hskip, hfind] at hnew
  simp only [Bool.false_eq_true, if_false, Option.isSome_none] at hnew
  split_ifs at hnew
  · rw [hfind] at hnew
    cases hnew
  · rw [find_append, hfind] at hnew
    simpa [find, rescanned_name h.1, eq_comm] using hnew

/-- What is not in the directory stays as it was. -/
theorem find_foldl_of_ne {n : Bytes} (entries : List DirEntry)
    (h : ∀ entry ∈ entries, entry.name ≠ n ∨ ¬ entry.Scanned) (cur : List Extension) :
    find (entries.foldl (scanEntry place disk) cur) n = find cur n := by
  induction entries generalizing cur with
  | nil => rfl
  | cons e es ih =>
    rw [List.foldl_cons, ih (fun e' he' => h e' (List.mem_cons_of_mem _ he'))]
    exact find_scanEntry_of_ne (h e List.mem_cons_self)

/-- **The entry of the directory decides about its name.** -/
theorem find_foldl {entries : List DirEntry} (h : (entries.map (·.name)).Nodup) (hmem : entry ∈ entries)
    (hscanned : entry.Scanned) {cur : List Extension} {ext : Extension}
    (hfind : find cur entry.name = some ext) :
    find (entries.foldl (scanEntry place disk) cur) entry.name =
      some (rescanned place disk ext entry) := by
  induction entries generalizing cur with
  | nil => cases hmem
  | cons e es ih =>
    obtain ⟨hnot, hes⟩ := List.nodup_cons.mp h
    rw [List.foldl_cons]
    rcases List.mem_cons.mp hmem with rfl | hmem
    · rw [find_foldl_of_ne es fun e' he' => Or.inl fun heq => hnot (List.mem_map.mpr ⟨e', he', heq⟩)]
      exact find_scanEntry hscanned hfind
    · have hne : e.name ≠ entry.name := fun heq => hnot (List.mem_map.mpr ⟨entry, hmem, heq.symm⟩)
      exact ih hes hmem ((find_scanEntry_of_ne (Or.inl hne)).trans hfind)

theorem find_foldl_new {entries : List DirEntry} (h : (entries.map (·.name)).Nodup)
    (hmem : entry ∈ entries) (hscanned : entry.Scanned) {cur : List Extension}
    (hfind : find cur entry.name = none) {ext : Extension}
    (hnew : find (entries.foldl (scanEntry place disk) cur) entry.name = some ext) :
    ext = rescanned place disk {} entry := by
  induction entries generalizing cur with
  | nil => cases hmem
  | cons e es ih =>
    obtain ⟨hnot, hes⟩ := List.nodup_cons.mp h
    rw [List.foldl_cons] at hnew
    rcases List.mem_cons.mp hmem with rfl | hmem
    · rw [find_foldl_of_ne es fun e' he' => Or.inl fun heq =>
        hnot (List.mem_map.mpr ⟨e', he', heq⟩)] at hnew
      exact find_scanEntry_new hscanned hfind hnew
    · have hne : e.name ≠ entry.name := fun heq => hnot (List.mem_map.mpr ⟨entry, hmem, heq.symm⟩)
      exact ih hes hmem ((find_scanEntry_of_ne (Or.inl hne)).trans hfind) hnew

/-- The state a scan leaves: a valid manifest keeps what the extension is doing. -/
theorem rescanned_invalid_iff (ext : Extension) :
    (rescanned place disk ext entry).info.state = .invalid ↔
      (manifestProblem place disk entry).isSome = true ∨
        ext.pid ≠ 0 ∧ ext.info.state = .invalid := by
  have hread : (readManifest place disk ext entry).info.state = .invalid ↔
      (manifestProblem place disk entry).isSome = true := by
    show (if (manifestProblem place disk entry).isNone = true then ExtensionState.disabled
      else .invalid) = .invalid ↔ _
    cases manifestProblem place disk entry <;> simp
  rw [rescanned]
  split_ifs with hkept
  · rw [← hread]
    rcases hkept with ⟨hvalid, hpid | hfailed⟩
    · simp [hvalid, hpid]
    · simp [hvalid, hfailed]
  · rw [← hread]
    refine ⟨Or.inl, fun hor => hor.elim id fun hheld => ?_⟩
    by_contra hvalid
    exact hkept ⟨hvalid, Or.inl hheld.1⟩

end

/-! ## Extensions that can be used again -/

/-- A later switch of the extension is taken, and a tick after it that can start processes has it
starting or running. -/
structure Revives (s : Supervisor) (ext : Extension) : Prop where
  taken : ∀ on stored, (SetEnabled.check ⟨ext.info.name, on, stored⟩).step s =
    (s, .store ⟨ext.info.name, on, stored⟩)
  moves : ∀ host sys, host.forkError ext.info.name = none →
    (reconcile host sys (ext.setEnabled true)).2.info.state = .starting ∨
      (reconcile host sys (ext.setEnabled true)).2.info.state = .running

/-- An extension that was just switched on is started by the next tick, or counts its first exit. -/
theorem reconcile_setEnabled {ext : Extension} (hpresent : ext.present = true)
    (hvalid : ext.info.state ≠ .invalid) (host : Host) (sys : System)
    (hfork : host.forkError ext.info.name = none) :
    (reconcile host sys (ext.setEnabled true)).2.info.state = .starting ∨
      (reconcile host sys (ext.setEnabled true)).2.info.state = .running := by
  have hstate : (ext.setEnabled true).info.state ≠ .failed ∧
      (ext.setEnabled true).info.state ≠ .invalid := by
    show (if ext.info.state = .failed then ExtensionState.disabled else ext.info.state) ≠ .failed ∧
      (if ext.info.state = .failed then ExtensionState.disabled else ext.info.state) ≠ .invalid
    split_ifs with hfailed
    · exact ⟨nofun, nofun⟩
    · exact ⟨hfailed, hvalid⟩
  have hwanted : (ext.setEnabled true).wanted = true := by
    have hon : (ext.setEnabled true).info.enabled = true := rfl
    have hhere : (ext.setEnabled true).present = true := hpresent
    simp [Extension.wanted, hon, hhere, hstate.2]
  have hwatch : (startOrWatch host sys (ext.setEnabled true)).2.info.state = .starting ∨
      (startOrWatch host sys (ext.setEnabled true)).2.info.state = .running := by
    have hnow : ¬ sys.now < (ext.setEnabled true).nextStart := Nat.not_lt_zero _
    have hname : host.forkError (ext.setEnabled true).info.name = none := hfork
    rw [startOrWatch, launch, hname]
    split_ifs with hpid hsocket
    · exact Or.inl rfl
    · exact Or.inr rfl
    · exact Or.inl rfl
  rw [reconcile, hwanted]
  simp only [Bool.not_true, Bool.false_eq_true, if_false, hstate.1, false_and]
  split_ifs with hdead hfailed
  · -- one exit is below the limit
    rcases (ext.setEnabled true).crashed_state sys.now with ⟨-, hlimit⟩ | hstarting
    · exfalso
      have hcount : ((ext.setEnabled true).crashed sys.now).crashes = 1 := by
        rw [Extension.crashed_crashes, Extension.countExit]
        split_ifs <;> rfl
      rw [hcount] at hlimit
      exact absurd hlimit (by decide)
    · rw [hstarting] at hfailed
      cases hfailed
  · have hname : (ext.setEnabled true).info.name = ext.info.name := rfl
    rw [startOrWatch_crashed host sys _ hfailed]
    rcases (ext.setEnabled true).crashed_state sys.now with ⟨hcontra, -⟩ | hstarting
    · exact absurd hcontra hfailed
    · exact Or.inl hstarting
  · exact hwatch

/-! ## Rescans -/

/-- The content of a directory: every name is in it once. -/
structure Directory extends Disk where
  nodup : (entries.map (·.name)).Nodup

/-- After a rescan, an extension that is present is invalid exactly when its manifest is, and can be
used again otherwise. -/
def Mends (place : Place) (dir : Directory) (s : Supervisor) : Prop :=
  ∀ ext ∈ (s.handle place (.rescan dir.toDisk)).exts, ext.present = true →
    ∃ entry ∈ dir.entries, entry.name = ext.info.name ∧ entry.Scanned ∧
      (ext.info.state = .invalid ↔ (manifestProblem place dir.toDisk entry).isSome = true) ∧
        (ext.info.state ≠ .invalid → Revives (s.handle place (.rescan dir.toDisk)) ext)

/-- An extension is invalid, its process is still there, and the directory has a valid manifest for
it. -/
def Held (place : Place) (dir : Directory) (s : Supervisor) : Prop :=
  ∃ ext ∈ s.exts, ext.info.state = .invalid ∧ ext.pid ≠ 0 ∧
    ∃ entry ∈ dir.entries, entry.name = ext.info.name ∧ entry.Scanned ∧
      manifestProblem place dir.toDisk entry = none

section

variable {place : Place} {dir : Directory} {s : Supervisor}

theorem Revives.of_valid (hs : s.Sound) {ext : Extension} (hmem : ext ∈ s.exts)
    (hpresent : ext.present = true) (hvalid : ext.info.state ≠ .invalid) : Revives s ext where
  taken on stored := by
    rw [SetEnabled.step, (mem_iff_find hs.nodup).mp hmem]
    simp [hpresent, hvalid]
  moves host sys := reconcile_setEnabled hpresent hvalid host sys

/-- What is present after a rescan was read by it. -/
theorem exists_scanned (hs : s.Sound) {ext : Extension}
    (hmem : ext ∈ scanLocked place dir.toDisk s.exts) (hpresent : ext.present = true) :
    ∃ entry ∈ dir.entries, entry.name = ext.info.name ∧ entry.Scanned ∧
      ∃ old : Extension, ext = rescanned place dir.toDisk old entry ∧
        (old.pid ≠ 0 → ∃ prior ∈ s.exts, prior.info = old.info ∧ prior.pid = old.pid ∧
          prior.info.name = entry.name) := by
  set start := s.exts.map fun ext => { ext with present := false } with hstart
  have hnames : names start = names s.exts := by simp [hstart, names, Function.comp_def]
  have hfold : (names (dir.entries.foldl (scanEntry place dir.toDisk) start)).Nodup :=
    (@scanOf_foldl place dir.toDisk s.exts hs.nodup).nodup
  have hfind := (mem_iff_find hfold).mp (mem_scanLocked_iff.mp hmem).1
  by_cases hentry : ∃ entry ∈ dir.entries, entry.name = ext.info.name ∧ entry.Scanned
  · obtain ⟨entry, hin, hname, hscanned⟩ := hentry
    refine ⟨entry, hin, hname, hscanned, ?_⟩
    rw [← hname] at hfind
    cases hold : find start entry.name with
    | none => exact ⟨{}, find_foldl_new dir.nodup hin hscanned hold hfind, fun h => absurd rfl h⟩
    | some old =>
      rw [find_foldl dir.nodup hin hscanned hold] at hfind
      obtain ⟨prior, hprior, rfl⟩ := List.mem_map.mp (List.mem_of_find?_eq_some hold)
      refine ⟨_, (Option.some.inj hfind).symm, fun _ => ⟨prior, hprior, rfl, rfl, ?_⟩⟩
      simpa using List.find?_some hold
  · -- nothing was read under its name, so that it was not found
    rw [find_foldl_of_ne _ fun entry hin => ?_] at hfind
    · obtain ⟨prior, -, rfl⟩ := List.mem_map.mp (List.mem_of_find?_eq_some hfind)
      cases hpresent
    · by_contra hor
      push Not at hor
      exact hentry ⟨entry, hin, hor.1, hor.2⟩

/-- **A rescan mends what it finds fixed, but for what it holds.** -/
theorem Supervisor.Sound.mends_iff (hs : s.Sound) : Mends place dir s ↔ ¬ Held place dir s := by
  constructor
  · rintro hmends ⟨ext, hext, hinvalid, hpid, entry, hin, hname, hscanned, hproblem⟩
    set old : Extension := { ext with present := false } with hold
    have hstart : (names (s.exts.map fun ext => { ext with present := false })).Nodup := by
      simpa [names, Function.comp_def] using hs.nodup
    have hfind : find (s.exts.map fun ext => { ext with present := false }) entry.name = some old := by
      rw [hname]
      exact (mem_iff_find hstart).mp (List.mem_map.mpr ⟨ext, hext, rfl⟩)
    have hnew := @find_foldl place dir.toDisk entry dir.entries dir.nodup hin hscanned _ _ hfind
    have hpresent : (rescanned place dir.toDisk old entry).present = true := by
      rw [rescanned]
      split_ifs <;> rfl
    have hmem : rescanned place dir.toDisk old entry ∈ scanLocked place dir.toDisk s.exts :=
      mem_scanLocked_iff.mpr ⟨List.mem_of_find?_eq_some hnew, Or.inl hpresent⟩
    obtain ⟨other, hother, hsame, -, hiff, -⟩ := hmends _ hmem hpresent
    rw [rescanned_name hscanned.1] at hsame
    have heq : other = entry := List.inj_on_of_nodup_map dir.nodup hother hin hsame
    subst heq
    have hsome := hiff.mp ((rescanned_invalid_iff old).mpr (Or.inr ⟨hpid, hinvalid⟩))
    rw [hproblem] at hsome
    cases hsome
  · intro hheld ext hmem hpresent
    obtain ⟨entry, hin, hname, hscanned, old, rfl, hprior⟩ := exists_scanned hs hmem hpresent
    refine ⟨entry, hin, hname, hscanned, ?_, fun hvalid =>
      .of_valid (hs.rescan dir.toDisk) hmem hpresent hvalid⟩
    rw [rescanned_invalid_iff]
    refine ⟨fun hor => hor.elim id fun hinvalid => ?_, Or.inl⟩
    -- an invalid extension with a process is held, unless its manifest is invalid still
    obtain ⟨prior, hmem', hinfo, hpid, hname'⟩ := hprior hinvalid.1
    by_contra hproblem
    exact hheld ⟨prior, hmem', hinfo ▸ hinvalid.2, hpid ▸ hinvalid.1, entry, hin, hname'.symm, hscanned,
      by simpa using hproblem⟩

end

/-- **After a rescan of any reachable registry, every extension present is invalid exactly when its
manifest is, and usable otherwise, if and only if none that was invalid with its process still there
has its manifest fixed.** -/
theorem rescan_mends_iff (b : Startup) (as : List SupervisorRunEvent) (dir : Directory) :
    Mends b.place dir (b.after as).shared ↔ ¬ Held b.place dir (b.after as).shared :=
  (b.sound_after as).mends_iff

/-! ## Fixed while the process stops -/

/-- The directory of `oneExtension`, with this text in the manifest. -/
def oneDirectory (manifest : Bytes) : Directory where
  entries := [⟨lit "a", true, some manifest⟩]
  executable := fun _ => true
  nodup := List.nodup_singleton _

/-- The manifest as it should be. -/
def goodManifest : Bytes := lit "name=a\ntitle=A\nversion=1\nprotocol=1\nexec=run\n"

/-- The extension runs, its manifest loses its title, and the process is asked to stop. -/
def brokenWhileRunning : List SupervisorRunEvent :=
  [oneTick, .env (.rescan (oneDirectory (lit "name=a\n")).toDisk), oneTick]

/-- The manifest is fixed before the process is gone: the extension stays invalid. -/
theorem brokenWhileRunning_not_mends :
    ¬ Mends oneExtension.place (oneDirectory goodManifest)
      (oneExtension.after brokenWhileRunning).shared := by
  intro h
  have hstate : ∃ ext ∈ (oneExtension.after brokenWhileRunning).shared.exts,
      ext.info.state = .invalid ∧ ext.pid ≠ 0 ∧ lit "a" = ext.info.name := by decide
  obtain ⟨ext, hext, hinvalid, hpid, hname⟩ := hstate
  refine (oneExtension.sound_after brokenWhileRunning).mends_iff.mp h
    ⟨ext, hext, hinvalid, hpid, _, List.mem_singleton_self _, hname, ⟨?_, rfl⟩, ?_⟩
  · decide
  · decide

end BoatRudder.Extensions
