import BoatRudder.Extensions.Supervisor

/-! # What a tick and a scan can do

A tick takes one of nine moves for each extension, which change its entry, note at most one deed and
start at most one process; the entries of other extensions do not see it. A scan changes what the
registry says of an extension, but nothing of its process. -/

namespace BoatRudder.Extensions

/-! ## The registry -/

variable {name : Bytes}

/-- The names in a registry. -/
def names (exts : List Extension) : List Bytes := exts.map (·.info.name)

/-- A change reaches the one extension of its name. -/
theorem change_eq_map {f : Extension → Extension} {exts : List Extension} (h : (names exts).Nodup) :
    change name f exts = exts.map fun ext => if ext.info.name = name then f ext else ext := by
  induction exts with
  | nil => rfl
  | cons e es ih =>
    obtain ⟨hnot, hes⟩ := List.nodup_cons.mp h
    rw [change, List.map_cons]
    split_ifs with hname
    · -- no later entry has the name
      congr 1
      refine ((List.map_congr_left fun ext hext => ?_).trans (List.map_id es)).symm
      have hne : ext.info.name ≠ name := fun heq =>
        hnot (List.mem_map.mpr ⟨ext, hext, heq.trans hname.symm⟩)
      exact if_neg hne
    · rw [ih hes]

/-- A change keeps the names. -/
theorem names_change {f : Extension → Extension} (exts : List Extension)
    (hf : ∀ ext, ext.info.name = name → (f ext).info.name = name) :
    names (change name f exts) = names exts := by
  induction exts with
  | nil => rfl
  | cons e es ih =>
    rw [change]
    split_ifs with hname
    · show (f e).info.name :: names es = _
      rw [hf e hname, ← hname]
      rfl
    · show e.info.name :: names (change name f es) = _
      rw [ih]
      rfl

/-- What is not found has no such name. -/
theorem find_eq_none_iff {exts : List Extension} : find exts name = none ↔ name ∉ names exts := by
  simp [find, names]

/-- Two entries of one name are one. -/
theorem eq_of_name {exts : List Extension} (h : (names exts).Nodup) {a b : Extension} (ha : a ∈ exts)
    (hb : b ∈ exts) (hname : a.info.name = b.info.name) : a = b :=
  List.inj_on_of_nodup_map h ha hb hname

/-! ## Moves -/

section

variable (ext : Extension)

@[simp] theorem Extension.settled_name : ext.settled.info.name = ext.info.name := by
  rw [settled]; split_ifs <;> rfl

@[simp] theorem Extension.settled_enabled : ext.settled.info.enabled = ext.info.enabled := by
  rw [settled]; split_ifs <;> rfl

@[simp] theorem Extension.settled_present : ext.settled.present = ext.present := by
  rw [settled]; split_ifs <;> rfl

@[simp] theorem Extension.settled_pid : ext.settled.pid = ext.pid := by
  rw [settled]; split_ifs <;> rfl

@[simp] theorem Extension.settled_termSent : ext.settled.termSent = ext.termSent := by
  rw [settled]; split_ifs <;> rfl

@[simp] theorem Extension.settled_crashes : ext.settled.crashes = ext.crashes := by
  rw [settled]; split_ifs <;> rfl

@[simp] theorem Extension.settled_crashWindow : ext.settled.crashWindow = ext.crashWindow := by
  rw [settled]; split_ifs <;> rfl

/-- A settled extension is disabled or invalid. -/
theorem Extension.settled_state :
    ext.settled.info.state = .disabled ∧ ext.info.state ≠ .invalid ∨
      ext.settled.info.state = .invalid ∧ ext.info.state = .invalid := by
  rw [settled]
  split_ifs with h
  · exact Or.inr ⟨h, h⟩
  · exact Or.inl ⟨rfl, h⟩

variable (now : ℕ)

@[simp] theorem Extension.countExit_info : (ext.countExit now).info = ext.info := by
  rw [countExit]; split_ifs <;> rfl

@[simp] theorem Extension.countExit_present : (ext.countExit now).present = ext.present := by
  rw [countExit]; split_ifs <;> rfl

@[simp] theorem Extension.countExit_pid : (ext.countExit now).pid = 0 := by
  rw [countExit]; split_ifs <;> rfl

@[simp] theorem Extension.countExit_termSent : (ext.countExit now).termSent = ext.termSent := by
  rw [countExit]; split_ifs <;> rfl

@[simp] theorem Extension.crashed_name : (ext.crashed now).info.name = ext.info.name := by
  rw [crashed]; split_ifs <;> simp

@[simp] theorem Extension.crashed_enabled : (ext.crashed now).info.enabled = ext.info.enabled := by
  rw [crashed]; split_ifs <;> simp

@[simp] theorem Extension.crashed_present : (ext.crashed now).present = ext.present := by
  rw [crashed]; split_ifs <;> simp

@[simp] theorem Extension.crashed_pid : (ext.crashed now).pid = 0 := by
  rw [crashed]; split_ifs <;> simp

@[simp] theorem Extension.crashed_termSent : (ext.crashed now).termSent = ext.termSent := by
  rw [crashed]; split_ifs <;> simp

theorem Extension.crashed_crashes : (ext.crashed now).crashes = (ext.countExit now).crashes := by
  rw [crashed]; split_ifs <;> rfl

theorem Extension.crashed_crashWindow :
    (ext.crashed now).crashWindow = (ext.countExit now).crashWindow := by
  rw [crashed]; split_ifs <;> rfl

/-- The window of a counted exit has not run out. -/
theorem Extension.le_crashWindow : now ≤ (ext.crashed now).crashWindow + crashWindowSeconds := by
  rw [crashed_crashWindow, countExit]
  split_ifs <;> simp only [crashWindowSeconds] at * <;> omega

/-- Only an extension at its limit has failed by an exit. -/
theorem Extension.crashed_state :
    (ext.crashed now).info.state = .failed ∧ crashLimit ≤ (ext.crashed now).crashes ∨
      (ext.crashed now).info.state = .starting := by
  rw [crashed_crashes, crashed]
  split_ifs with h
  · exact Or.inl ⟨rfl, h⟩
  · exact Or.inr rfl

end

/-- What `reconcile` does. -/
inductive Move (host : Host) (sys : System) (ext : Extension) : System × Extension → Prop where
  /-- Not wanted, and nothing to stop or not the time yet. -/
  | settle (h : ext.wanted = false) : Move host sys ext (sys, ext.settled)
  /-- Not wanted, and the process is gone. -/
  | forget (h : ext.wanted = false) (hpid : ext.pid ≠ 0) (hdead : sys.processAlive ext.pid = false) :
      Move host sys ext (sys, Extension.settled { ext with pid := 0, termSent := 0 })
  /-- Not wanted: SIGTERM. -/
  | terminate (h : ext.wanted = false) (hpid : ext.pid ≠ 0) (halive : sys.processAlive ext.pid = true)
      (hsent : ext.termSent = 0) :
      Move host sys ext
        (sys.note ext.info.name (.terminate ext.pid), Extension.settled { ext with termSent := sys.now })
  /-- Not wanted, and the grace period is over: SIGKILL. -/
  | kill (h : ext.wanted = false) (hpid : ext.pid ≠ 0) (halive : sys.processAlive ext.pid = true)
      (hsent : ext.termSent ≠ 0) (hgrace : stopGraceSeconds ≤ sys.now - ext.termSent) :
      Move host sys ext (sys.note ext.info.name (.kill ext.pid), ext.settled)
  /-- Wanted, and the process is gone. -/
  | crash (h : ext.wanted = true) (hpid : ext.pid ≠ 0) (hdead : sys.processAlive ext.pid = false) :
      Move host sys ext (sys.note ext.info.name (.exited ext.pid), ext.crashed sys.now)
  /-- Failed, or not to be started yet. -/
  | wait (h : ext.wanted = true) (hpid : ext.pid = 0) : Move host sys ext (sys, ext)
  /-- A process is started. -/
  | start (h : ext.wanted = true) (hstate : ext.info.state ≠ .failed) (hpid : ext.pid = 0) :
      Move host sys ext
        (sys.spawn ext.info.name,
          { ext with pid := sys.nextPid, info := { ext.info with state := .starting, problem := [] } })
  /-- No process could be started. -/
  | refuse (h : ext.wanted = true) (hstate : ext.info.state ≠ .failed) (hpid : ext.pid = 0)
      (error : Bytes) (herror : host.forkError ext.info.name = some error) :
      Move host sys ext
        (sys, { ext with
          pid := 0
          info := { ext.info with
            state := .failed
            problem := (lit "could not be launched: " ++ error).take 199 } })
  /-- The process is there. -/
  | watch (h : ext.wanted = true) (hpid : ext.pid ≠ 0) (halive : sys.processAlive ext.pid = true)
      (state : ExtensionState) (hstate : state = .running ∨ state = .starting) :
      Move host sys ext (sys, { ext with info := { ext.info with state := state } })

/-- An extension that has crashed and not failed waits before it is started again. -/
theorem startOrWatch_crashed (host : Host) (sys : System) (ext : Extension)
    (h : (ext.crashed sys.now).info.state ≠ .failed) (deed : Deed) :
    startOrWatch host (sys.note ext.info.name deed) (ext.crashed sys.now) =
      (sys.note ext.info.name deed, ext.crashed sys.now) := by
  have hwait : sys.now < (ext.crashed sys.now).nextStart := by
    have hpos : 0 < (ext.countExit sys.now).crashes := by
      rw [Extension.countExit]
      split_ifs
      · exact Nat.one_pos
      · exact Nat.succ_pos _
    rw [Extension.crashed] at h ⊢
    split_ifs at h ⊢
    · exact absurd rfl h
    · exact Nat.lt_add_of_pos_right hpos
  rw [startOrWatch, if_pos (Extension.crashed_pid ..)]
  exact if_pos hwait

/-- **`reconcile` takes one of the moves.** -/
theorem reconcile_move (host : Host) (sys : System) (ext : Extension) :
    Move host sys ext (reconcile host sys ext) := by
  unfold reconcile
  cases hwanted : ext.wanted with
  | false =>
    simp only [Bool.not_false, if_true, requestStop]
    split_ifs with hpid hdead hsent hgrace
    · exact .settle hwanted
    · exact .forget hwanted hpid (by simpa using hdead)
    · exact .terminate hwanted hpid (by simpa using hdead) hsent
    · exact .kill hwanted hpid (by simpa using hdead) hsent hgrace
    · exact .settle hwanted
  | true =>
    simp only [Bool.not_true, Bool.false_eq_true, if_false]
    split_ifs with hfailed hdead hstate
    · exact .wait hwanted hfailed.2
    · exact .crash hwanted hdead.1 (by simpa using hdead.2)
    · rw [startOrWatch_crashed host sys ext hstate]
      exact .crash hwanted hdead.1 (by simpa using hdead.2)
    · have halive : ext.pid ≠ 0 → sys.processAlive ext.pid = true := by
        intro hpid
        by_contra h
        exact hdead ⟨hpid, by simpa using h⟩
      rw [startOrWatch]
      split_ifs with hpid hwait hsocket
      · exact .wait hwanted hpid
      · have hstate : ext.info.state ≠ .failed := fun h => hfailed ⟨h, hpid⟩
        rw [launch]
        cases herror : host.forkError ext.info.name with
        | some error => exact .refuse hwanted hstate hpid error herror
        | none => exact .start hwanted hstate hpid
      · exact .watch hwanted hpid (halive hpid) .running (Or.inl rfl)
      · exact .watch hwanted hpid (halive hpid) .starting (Or.inr rfl)

/-! ## Ticks -/

/-- A move changes neither the name of an extension nor whether it is switched on. -/
theorem reconcile_name (host : Host) (sys : System) (ext : Extension) :
    (reconcile host sys ext).2.info.name = ext.info.name := by
  have hmove := reconcile_move host sys ext
  generalize reconcile host sys ext = r at hmove ⊢
  cases hmove <;> simp

/-- Reconciling enables and disables nothing. -/
theorem reconcile_enabled (host : Host) (sys : System) (ext : Extension) :
    (reconcile host sys ext).2.info.enabled = ext.info.enabled := by
  have hmove := reconcile_move host sys ext
  generalize reconcile host sys ext = r at hmove ⊢
  cases hmove <;> simp

/-- What a tick starts, it starts for an extension that is wanted, has not failed and has no
process. -/
theorem procs_reconcileAll {host : Host} {sys : System} {exts : List Extension} {p : Process}
    (h : p ∈ (reconcileAll host sys exts).1.procs) :
    p ∈ sys.procs ∨ ∃ ext ∈ exts, ext.info.name = p.name ∧ ext.wanted = true ∧
      ext.info.state ≠ .failed ∧ ext.pid = 0 := by
  induction exts generalizing sys with
  | nil => exact Or.inl h
  | cons e es ih =>
    rcases ih h with hp | ⟨ext, hext, hfacts⟩
    · cases hr : reconcile host sys e with
      | mk sys' e' =>
        have hmove := reconcile_move host sys e
        rw [hr] at hmove hp
        cases hmove with
        | start hwanted hstate hpid =>
          rcases List.mem_append.mp hp with hp | hp
          · exact Or.inl hp
          · rw [List.mem_singleton] at hp
            exact Or.inr ⟨e, by simp, by rw [hp], hwanted, hstate, hpid⟩
        | settle => exact Or.inl hp
        | forget => exact Or.inl hp
        | terminate => exact Or.inl hp
        | kill => exact Or.inl hp
        | crash => exact Or.inl hp
        | wait => exact Or.inl hp
        | refuse => exact Or.inl hp
        | watch => exact Or.inl hp
    · exact Or.inr ⟨ext, List.mem_cons_of_mem _ hext, hfacts⟩

/-- A tick keeps the clock. -/
theorem reconcile_now (host : Host) (sys : System) (ext : Extension) :
    (reconcile host sys ext).1.now = sys.now := by
  have hmove := reconcile_move host sys ext
  generalize reconcile host sys ext = r at hmove ⊢
  cases hmove <;> rfl

/-- Every entry after a tick comes of one before it, by a move. -/
theorem mem_reconcileAll {host : Host} {sys : System} {exts : List Extension} {ext' : Extension}
    (h : ext' ∈ (reconcileAll host sys exts).2) :
    ∃ ext ∈ exts, ∃ sys' : System, sys'.now = sys.now ∧ (reconcile host sys' ext).2 = ext' := by
  induction exts generalizing sys with
  | nil => cases h
  | cons e es ih =>
    rcases List.mem_cons.mp h with rfl | h
    · exact ⟨e, by simp, sys, rfl, rfl⟩
    · obtain ⟨ext, hext, sys', hnow, heq⟩ := ih h
      exact ⟨ext, List.mem_cons_of_mem _ hext, sys', hnow.trans (reconcile_now ..), heq⟩

/-- Reconciling keeps the names. -/
@[simp] theorem names_reconcileAll (host : Host) (sys : System) (exts : List Extension) :
    names (reconcileAll host sys exts).2 = names exts := by
  induction exts generalizing sys with
  | nil => rfl
  | cons e es ih =>
    show (reconcile host sys e).2.info.name :: names (reconcileAll host (reconcile host sys e).1 es).2
      = e.info.name :: names es
    rw [reconcile_name, ih]

/-- Reconciling takes no time. -/
@[simp] theorem now_reconcileAll (host : Host) (sys : System) (exts : List Extension) :
    (reconcileAll host sys exts).1.now = sys.now := by
  induction exts generalizing sys with
  | nil => rfl
  | cons e es ih => exact (ih _).trans (reconcile_now ..)

/-- **The rule for ticks**: what holds of the system, and of each entry beside it, is kept by a tick
if a move keeps it of its own entry, and of the entries of other extensions. -/
theorem reconcileAll_rule (host : Host) {P : System → Prop} {Q : System → Extension → Prop}
    (hstep : ∀ sys ext, P sys → Q sys ext →
      P (reconcile host sys ext).1 ∧ Q (reconcile host sys ext).1 (reconcile host sys ext).2)
    (hframe : ∀ sys ext other, P sys → Q sys ext → Q sys other → other.info.name ≠ ext.info.name →
      Q (reconcile host sys ext).1 other)
    {exts : List Extension} (sys : System) (hnames : (names exts).Nodup) (hP : P sys)
    (hQ : ∀ ext ∈ exts, Q sys ext) :
    P (reconcileAll host sys exts).1 ∧
      (∀ ext ∈ (reconcileAll host sys exts).2, Q (reconcileAll host sys exts).1 ext) ∧
        ∀ other, other.info.name ∉ names exts → Q sys other → Q (reconcileAll host sys exts).1 other := by
  induction exts generalizing sys with
  | nil => exact ⟨hP, by simp [reconcileAll], fun other _ h => h⟩
  | cons e es ih =>
    obtain ⟨hnot, hes⟩ := List.nodup_cons.mp hnames
    obtain ⟨he, hQes⟩ := List.forall_mem_cons.mp hQ
    obtain ⟨hP', he'⟩ := hstep sys e hP he
    have hothers : ∀ ext ∈ es, Q (reconcile host sys e).1 ext := fun ext hext =>
      hframe sys e ext hP he (hQes ext hext) fun heq => hnot (List.mem_map.mpr ⟨ext, hext, heq⟩)
    obtain ⟨hPend, hQend, hrest⟩ := ih _ hes hP' hothers
    refine ⟨hPend, List.forall_mem_cons.mpr ⟨hrest _ ?_ he', hQend⟩, fun other hother h => ?_⟩
    · rw [reconcile_name]
      exact hnot
    · obtain ⟨hne, hother⟩ := not_or.mp (fun hmem => hother (List.mem_cons.mpr hmem))
      exact hrest other hother (hframe sys e other hP he h hne)

/-! ## Scans -/

/-- What a scan makes of an entry: nothing that belongs to its process changes, and it has failed
after it if it had before, unless its manifest is invalid now. -/
structure Rescan (place : Place) (disk : Disk) (old new : Extension) : Prop where
  name : new.info.name = old.info.name
  enabled : new.info.enabled = old.info.enabled
  pid : new.pid = old.pid
  termSent : new.termSent = old.termSent
  crashes : new.crashes = old.crashes
  crashWindow : new.crashWindow = old.crashWindow
  failed : new.info.state = .failed → old.info.state = .failed
  stays : old.info.state = .failed → ¬ disk.FindsInvalid place old.info.name → new.info.state = .failed

/-- An entry that a scan has made. -/
structure Fresh (new : Extension) : Prop where
  enabled : new.info.enabled = false
  pid : new.pid = 0
  termSent : new.termSent = 0
  crashes : new.crashes = 0
  crashWindow : new.crashWindow = 0
  failed : new.info.state ≠ .failed

section

variable {entry : DirEntry}
variable {place : Place} {disk : Disk} {exts : List Extension} {a b c : Extension}

/-- Two rescans of an extension are one. -/
theorem Rescan.trans (h : Rescan place disk a b) (h' : Rescan place disk b c) :
    Rescan place disk a c where
  name := h'.name.trans h.name
  enabled := h'.enabled.trans h.enabled
  pid := h'.pid.trans h.pid
  termSent := h'.termSent.trans h.termSent
  crashes := h'.crashes.trans h.crashes
  crashWindow := h'.crashWindow.trans h.crashWindow
  failed hc := h.failed (h'.failed hc)
  stays ha hvalid := h'.stays (h.stays ha hvalid) (h.name ▸ hvalid)

/-- A rescan keeps an extension fresh. -/
theorem Fresh.rescan (h : Fresh a) (h' : Rescan place disk a b) : Fresh b where
  enabled := h'.enabled.trans h.enabled
  pid := h'.pid.trans h.pid
  termSent := h'.termSent.trans h.termSent
  crashes := h'.crashes.trans h.crashes
  crashWindow := h'.crashWindow.trans h.crashWindow
  failed hb := h.failed (h'.failed hb)

/-- Reading a manifest makes an entry disabled or invalid, and invalid only if the manifest is. -/
theorem readManifest_state (place : Place) (disk : Disk) (ext : Extension) (entry : DirEntry) :
    (readManifest place disk ext entry).info.state = .disabled ∨
      (readManifest place disk ext entry).info.state = .invalid ∧
        (manifestProblem place disk entry).isSome := by
  by_cases h : (manifestProblem place disk entry).isNone = true
  · exact Or.inl (if_pos h)
  · exact Or.inr ⟨if_neg h, by simpa [Option.isSome_iff_ne_none] using h⟩

/-- A valid name fits its buffer. -/
theorem readManifest_name (h : validName entry.name = true) (ext : Extension) :
    (readManifest place disk ext entry).info.name = entry.name := by
  simp only [validName, Bool.and_eq_true, decide_eq_true_eq] at h
  exact List.take_of_length_le h.1.2

/-- An entry of the directory read into its entry of the registry. -/
theorem rescan_rescanned (hentry : entry ∈ disk.entries)
    (hname : validName entry.name = true) (hdir : entry.isDir = true) (h : a.info.name = entry.name) :
    Rescan place disk a (rescanned place disk a entry) := by
  have hread : (readManifest place disk a entry).info.name = a.info.name :=
    (readManifest_name hname a).trans h.symm
  have hstate := readManifest_state place disk a entry
  have hfailed : (readManifest place disk a entry).info.state ≠ .failed := by
    rcases hstate with heq | ⟨heq, -⟩ <;> rw [heq] <;> nofun
  rw [rescanned]
  split_ifs with hkept
  · exact ⟨hread, rfl, rfl, rfl, rfl, rfl, id, fun hfailed _ => hfailed⟩
  · refine ⟨hread, rfl, rfl, rfl, rfl, rfl, fun hnew => absurd hnew hfailed, ?_⟩
    intro hold hnot
    -- it is kept unless its manifest is invalid
    refine absurd ⟨fun hinvalid => hnot ⟨entry, hentry, h.symm, hdir, ?_⟩, Or.inr hold⟩ hkept
    rcases hstate with heq | ⟨-, hproblem⟩
    · rw [heq] at hinvalid
      cases hinvalid
    · exact hproblem

/-- An entry made for a directory. -/
theorem rescanned_default (place : Place) (disk : Disk) (entry : DirEntry) :
    rescanned place disk {} entry = { readManifest place disk {} entry with present := true } :=
  if_neg (by simp)

/-- An extension that is found for the first time is fresh. -/
theorem fresh_rescanned (place : Place) (disk : Disk) (entry : DirEntry) :
    Fresh (rescanned place disk {} entry) := by
  rw [rescanned_default]
  refine ⟨rfl, rfl, rfl, rfl, rfl, ?_⟩
  rcases readManifest_state place disk {} entry with heq | ⟨heq, -⟩
  · exact fun h => nomatch heq.symm.trans h
  · exact fun h => nomatch heq.symm.trans h

/-- What the entries read so far have made of the registry. -/
structure ScanOf (place : Place) (disk : Disk) (exts cur : List Extension) : Prop where
  nodup : (names cur).Nodup
  mem : ∀ new ∈ cur, (∃ old ∈ exts, Rescan place disk old new) ∨ new.info.name ∉ names exts ∧ Fresh new
  covers : ∀ old ∈ exts, ∃ new ∈ cur, Rescan place disk old new

theorem mem_names {ext : Extension} (h : ext ∈ exts) : ext.info.name ∈ names exts :=
  List.mem_map_of_mem (f := fun ext : Extension => ext.info.name) h

theorem ScanOf.scanEntry {cur : List Extension} (h : ScanOf place disk exts cur)
    (hentry : entry ∈ disk.entries) : ScanOf place disk exts (scanEntry place disk cur entry) := by
  rw [Extensions.scanEntry]
  split_ifs with hskip hfound hfull
  · exact h
  · -- its entry is read again
    have hvalid : validName entry.name = true ∧ entry.isDir = true := by simpa using hskip
    have hrescan : ∀ ext : Extension, ext.info.name = entry.name →
        Rescan place disk ext (rescanned place disk ext entry) := fun ext hext =>
      rescan_rescanned hentry hvalid.1 hvalid.2 hext
    refine ⟨?_, ?_, ?_⟩
    · rw [names_change _ fun ext hext => (hrescan ext hext).name.trans hext]
      exact h.nodup
    · rw [change_eq_map h.nodup]
      rintro _ hnew
      obtain ⟨new, hcur, rfl⟩ := List.mem_map.mp hnew
      split_ifs with hname
      · rcases h.mem new hcur with ⟨old, hold, hr⟩ | ⟨hnot, hfresh⟩
        · exact Or.inl ⟨old, hold, hr.trans (hrescan new hname)⟩
        · exact Or.inr ⟨(hrescan new hname).name.symm ▸ hnot, hfresh.rescan (hrescan new hname)⟩
      · exact h.mem new hcur
    · intro old hold
      obtain ⟨new, hcur, hr⟩ := h.covers old hold
      rw [change_eq_map h.nodup]
      refine ⟨_, List.mem_map_of_mem hcur, ?_⟩
      split_ifs with hname
      · exact hr.trans (hrescan new hname)
      · exact hr
  · exact h
  · -- an entry is made for it
    have hvalid : validName entry.name = true ∧ entry.isDir = true := by simpa using hskip
    have hnot : entry.name ∉ names cur := find_eq_none_iff.mp (by simpa using hfound)
    have hname : (rescanned place disk {} entry).info.name = entry.name := by
      rw [rescanned_default]
      exact readManifest_name hvalid.1 {}
    have hnew : (rescanned place disk {} entry).info.name ∉ names exts := by
      intro hmem
      obtain ⟨old, hold, heq⟩ := List.mem_map.mp hmem
      obtain ⟨new, hcur, hr⟩ := h.covers old hold
      exact hnot (hname ▸ heq ▸ hr.name ▸ mem_names hcur)
    refine ⟨?_, ?_, ?_⟩
    · show (List.map _ (cur ++ [_])).Nodup
      rw [List.map_append]
      refine List.nodup_append.mpr ⟨h.nodup, List.nodup_singleton _, ?_⟩
      intro x hx y hy hxy
      rw [List.map_singleton, List.mem_singleton] at hy
      exact hnot ((hxy.trans (hy.trans hname)) ▸ hx)
    · intro new hmem
      rcases List.mem_append.mp hmem with hcur | hsingle
      · exact h.mem new hcur
      · rw [List.mem_singleton] at hsingle
        subst hsingle
        exact Or.inr ⟨hnew, fresh_rescanned place disk entry⟩
    · intro old hold
      obtain ⟨new, hcur, hr⟩ := h.covers old hold
      exact ⟨new, List.mem_append_left _ hcur, hr⟩

/-- What the whole directory makes of the registry, before entries are dropped. -/
theorem scanOf_foldl (hexts : (names exts).Nodup) :
    ScanOf place disk exts (disk.entries.foldl (Extensions.scanEntry place disk)
      (exts.map fun ext => { ext with present := false })) := by
  have hstart : ScanOf place disk exts (exts.map fun ext => { ext with present := false }) := by
    have hrescan : ∀ ext : Extension, Rescan place disk ext { ext with present := false } :=
      fun ext => ⟨rfl, rfl, rfl, rfl, rfl, rfl, id, fun h _ => h⟩
    refine ⟨?_, ?_, ?_⟩
    · rw [names, List.map_map]
      exact hexts
    · rintro _ hnew
      obtain ⟨old, hold, rfl⟩ := List.mem_map.mp hnew
      exact Or.inl ⟨old, hold, hrescan old⟩
    · exact fun old hold => ⟨_, List.mem_map_of_mem hold, hrescan old⟩
  have hentries : ∀ entries ⊆ disk.entries, ∀ cur, ScanOf place disk exts cur →
      ScanOf place disk exts (entries.foldl (Extensions.scanEntry place disk) cur) := by
    intro entries
    induction entries with
    | nil => exact fun _ cur h => h
    | cons entry entries ih =>
      intro hsub cur h
      exact ih (fun e he => hsub (List.mem_cons_of_mem _ he)) _ (h.scanEntry (hsub (by simp)))
  exact hentries _ (List.Subset.refl _) _ hstart

/-- A scan keeps what is present and what still runs. -/
theorem mem_scanLocked_iff {new : Extension} :
    new ∈ scanLocked place disk exts ↔
      new ∈ disk.entries.foldl (Extensions.scanEntry place disk)
        (exts.map fun ext => { ext with present := false }) ∧ (new.present = true ∨ new.pid ≠ 0) := by
  rw [scanLocked, List.mem_insertionSort, List.mem_filter]
  simp

/-- **A scan**: every entry after it is one that was there, with what belongs to its process, or one
of an extension that was not in the registry. -/
theorem mem_scanLocked (hexts : (names exts).Nodup) {new : Extension}
    (h : new ∈ scanLocked place disk exts) :
    ((∃ old ∈ exts, Rescan place disk old new) ∨ new.info.name ∉ names exts ∧ Fresh new) ∧
      (new.present = true ∨ new.pid ≠ 0) := by
  obtain ⟨hmem, hkept⟩ := mem_scanLocked_iff.mp h
  exact ⟨(scanOf_foldl hexts).mem new hmem, hkept⟩

/-- An extension with a process is not dropped. -/
theorem scanLocked_covers (place : Place) (disk : Disk) (hexts : (names exts).Nodup) {old : Extension} (h : old ∈ exts)
    (hpid : old.pid ≠ 0) : ∃ new ∈ scanLocked place disk exts, Rescan place disk old new := by
  obtain ⟨new, hmem, hr⟩ := (scanOf_foldl hexts).covers old h
  exact ⟨new, mem_scanLocked_iff.mpr ⟨hmem, Or.inr (hr.pid ▸ hpid)⟩, hr⟩

/-- A scan finds no name twice. -/
theorem nodup_scanLocked (hexts : (names exts).Nodup) : (names (scanLocked place disk exts)).Nodup := by
  rw [names, scanLocked, ((List.perm_insertionSort _ _).map _).nodup_iff]
  exact (scanOf_foldl hexts).nodup.sublist (List.filter_sublist.map _)

end

end BoatRudder.Extensions
