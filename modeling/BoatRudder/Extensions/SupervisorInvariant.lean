import BoatRudder.Extensions.SupervisorSteps

/-! # What the supervisor keeps

Whatever the order of ticks, exits, switches and rescans, the registry has one entry for each
extension that has a process, which knows the process, and counts no more crashes than were noted
since the extension was last switched on. -/

namespace BoatRudder.Extensions

/-! ## Exits noted -/

/-- Whether a note says that the extension was switched on. -/
def Note.switchesOn (name : Bytes) (n : Note) : Bool := n.name = name && n.deed = .switched true

/-- Whether a note counts an exit of the extension's, no earlier than `start`. -/
def Note.countsExit (name : Bytes) (start : ℕ) (n : Note) : Bool :=
  n.name = name && start ≤ n.time && match n.deed with
    | .exited _ => true
    | _ => false

/-- How many exits of the extension were noted, from `start` on, since it was last switched on. -/
def System.exitsSince (sys : System) (name : Bytes) (start : ℕ) : ℕ :=
  (sys.log.takeWhile fun n => !n.switchesOn name).countP (Note.countsExit name start)

theorem System.exitsSince_note (sys : System) (name other : Bytes) (deed : Deed) (start : ℕ) :
    (sys.note other deed).exitsSince name start =
      if Note.switchesOn name ⟨sys.now, other, deed⟩ then 0
      else sys.exitsSince name start +
        if Note.countsExit name start ⟨sys.now, other, deed⟩ then 1 else 0 := by
  rw [exitsSince, note, List.takeWhile_cons]
  split_ifs with hon hcount <;> simp_all [exitsSince]

/-- A deed done about another extension counts no exit. -/
theorem System.exitsSince_note_of_ne (sys : System) {name other : Bytes} (deed : Deed) (start : ℕ)
    (h : other ≠ name) : (sys.note other deed).exitsSince name start = sys.exitsSince name start := by
  rw [exitsSince_note]
  simp [Note.switchesOn, Note.countsExit, h]

/-- What is done but for switching an extension on takes no exit from the count. -/
theorem System.exitsSince_le_note (sys : System) (name : Bytes) {deed : Deed} (start : ℕ)
    (h : deed ≠ .switched true) :
    sys.exitsSince name start ≤ (sys.note name deed).exitsSince name start := by
  rw [exitsSince_note]
  simp [Note.switchesOn, h]

/-- An exit noted is one more. -/
theorem System.exitsSince_note_exited (sys : System) (name : Bytes) (pid : ℕ) {start : ℕ}
    (h : start ≤ sys.now) :
    (sys.note name (.exited pid)).exitsSince name start = sys.exitsSince name start + 1 := by
  rw [exitsSince_note]
  simp [Note.switchesOn, Note.countsExit, h]

theorem System.exitsSince_anti (sys : System) (name : Bytes) {start start' : ℕ} (h : start ≤ start') :
    sys.exitsSince name start' ≤ sys.exitsSince name start := by
  refine List.countP_mono_left fun n _ hn => ?_
  simp only [Note.countsExit, Bool.and_eq_true, decide_eq_true_eq] at hn ⊢
  exact ⟨⟨hn.1.1, h.trans hn.1.2⟩, hn.2⟩

/-! ## The invariant -/

/-- What the processes keep: ids are given out in order, from 1, and never twice. -/
structure System.Sound (sys : System) : Prop where
  pos : ∀ p ∈ sys.procs, 0 < p.pid
  lt : ∀ p ∈ sys.procs, p.pid < sys.nextPid
  nodup : (sys.procs.map (·.pid)).Nodup
  next : 0 < sys.nextPid

/-- An entry fits the system: the processes of the extension are those with its process id, and what
it counts was noted. -/
structure Tracked (sys : System) (ext : Extension) : Prop where
  owns : ∀ p ∈ sys.procs, p.pid = ext.pid ↔ p.name = ext.info.name
  lt : ext.pid < sys.nextPid
  failed : ext.info.state = .failed → ext.pid = 0 ∧ ext.present = true
  crashes : ext.crashes ≤ sys.exitsSince ext.info.name ext.crashWindow
  window : ext.crashWindow ≤ sys.now

/-- What holds of the supervisor after every run. -/
structure Supervisor.Sound (s : Supervisor) : Prop where
  sys : s.sys.Sound
  nodup : (names s.exts).Nodup
  tracked : ∀ ext ∈ s.exts, Tracked s.sys ext
  owners : ∀ p ∈ s.sys.procs, p.name ∈ names s.exts

section

variable {sys : System} {ext : Extension}

theorem System.processAlive_iff {pid : ℕ} :
    sys.processAlive pid = true ↔ 0 < pid ∧ ∃ p ∈ sys.procs, p.pid = pid := by
  simp [processAlive]

/-- An extension without a live process has no process. -/
theorem Tracked.name_ne (h : Tracked sys ext) (hdead : ext.pid = 0 ∨ sys.processAlive ext.pid = false)
    (hsys : sys.Sound) : ∀ p ∈ sys.procs, p.name ≠ ext.info.name := by
  intro p hp hname
  have hpid := (h.owns p hp).mpr hname
  have halive : sys.processAlive ext.pid = true :=
    System.processAlive_iff.mpr ⟨hpid ▸ hsys.pos p hp, p, hp, hpid⟩
  rcases hdead with h0 | hdead
  · exact absurd (hpid.trans h0) (hsys.pos p hp).ne'
  · rw [hdead] at halive
    cases halive

/-! ## What keeps an entry fit -/

theorem System.Sound.note (h : sys.Sound) (name : Bytes) (deed : Deed) : (sys.note name deed).Sound :=
  ⟨h.pos, h.lt, h.nodup, h.next⟩

theorem System.Sound.spawn (h : sys.Sound) (name : Bytes) : (sys.spawn name).Sound where
  pos := by
    intro p hp
    rcases List.mem_append.mp hp with hp | hp
    · exact h.pos p hp
    · rw [List.mem_singleton.mp hp]
      exact h.next
  lt := by
    intro p hp
    rcases List.mem_append.mp hp with hp | hp
    · exact (h.lt p hp).trans (Nat.lt_succ_self _)
    · rw [List.mem_singleton.mp hp]
      exact Nat.lt_succ_self _
  nodup := by
    rw [System.spawn, List.map_append]
    refine List.nodup_append.mpr ⟨h.nodup, List.nodup_singleton _, ?_⟩
    rintro x hx y hy rfl
    obtain ⟨p, hp, rfl⟩ := List.mem_map.mp hx
    exact (h.lt p hp).ne (List.mem_singleton.mp hy)
  next := Nat.succ_pos _

/-- A deed that is not switching it on keeps an entry fit, whichever extension it is about. -/
theorem Tracked.note (h : Tracked sys ext) (name : Bytes) {deed : Deed}
    (hdeed : name = ext.info.name → deed ≠ .switched true) : Tracked (sys.note name deed) ext where
  owns := h.owns
  lt := h.lt
  failed := h.failed
  crashes := by
    by_cases hname : name = ext.info.name
    · subst hname
      exact h.crashes.trans (sys.exitsSince_le_note _ _ (hdeed rfl))
    · rw [System.exitsSince_note_of_ne _ _ _ hname]
      exact h.crashes
  window := h.window

/-- A process started for another extension. -/
theorem Tracked.spawn (h : Tracked sys ext) {name : Bytes} (hname : ext.info.name ≠ name) :
    Tracked (sys.spawn name) ext where
  owns := by
    intro p hp
    rcases List.mem_append.mp hp with hp | hp
    · exact h.owns p hp
    · rw [List.mem_singleton.mp hp]
      exact ⟨fun heq => absurd (heq ▸ h.lt) (lt_irrefl _), fun heq => absurd heq.symm hname⟩
  lt := h.lt.trans (Nat.lt_succ_self _)
  failed := h.failed
  crashes := h.crashes
  window := h.window

/-- Processes that exit, and time that passes. -/
theorem Tracked.mono (h : Tracked sys ext) {sys' : System} (hprocs : sys'.procs ⊆ sys.procs)
    (hnext : sys'.nextPid = sys.nextPid) (hlog : sys'.log = sys.log) (hnow : sys.now ≤ sys'.now) :
    Tracked sys' ext where
  owns p hp := h.owns p (hprocs hp)
  lt := hnext ▸ h.lt
  failed := h.failed
  crashes := by
    rw [System.exitsSince, hlog]
    exact h.crashes
  window := h.window.trans hnow

/-- Nothing but the process, the counter and the state matters. -/
theorem Tracked.of_eq (h : Tracked sys ext) {ext' : Extension} (hname : ext'.info.name = ext.info.name)
    (hpid : ext'.pid = ext.pid) (hcrashes : ext'.crashes = ext.crashes)
    (hwindow : ext'.crashWindow = ext.crashWindow)
    (hfailed : ext'.info.state = .failed → ext'.pid = 0 ∧ ext'.present = true) : Tracked sys ext' where
  owns := by
    rw [hpid, hname]
    exact h.owns
  lt := hpid ▸ h.lt
  failed := hfailed
  crashes := by
    rw [hcrashes, hname, hwindow]
    exact h.crashes
  window := hwindow ▸ h.window

/-- The process of an entry forgotten when it is gone. -/
theorem Tracked.forget (h : Tracked sys ext) (hsys : sys.Sound) (hpid : ext.pid ≠ 0)
    (hdead : sys.processAlive ext.pid = false) :
    Tracked sys { ext with pid := 0 } where
  owns p hp :=
    ⟨fun heq => absurd heq (hsys.pos p hp).ne', fun heq => absurd heq (h.name_ne (Or.inr hdead) hsys p hp)⟩
  lt := hsys.next
  failed hfailed := absurd (h.failed hfailed).1 hpid
  crashes := h.crashes
  window := h.window

theorem Extension.settled_failed (ext : Extension) : ext.settled.info.state ≠ .failed := by
  rcases ext.settled_state with ⟨h, -⟩ | ⟨h, -⟩ <;> rw [h] <;> nofun

theorem Tracked.settled (h : Tracked sys ext) : Tracked sys ext.settled :=
  h.of_eq (by simp) (by simp) (by simp) (by simp) fun hfailed => absurd hfailed ext.settled_failed

theorem Extension.present_of_wanted (h : ext.wanted = true) : ext.present = true := by
  rw [wanted, Bool.and_eq_true] at h
  exact h.2

/-- An exit noted is counted. -/
theorem Tracked.crashed (h : Tracked sys ext) (hsys : sys.Sound) (hwanted : ext.wanted = true)
    (hpid : ext.pid ≠ 0) (hdead : sys.processAlive ext.pid = false) :
    Tracked (sys.note ext.info.name (.exited ext.pid)) (ext.crashed sys.now) where
  owns p hp := by
    rw [Extension.crashed_pid, Extension.crashed_name]
    exact (h.forget hsys hpid hdead).owns p hp
  lt := by
    rw [Extension.crashed_pid]
    exact hsys.next
  failed _ := ⟨Extension.crashed_pid .., by simpa using Extension.present_of_wanted hwanted⟩
  crashes := by
    rw [Extension.crashed_crashes, Extension.crashed_crashWindow, Extension.crashed_name,
      Extension.countExit]
    split_ifs
    · -- a new window opens at this exit
      rw [System.exitsSince_note_exited _ _ _ le_rfl]
      exact Nat.le_add_left _ _
    · rw [System.exitsSince_note_exited _ _ _ h.window]
      exact Nat.succ_le_succ h.crashes
  window := by
    rw [Extension.crashed_crashWindow, Extension.countExit]
    split_ifs
    · exact le_rfl
    · exact h.window

/-- **A move keeps its entry fit.** -/
theorem tracked_reconcile (host : Host) (hsys : sys.Sound) (h : Tracked sys ext) :
    (reconcile host sys ext).1.Sound ∧
      Tracked (reconcile host sys ext).1 (reconcile host sys ext).2 := by
  have hnote : ∀ deed : Deed, deed ≠ .switched true → Tracked (sys.note ext.info.name deed) ext :=
    fun _ hdeed => h.note _ fun _ => hdeed
  have hmove := reconcile_move host sys ext
  generalize reconcile host sys ext = r at hmove ⊢
  cases hmove with
  | settle hwanted => exact ⟨hsys, h.settled⟩
  | forget hwanted hpid hdead =>
    have hgone : Tracked sys { ext with pid := 0, termSent := 0 } :=
      (h.forget hsys hpid hdead).of_eq rfl rfl rfl rfl fun hfailed =>
        absurd (h.failed hfailed).1 hpid
    exact ⟨hsys, hgone.settled⟩
  | terminate hwanted hpid halive hsent =>
    have hsent : Tracked (sys.note ext.info.name (.terminate ext.pid))
        { ext with termSent := sys.now } :=
      (hnote (.terminate ext.pid) nofun).of_eq rfl rfl rfl rfl h.failed
    exact ⟨hsys.note _ _, hsent.settled⟩
  | kill hwanted hpid halive hsent hgrace =>
    exact ⟨hsys.note _ _, (hnote (.kill ext.pid) nofun).settled⟩
  | crash hwanted hpid hdead => exact ⟨hsys.note _ _, h.crashed hsys hwanted hpid hdead⟩
  | wait hwanted hpid => exact ⟨hsys, h⟩
  | start hwanted hstate hpid =>
    refine ⟨hsys.spawn _, ⟨fun p hp => ?_, Nat.lt_succ_self _, nofun, h.crashes, h.window⟩⟩
    -- it had no process, and now has the new one
    rcases List.mem_append.mp hp with hp | hp
    · exact ⟨fun heq => absurd heq (hsys.lt p hp).ne,
        fun heq => absurd heq (h.name_ne (Or.inl hpid) hsys p hp)⟩
    · rw [List.mem_singleton.mp hp]
      exact ⟨fun _ => rfl, fun _ => rfl⟩
  | refuse hwanted hstate hpid error herror =>
    have hpresent : ext.present = true := Extension.present_of_wanted hwanted
    exact ⟨hsys, h.of_eq rfl hpid.symm rfl rfl fun _ => ⟨rfl, hpresent⟩⟩
  | watch hwanted hpid halive state hstate =>
    refine ⟨hsys, h.of_eq rfl rfl rfl rfl fun hfailed => ?_⟩
    rcases hstate with rfl | rfl <;> cases hfailed

/-- A move keeps the entries of other extensions fit. -/
theorem tracked_reconcile_of_ne (host : Host) {other : Extension} (h : Tracked sys other)
    (hname : other.info.name ≠ ext.info.name) : Tracked (reconcile host sys ext).1 other := by
  have hmove := reconcile_move host sys ext
  generalize reconcile host sys ext = r at hmove ⊢
  have hnote : ∀ deed, Tracked (sys.note ext.info.name deed) other := fun deed =>
    h.note _ fun heq => absurd heq.symm hname
  cases hmove with
  | settle => exact h
  | forget => exact h
  | terminate => exact hnote _
  | kill => exact hnote _
  | crash => exact hnote _
  | wait => exact h
  | start => exact h.spawn hname
  | refuse => exact h
  | watch => exact h

end

/-! ## Every event keeps the invariant -/

section

variable {s : Supervisor} {place : Place}

theorem Supervisor.Sound.tick (h : s.Sound) (elapsed : ℕ) (host : Host) :
    (s.handle place (.tick elapsed host)).Sound := by
  have hsys : ({ s.sys with now := s.sys.now + elapsed } : System).Sound :=
    ⟨h.sys.pos, h.sys.lt, h.sys.nodup, h.sys.next⟩
  have htracked : ∀ ext ∈ s.exts, Tracked { s.sys with now := s.sys.now + elapsed } ext :=
    fun ext hext => (h.tracked ext hext).mono (List.Subset.refl _) rfl rfl (Nat.le_add_right _ _)
  obtain ⟨hsys', htracked', -⟩ := reconcileAll_rule host (P := System.Sound) (Q := Tracked)
    (fun _ _ hsys h => tracked_reconcile host hsys h)
    (fun _ _ _ _ _ h hname => tracked_reconcile_of_ne host h hname) _ h.nodup hsys htracked
  refine ⟨hsys', ?_, htracked', fun p hp => ?_⟩
  · show (names (reconcileAll _ _ _).2).Nodup
    rw [names_reconcileAll]
    exact h.nodup
  · show p.name ∈ names (reconcileAll _ _ _).2
    rw [names_reconcileAll]
    rcases procs_reconcileAll hp with hp | ⟨ext, hext, hname, -⟩
    · exact h.owners p hp
    · exact hname ▸ mem_names hext

theorem Supervisor.Sound.exit (h : s.Sound) (pid : ℕ) : (s.handle place (.exit pid)).Sound where
  sys :=
    ⟨fun p hp => h.sys.pos p (List.mem_of_mem_filter hp), fun p hp => h.sys.lt p (List.mem_of_mem_filter hp),
      h.sys.nodup.sublist (List.filter_sublist.map _), h.sys.next⟩
  nodup := h.nodup
  tracked ext hext := (h.tracked ext hext).mono List.filter_sublist.subset rfl rfl le_rfl
  owners p hp := h.owners p (List.mem_of_mem_filter hp)

theorem Supervisor.Sound.rescan (h : s.Sound) (disk : Disk) : (s.handle place (.rescan disk)).Sound where
  sys := h.sys
  nodup := nodup_scanLocked h.nodup
  tracked := by
    intro new hnew
    obtain ⟨⟨old, hold, hr⟩ | ⟨hname, hfresh⟩, hkept⟩ := mem_scanLocked h.nodup hnew
    · have hfit := h.tracked old hold
      refine hfit.of_eq hr.name hr.pid hr.crashes hr.crashWindow fun hfailed => ?_
      have hpid : new.pid = 0 := hr.pid.trans (hfit.failed (hr.failed hfailed)).1
      exact ⟨hpid, hkept.resolve_right fun hne => hne hpid⟩
    · -- a new entry: the extension has no process
      refine ⟨fun p hp => ?_, ?_, fun hfailed => absurd hfailed hfresh.failed, ?_, ?_⟩
      · rw [hfresh.pid]
        exact ⟨fun h0 => absurd h0 (h.sys.pos p hp).ne', fun heq => absurd (heq ▸ h.owners p hp) hname⟩
      · rw [hfresh.pid]
        exact h.sys.next
      · rw [hfresh.crashes]
        exact Nat.zero_le _
      · rw [hfresh.crashWindow]
        exact Nat.zero_le _
  owners := by
    intro p hp
    obtain ⟨old, hold, hname⟩ := List.mem_map.mp (h.owners p hp)
    have hpid := ((h.tracked old hold).owns p hp).mpr hname.symm
    obtain ⟨new, hnew, hr⟩ := scanLocked_covers place disk h.nodup hold (hpid ▸ (h.sys.pos p hp).ne')
    exact hname ▸ hr.name ▸ mem_names hnew

theorem Supervisor.Sound.handle (h : s.Sound) (e : SupervisorEvent) : (s.handle place e).Sound := by
  cases e with
  | tick elapsed host => exact h.tick elapsed host
  | exit pid => exact h.exit pid
  | rescan disk => exact h.rescan disk

theorem Extension.setEnabled_name (on : Bool) (ext : Extension) :
    (ext.setEnabled on).info.name = ext.info.name := by
  cases on <;> rfl

/-- Switching an extension on begins a count. -/
theorem Tracked.setEnabled {sys : System} {ext : Extension} (h : Tracked sys ext) (on : Bool) :
    Tracked (sys.note ext.info.name (.switched on)) (ext.setEnabled on) := by
  cases on with
  | true =>
    refine ⟨h.owns, h.lt, fun hfailed => ?_, Nat.zero_le _, h.window⟩
    have hstate : (if ext.info.state = .failed then .disabled else ext.info.state) =
        ExtensionState.failed := hfailed
    split_ifs at hstate with hold
    exact absurd hstate hold
  | false =>
    have hnote : Tracked (sys.note ext.info.name (.switched false)) ext := h.note _ fun _ => nofun
    exact hnote.of_eq rfl rfl rfl rfl h.failed

theorem Supervisor.Sound.step (h : s.Sound) (c : SetEnabled) : (c.step s).1.Sound := by
  cases c with
  | check r =>
    rw [SetEnabled.step]
    split <;> exact h
  | store r => exact h
  | apply name on =>
    have hnames : names (change name (.setEnabled on) s.exts) = names s.exts :=
      names_change _ fun ext hext => (ext.setEnabled_name on).trans hext
    refine ⟨h.sys.note _ _, hnames ▸ h.nodup, ?_, fun p hp => hnames ▸ h.owners p hp⟩
    show ∀ ext ∈ change name (.setEnabled on) s.exts, _
    rw [change_eq_map h.nodup]
    rintro _ hext
    obtain ⟨ext, hold, rfl⟩ := List.mem_map.mp hext
    split_ifs with hname
    · exact hname ▸ (h.tracked ext hold).setEnabled on
    · exact (h.tracked ext hold).note _ fun heq => absurd heq.symm hname
  | done result => exact h

end

/-! ## Runs -/

section

variable (b : Startup)

/-- At the start no extension has a process, or has failed. -/
structure Idle (ext : Extension) : Prop where
  pid : ext.pid = 0
  termSent : ext.termSent = 0
  crashes : ext.crashes = 0
  crashWindow : ext.crashWindow = 0
  failed : ext.info.state ≠ .failed

theorem Startup.idle :
    (names b.supervisor.exts).Nodup ∧ ∀ ext ∈ b.supervisor.exts, Idle ext := by
  have hnil : (names []).Nodup := List.nodup_nil
  have hscan : (names (scanLocked b.place b.disk [])).Nodup ∧
      ∀ ext ∈ scanLocked b.place b.disk [], Idle ext := by
    refine ⟨nodup_scanLocked hnil, fun ext hext => ?_⟩
    obtain ⟨⟨old, hold, -⟩ | ⟨-, hfresh⟩, -⟩ := mem_scanLocked hnil hext
    · cases hold
    · exact ⟨hfresh.pid, hfresh.termSent, hfresh.crashes, hfresh.crashWindow, hfresh.failed⟩
  have henable : ∀ (ns : List Bytes) (exts : List Extension),
      ((names exts).Nodup ∧ ∀ ext ∈ exts, Idle ext) →
        (names (ns.foldl (fun exts name => change name .enable exts) exts)).Nodup ∧
          ∀ ext ∈ ns.foldl (fun exts name => change name .enable exts) exts, Idle ext := by
    intro ns
    induction ns with
    | nil => exact fun _ h => h
    | cons n ns ih =>
      rintro exts ⟨hnodup, hidle⟩
      have hnames : names (change n .enable exts) = names exts := names_change _ fun ext hext => hext
      refine ih _ ⟨hnames ▸ hnodup, ?_⟩
      show ∀ ext ∈ change n .enable exts, Idle ext
      rw [change_eq_map hnodup]
      rintro _ hext
      obtain ⟨ext, hold, rfl⟩ := List.mem_map.mp hext
      split_ifs
      · obtain ⟨hpid, hsent, hcrashes, hwindow, hfailed⟩ := hidle ext hold
        exact ⟨hpid, hsent, hcrashes, hwindow, hfailed⟩
      · exact hidle ext hold
  exact henable b.enabled _ hscan

theorem Startup.sound : b.supervisor.Sound := by
  obtain ⟨hnodup, hidle⟩ := b.idle
  have hnone : (b.supervisor.sys.procs.map (·.pid)).Nodup := List.nodup_nil
  refine ⟨⟨nofun, nofun, hnone, Nat.one_pos⟩, hnodup, fun ext hext => ?_, nofun⟩
  obtain ⟨hpid, -, hcrashes, hwindow, hfailed⟩ := hidle ext hext
  exact ⟨nofun, hpid ▸ Nat.one_pos, fun h => absurd h hfailed, hcrashes ▸ Nat.zero_le _,
    hwindow ▸ Nat.zero_le _⟩

/-- The calls keep the invariant, and know nothing. -/
theorem Startup.guarantees :
    b.service.Guarantees Supervisor.Sound (fun _ _ => True) (fun _ _ => True) where
  init := b.sound
  begin _ _ _ := trivial
  act _ c h _ := ⟨h.step c, trivial, trivial⟩
  env _ e h := ⟨h.handle e, trivial⟩
  stable _ _ _ _ _ _ := trivial

/-- **The invariant holds after every run.** -/
theorem Startup.sound_after (as : List SupervisorRunEvent) : (b.after as).shared.Sound :=
  (b.guarantees.after as).1

end

end BoatRudder.Extensions
