import BoatRudder.Extensions.SafeSupervision

/-! # The grace period

`term_sent` belongs to an extension, and the process it speaks of may go without the supervisor
clearing it: an extension switched on again while its process stops is looked after by the branch for
those that run, which takes the exit for a crash and leaves the time in place. As long as that does not
happen, a process is killed only after its grace period. -/

namespace BoatRudder.Extensions

variable {b : Startup} {as : List SupervisorRunEvent} {sys : System} {ext : Extension}

/-- What the supervisor's history keeps to, the last deed being the first of it. -/
structure GraceKept (log : List Note) : Prop where
  /-- A process is killed only some seconds after it was asked to stop. -/
  kill : ∀ new old t name pid, log = new ++ ⟨t, name, .kill pid⟩ :: old →
    ∃ t', ⟨t', name, .terminate pid⟩ ∈ old ∧ t' + stopGraceSeconds ≤ t
  /-- The exit of a process that was asked to stop is not counted. -/
  exited : ∀ new old t name pid, log = new ++ ⟨t, name, .exited pid⟩ :: old →
    ∀ n ∈ old, n.deed ≠ .terminate pid

/-- The event is no tick that finds an extension wanted again whose process was asked to stop and has
exited since. -/
def StopsSeenOut (w : CallState Supervisor SetEnabled) (e : SupervisorRunEvent) : Prop :=
  ∀ elapsed host, e = .env (.tick elapsed host) → ∀ ext ∈ w.shared.exts,
    ext.wanted = true → ext.pid ≠ 0 → w.shared.sys.processAlive ext.pid = false →
      ∀ n ∈ w.shared.sys.log, n.deed ≠ .terminate ext.pid

/-! ## Histories -/

theorem GraceKept.cons {log : List Note} (h : GraceKept log) {n : Note}
    (hkill : ∀ pid, n.deed = .kill pid →
      ∃ t', ⟨t', n.name, .terminate pid⟩ ∈ log ∧ t' + stopGraceSeconds ≤ n.time)
    (hexited : ∀ pid, n.deed = .exited pid → ∀ m ∈ log, m.deed ≠ .terminate pid) :
    GraceKept (n :: log) where
  kill := by
    intro new old t name pid heq
    cases new with
    | nil =>
      obtain ⟨rfl, rfl⟩ := List.cons.inj heq
      exact hkill pid rfl
    | cons m new => exact h.kill new old t name pid (List.cons.inj heq).2
  exited := by
    intro new old t name pid heq
    cases new with
    | nil =>
      obtain ⟨rfl, rfl⟩ := List.cons.inj heq
      exact hexited pid rfl
    | cons m new => exact h.exited new old t name pid (List.cons.inj heq).2

/-! ## What an entry knows of its stop -/

/-- A stop that is going on was begun: its process was asked to stop at the time the entry has. -/
def Stopping (sys : System) (ext : Extension) : Prop :=
  ext.termSent ≠ 0 → ext.pid ≠ 0 ∧ ⟨ext.termSent, ext.info.name, .terminate ext.pid⟩ ∈ sys.log

/-- If its process has exited and it is wanted, the process was not asked to stop. -/
def SeenOut (sys : System) (ext : Extension) : Prop :=
  ext.wanted = true → ext.pid ≠ 0 → sys.processAlive ext.pid = false →
    ∀ n ∈ sys.log, n.deed ≠ .terminate ext.pid

@[simp] theorem Extension.settled_wanted (ext : Extension) : ext.settled.wanted = ext.wanted := by
  rcases ext.settled_state with ⟨h, hold⟩ | ⟨h, hold⟩ <;> simp [wanted, h, hold]

theorem SeenOut.of_unwanted (h : ext.wanted = false) : SeenOut sys ext := by
  intro hwanted
  rw [h] at hwanted
  cases hwanted

/-- **A move keeps the grace period.** -/
theorem graceKept_reconcile (host : Host) (hlog : GraceKept sys.log) (hstop : Stopping sys ext)
    (hseen : SeenOut sys ext) :
    GraceKept (reconcile host sys ext).1.log ∧
      Stopping (reconcile host sys ext).1 (reconcile host sys ext).2 ∧
        SeenOut (reconcile host sys ext).1 (reconcile host sys ext).2 := by
  have hmove := reconcile_move host sys ext
  generalize reconcile host sys ext = r at hmove ⊢
  cases hmove with
  | settle hwanted =>
    refine ⟨hlog, ?_, SeenOut.of_unwanted (by simpa using hwanted)⟩
    simpa [Stopping] using hstop
  | forget hwanted hpid hdead =>
    refine ⟨hlog, fun hsent => absurd (Extension.settled_termSent _) hsent, SeenOut.of_unwanted ?_⟩
    rw [Extension.settled_wanted]
    exact hwanted
  | terminate hwanted hpid halive hsent =>
    refine ⟨hlog.cons nofun nofun, fun _ => ?_, SeenOut.of_unwanted ?_⟩
    · simp only [Extension.settled_pid, Extension.settled_termSent, Extension.settled_name]
      exact ⟨hpid, List.mem_cons_self⟩
    · rw [Extension.settled_wanted]
      exact hwanted
  | kill hwanted hpid halive hsent hgrace =>
    obtain ⟨-, hmem⟩ := hstop hsent
    refine ⟨hlog.cons ?_ nofun, fun _ => ?_, SeenOut.of_unwanted (by simpa using hwanted)⟩
    · intro pid hdeed
      obtain rfl := Deed.kill.inj hdeed
      refine ⟨ext.termSent, hmem, ?_⟩
      show ext.termSent + 3 ≤ sys.now
      have hthree : 3 ≤ sys.now - ext.termSent := hgrace
      omega
    · simp only [Extension.settled_pid, Extension.settled_termSent, Extension.settled_name]
      exact ⟨hpid, List.mem_cons_of_mem _ hmem⟩
  | crash hwanted hpid hdead =>
    have hnot := hseen hwanted hpid hdead
    refine ⟨hlog.cons nofun ?_, fun hsent => ?_, fun _ hzero => absurd ?_ hzero⟩
    · intro pid hdeed
      obtain rfl := Deed.exited.inj hdeed
      exact hnot
    · -- the process was not asked to stop, so no stop is going on
      rw [Extension.crashed_termSent] at hsent
      exact absurd rfl (hnot _ (hstop hsent).2)
    · exact Extension.crashed_pid ..
  | wait hwanted hpid => exact ⟨hlog, hstop, hseen⟩
  | start hwanted hstate hpid =>
    refine ⟨hlog, fun hsent => absurd hpid (hstop hsent).1, fun _ hpos hdead => ?_⟩
    have halive : (sys.spawn ext.info.name).processAlive sys.nextPid = true :=
      System.processAlive_iff.mpr
        ⟨Nat.pos_of_ne_zero hpos, _, List.mem_append_right _ (List.mem_singleton_self _), rfl⟩
    exact absurd (halive.symm.trans hdead) nofun
  | refuse hwanted hstate hpid error herror =>
    exact ⟨hlog, fun hsent => absurd hpid (hstop hsent).1, fun _ hzero => absurd rfl hzero⟩
  | watch hwanted hpid halive state hstate =>
    refine ⟨hlog, hstop, fun _ _ hdead => ?_⟩
    exact absurd (halive.symm.trans hdead) nofun

/-- A move for one extension does not touch the stop of another. -/
theorem stopping_reconcile_of_ne (host : Host) {other : Extension} (hfit : Tracked sys ext)
    (hother : Tracked sys other) (hname : other.info.name ≠ ext.info.name) (hstop : Stopping sys other)
    (hseen : SeenOut sys other) :
    Stopping (reconcile host sys ext).1 other ∧ SeenOut (reconcile host sys ext).1 other := by
  have hmove := reconcile_move host sys ext
  generalize reconcile host sys ext = r at hmove ⊢
  -- a deed that is no SIGTERM for the process of the other
  have hnote : ∀ deed : Deed, deed ≠ .terminate other.pid →
      Stopping (sys.note ext.info.name deed) other ∧ SeenOut (sys.note ext.info.name deed) other := by
    refine fun deed hdeed => ⟨fun hsent => ?_, fun hwanted hpid hdead => ?_⟩
    · exact ⟨(hstop hsent).1, List.mem_cons_of_mem _ (hstop hsent).2⟩
    · exact List.forall_mem_cons.mpr ⟨hdeed, hseen hwanted hpid hdead⟩
  cases hmove with
  | settle => exact ⟨hstop, hseen⟩
  | forget => exact ⟨hstop, hseen⟩
  | terminate hwanted hpid halive hsent =>
    refine hnote _ fun heq => hname ?_
    obtain ⟨-, p, hp, hpid⟩ := System.processAlive_iff.mp halive
    have hsame : p.pid = other.pid := hpid.trans (Deed.terminate.inj heq)
    exact ((hother.owns p hp).mp hsame).symm.trans ((hfit.owns p hp).mp hpid)
  | kill => exact hnote _ nofun
  | crash => exact hnote _ nofun
  | wait => exact ⟨hstop, hseen⟩
  | start =>
    refine ⟨hstop, fun hwanted hpid hdead => hseen hwanted hpid ?_⟩
    by_contra halive
    obtain ⟨hpos, p, hp, heq⟩ := System.processAlive_iff.mp (Bool.not_eq_false _ ▸ halive)
    have halive' : (sys.spawn ext.info.name).processAlive other.pid = true :=
      System.processAlive_iff.mpr ⟨hpos, p, List.mem_append_left _ hp, heq⟩
    exact absurd (halive'.symm.trans hdead) nofun
  | refuse => exact ⟨hstop, hseen⟩
  | watch => exact ⟨hstop, hseen⟩

/-! ## Runs -/

/-- The history keeps the grace period, and every entry knows of its stop. -/
structure Supervisor.Graceful (s : Supervisor) : Prop where
  sound : s.Sound
  log : GraceKept s.sys.log
  stopping : ∀ ext ∈ s.exts, Stopping s.sys ext

section

variable {s : Supervisor} {place : Place}

theorem Supervisor.Graceful.tick (h : s.Graceful) (elapsed : ℕ) (host : Host)
    (hseen : ∀ ext ∈ s.exts, SeenOut s.sys ext) : (s.handle place (.tick elapsed host)).Graceful := by
  obtain ⟨⟨-, hlog⟩, hexts, -⟩ := reconcileAll_rule host
    (P := fun sys => sys.Sound ∧ GraceKept sys.log)
    (Q := fun sys ext => Tracked sys ext ∧ Stopping sys ext ∧ SeenOut sys ext)
    (fun sys ext hsys hext => by
      obtain ⟨hsound, hfit⟩ := tracked_reconcile host hsys.1 hext.1
      obtain ⟨hlog, hstop, hseen⟩ := graceKept_reconcile host hsys.2 hext.2.1 hext.2.2
      exact ⟨⟨hsound, hlog⟩, hfit, hstop, hseen⟩)
    (fun sys ext other _ hext hother hname =>
      ⟨tracked_reconcile_of_ne host hother.1 hname,
        stopping_reconcile_of_ne host hext.1 hother.1 hname hother.2.1 hother.2.2⟩)
    { s.sys with now := s.sys.now + elapsed } h.sound.nodup
    ⟨⟨h.sound.sys.pos, h.sound.sys.lt, h.sound.sys.nodup, h.sound.sys.next⟩, h.log⟩
    (fun ext hext =>
      ⟨(h.sound.tracked ext hext).mono (List.Subset.refl _) rfl rfl (Nat.le_add_right _ _),
        h.stopping ext hext, hseen ext hext⟩)
  exact ⟨h.sound.tick elapsed host, hlog, fun ext hext => (hexts ext hext).2.1⟩

theorem Supervisor.Graceful.rescan (h : s.Graceful) (disk : Disk) :
    (s.handle place (.rescan disk)).Graceful where
  sound := h.sound.rescan disk
  log := h.log
  stopping := by
    intro new hnew hsent
    obtain ⟨⟨old, hold, hr⟩ | ⟨-, hfresh⟩, -⟩ := mem_scanLocked h.sound.nodup hnew
    · rw [hr.pid, hr.termSent, hr.name]
      exact h.stopping old hold (hr.termSent ▸ hsent)
    · exact absurd hfresh.termSent hsent

theorem Supervisor.Graceful.step (h : s.Graceful) (c : SetEnabled) : (c.step s).1.Graceful := by
  cases c with
  | check r =>
    rw [SetEnabled.step]
    split <;> exact h
  | store r => exact h
  | apply name on =>
    refine ⟨h.sound.step _, h.log.cons (fun _ hdeed => by simp at hdeed) (fun _ hdeed => by simp at hdeed), ?_⟩
    show ∀ ext ∈ change name (.setEnabled on) s.exts, _
    rw [change_eq_map h.sound.nodup]
    rintro _ hext hsent
    obtain ⟨ext, hold, rfl⟩ := List.mem_map.mp hext
    split_ifs at hsent ⊢ with hname
    · cases on with
      | true => exact ⟨(h.stopping ext hold hsent).1, List.mem_cons_of_mem _ (h.stopping ext hold hsent).2⟩
      | false => exact ⟨(h.stopping ext hold hsent).1, List.mem_cons_of_mem _ (h.stopping ext hold hsent).2⟩
    · exact ⟨(h.stopping ext hold hsent).1, List.mem_cons_of_mem _ (h.stopping ext hold hsent).2⟩
  | done result => exact h

end

theorem Startup.graceful (b : Startup) : b.supervisor.Graceful := by
  refine ⟨b.sound, ⟨fun new old t name pid heq => ?_, fun new old t name pid heq => ?_⟩, ?_⟩
  · exact absurd heq.symm (by simp [supervisor])
  · exact absurd heq.symm (by simp [supervisor])
  · exact fun ext hext hsent => absurd (b.idle.2 ext hext).termSent hsent

/-- As long as no stop is missed, the grace period is kept. -/
theorem Startup.graceful_after (h : b.service.machine.Along StopsSeenOut as) :
    (b.after as).shared.Graceful := by
  refine Machine.after_of_along (m := b.service.machine) (I := fun w => w.shared.Graceful)
    b.graceful (fun w e hw hseen => ?_) h
  show (b.service.step w e).shared.Graceful
  obtain heq | ⟨i, c, -, -, heq⟩ | ⟨x, rfl, heq⟩ := Service.shared_step (S := b.service) w e
  · exact heq.symm ▸ hw
  · exact heq.symm ▸ hw.step c
  · rw [heq]
    cases x with
    | tick elapsed host =>
      show (w.shared.handle b.place (.tick elapsed host)).Graceful
      exact hw.tick elapsed host fun ext hext hwanted hpid hdead =>
        hseen elapsed host rfl ext hext hwanted hpid hdead
    | exit pid =>
      show (w.shared.handle b.place (.exit pid)).Graceful
      exact ⟨hw.sound.exit pid, hw.log, hw.stopping⟩
    | rescan disk => exact hw.rescan disk

/-! ## A stop that is missed -/

/-- A move only adds to the history, and starts no process of an id given out before. -/
theorem reconcile_grows (host : Host) (sys : System) (ext : Extension) :
    sys.log <:+ (reconcile host sys ext).1.log ∧ sys.nextPid ≤ (reconcile host sys ext).1.nextPid ∧
      ∀ pid < sys.nextPid, sys.processAlive pid = false →
        (reconcile host sys ext).1.processAlive pid = false := by
  have hmove := reconcile_move host sys ext
  generalize reconcile host sys ext = r at hmove ⊢
  have hsame : sys.log <:+ sys.log ∧ sys.nextPid ≤ sys.nextPid ∧
      ∀ pid < sys.nextPid, sys.processAlive pid = false → sys.processAlive pid = false :=
    ⟨List.suffix_refl _, le_rfl, fun _ _ h => h⟩
  have hnote : ∀ deed, sys.log <:+ (sys.note ext.info.name deed).log ∧
      sys.nextPid ≤ (sys.note ext.info.name deed).nextPid ∧
        ∀ pid < sys.nextPid, sys.processAlive pid = false →
          (sys.note ext.info.name deed).processAlive pid = false :=
    fun _ => ⟨List.suffix_cons _ _, le_rfl, fun _ _ h => h⟩
  cases hmove with
  | settle => exact hsame
  | forget => exact hsame
  | terminate => exact hnote _
  | kill => exact hnote _
  | crash => exact hnote _
  | wait => exact hsame
  | start =>
    refine ⟨List.suffix_refl _, Nat.le_succ _, fun pid hlt hdead => ?_⟩
    by_contra halive
    obtain ⟨hpos, p, hp, rfl⟩ := System.processAlive_iff.mp (Bool.not_eq_false _ ▸ halive)
    rcases List.mem_append.mp hp with hp | hp
    · exact absurd ((System.processAlive_iff.mpr ⟨hpos, p, hp, rfl⟩).symm.trans hdead) nofun
    · rw [List.mem_singleton.mp hp] at hlt
      exact lt_irrefl _ hlt
  | refuse => exact hsame
  | watch => exact hsame

theorem reconcileAll_log (host : Host) (sys : System) (exts : List Extension) :
    sys.log <:+ (reconcileAll host sys exts).1.log := by
  induction exts generalizing sys with
  | nil => exact List.suffix_refl _
  | cons e es ih => exact (reconcile_grows host sys e).1.trans (ih _)

/-- A tick counts the exit of every extension that is wanted and whose process is gone. -/
theorem exited_of_reconcileAll (host : Host) {exts : List Extension} (sys : System) {ext : Extension}
    (hext : ext ∈ exts) (hwanted : ext.wanted = true) (hpid : ext.pid ≠ 0) (hlt : ext.pid < sys.nextPid)
    (hdead : sys.processAlive ext.pid = false) :
    ∃ new old n, (reconcileAll host sys exts).1.log = new ++ n :: old ∧ n.deed = .exited ext.pid ∧
      sys.log <:+ old := by
  induction exts generalizing sys with
  | nil => cases hext
  | cons e es ih =>
    rcases List.mem_cons.mp hext with rfl | hext
    · have hmove := reconcile_move host sys ext
      obtain ⟨new, hnew⟩ := reconcileAll_log host (reconcile host sys ext).1 es
      have hlog : (reconcile host sys ext).1.log =
          ⟨sys.now, ext.info.name, .exited ext.pid⟩ :: sys.log := by
        generalize reconcile host sys ext = r at hmove
        cases hmove with
        | crash => rfl
        | settle h => exact absurd (hwanted.symm.trans h) nofun
        | forget h => exact absurd (hwanted.symm.trans h) nofun
        | terminate h => exact absurd (hwanted.symm.trans h) nofun
        | kill h => exact absurd (hwanted.symm.trans h) nofun
        | wait _ h => exact absurd h hpid
        | start _ _ h => exact absurd h hpid
        | refuse _ _ h => exact absurd h hpid
        | watch _ _ h => exact absurd (h.symm.trans hdead) nofun
      exact ⟨new, sys.log, _, by rw [← hlog]; exact hnew.symm, rfl, List.suffix_refl _⟩
    · obtain ⟨hlog, hnext, hstay⟩ := reconcile_grows host sys e
      obtain ⟨new, old, n, heq, hdeed, hsuffix⟩ :=
        ih _ hext (lt_of_lt_of_le hlt hnext) (hstay _ hlt hdead)
      exact ⟨new, old, n, heq, hdeed, hlog.trans hsuffix⟩

/-- The history of a run is that of every run it continues, and more. -/
theorem Startup.log_suffix (b : Startup) (pre post : List SupervisorRunEvent) :
    (b.after pre).shared.sys.log <:+ (b.after (pre ++ post)).shared.sys.log := by
  refine Machine.after_append_rel (m := b.service.machine)
    (R := fun v w => v.shared.sys.log <:+ w.shared.sys.log) (fun _ => List.suffix_refl _)
    (fun h h' => h.trans h') (fun as e => ?_) pre post
  show _ <:+ (b.service.step (b.after as) e).shared.sys.log
  obtain heq | ⟨i, c, -, -, heq⟩ | ⟨x, -, heq⟩ :=
    Service.shared_step (S := b.service) (b.after as) e
  · exact heq.symm ▸ List.suffix_refl _
  · rw [heq]
    cases c with
    | check r =>
      show _ <:+ ((SetEnabled.check r).step _).1.sys.log
      rw [SetEnabled.step]
      split <;> exact List.suffix_refl _
    | store r => exact List.suffix_refl _
    | apply name on => exact List.suffix_cons _ _
    | done result => exact List.suffix_refl _
  · rw [heq]
    cases x with
    | tick elapsed host =>
      exact reconcileAll_log host
        { (b.after as).shared.sys with now := (b.after as).shared.sys.now + elapsed } _
    | exit pid => exact List.suffix_refl _
    | rescan disk => exact List.suffix_refl _

/-- **A process is killed only after its grace period, and no exit the supervisor asked for is counted,
exactly when no tick finds an extension wanted again whose process was asked to stop and has exited.** -/
theorem graceKept_iff (b : Startup) (as : List SupervisorRunEvent) :
    GraceKept (b.after as).shared.sys.log ↔ b.service.machine.Along StopsSeenOut as := by
  refine ⟨?_, fun h => (Startup.graceful_after h).log⟩
  rintro h pre e post rfl elapsed host rfl ext hext hwanted hpid hdead n hn hdeed
  have hs := b.sound_after pre
  -- the tick counts the exit, and the history keeps it
  obtain ⟨new, old, m, heq, hexited, hold⟩ := exited_of_reconcileAll host
    { (b.after pre).shared.sys with now := (b.after pre).shared.sys.now + elapsed }
    hext hwanted hpid (hs.tracked ext hext).lt hdead
  obtain ⟨later, hlater⟩ := b.log_suffix (pre ++ [.env (.tick elapsed host)]) post
  rw [List.append_assoc, List.singleton_append, Startup.after_concat] at hlater
  have hlog : (b.after (pre ++ .env (.tick elapsed host) :: post)).shared.sys.log =
      (later ++ new) ++ ⟨m.time, m.name, .exited ext.pid⟩ :: old := by
    rw [← hlater, List.append_assoc, ← hexited]
    exact congrArg (later ++ ·) heq
  exact h.exited _ _ _ _ _ hlog n (hold.subset hn) hdeed

/-! ## Off, on and off again -/

/-- One extension, which is enabled. -/
def oneExtension : Startup where
  place := ⟨lit "/srv/extensions", lit "/srv/run"⟩
  disk :=
    { entries := [⟨lit "a", true, some (lit "name=a\ntitle=A\nversion=1\nprotocol=1\nexec=run\n")⟩]
      executable := fun _ => true }
  enabled := [lit "a"]
  now := 1000

/-- A tick a second after the last one, at which processes can be started. -/
def oneTick : SupervisorRunEvent := .env (.tick 1 ⟨fun _ => none, fun _ => true⟩)

/-- The `i`th call: it switches the extension on or off. -/
def switch (i : ℕ) (on : Bool) : List SupervisorRunEvent :=
  .call ⟨lit "a", on, true⟩ :: List.replicate 3 (.run i)

/-- The extension is switched off and, while its process stops, on again; then it is switched off a
second time. -/
def offOnOff : List SupervisorRunEvent :=
  oneTick :: switch 0 false ++ oneTick :: switch 1 true ++ .env (.exit 1) :: List.replicate 2 oneTick ++
    switch 2 false ++ [oneTick]

/-- The second process is killed without having been asked to stop. -/
theorem offOnOff_kills : ¬ GraceKept (oneExtension.after offOnOff).shared.sys.log := by
  intro h
  obtain ⟨t, hmem, -⟩ := h.kill [] (oneExtension.after offOnOff).shared.sys.log.tail 1005 (lit "a") 2
    (by decide)
  have hnone : ∀ n ∈ (oneExtension.after offOnOff).shared.sys.log.tail, n.deed ≠ .terminate 2 := by
    decide
  exact hnone _ hmem rfl

end BoatRudder.Extensions
