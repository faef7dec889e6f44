import BoatRudder.Extensions.SupervisorInvariant

/-! # Supervision is safe

A process is started only for an extension that is enabled, present, valid, not failed and without a
process; an extension fails by exits only at the limit; and once it has failed, nothing starts it again
but an admin, or a rescan that found its manifest invalid. -/

namespace BoatRudder.Extensions

variable {b : Startup} {as : List SupervisorRunEvent} {e : SupervisorRunEvent} {name : Bytes}

/-! ## What happens in a run -/

/-- The event starts a process of the extension. -/
def Startup.Starts (b : Startup) (as : List SupervisorRunEvent) (e : SupervisorRunEvent) (name : Bytes) :
    Prop :=
  ∃ p ∈ (b.after (as ++ [e])).shared.sys.procs,
    p.name = name ∧ p ∉ (b.after as).shared.sys.procs

/-- The extension has failed. -/
def Startup.Failed (b : Startup) (as : List SupervisorRunEvent) (name : Bytes) : Prop :=
  ∃ ext ∈ (b.after as).shared.exts, ext.info.name = name ∧ ext.info.state = .failed

/-- The event is a tick at which no process could be started for the extension, which had none. -/
def Startup.LaunchFails (b : Startup) (as : List SupervisorRunEvent) (e : SupervisorRunEvent)
    (name : Bytes) : Prop :=
  ∃ elapsed host error, e = .env (.tick elapsed host) ∧ host.forkError name = some error ∧
    ∃ ext ∈ (b.after as).shared.exts, ext.info.name = name ∧ ext.pid = 0

/-- The event is the step of a call that switches the extension on. -/
def Startup.SwitchesOn (b : Startup) (as : List SupervisorRunEvent) (e : SupervisorRunEvent)
    (name : Bytes) : Prop :=
  ∃ i : ℕ, e = .run i ∧ (b.after as).calls[i]? = some (.apply name true)

/-- The event is a rescan that finds the extension's manifest invalid. -/
def Startup.FindsInvalid (b : Startup) (e : SupervisorRunEvent) (name : Bytes) : Prop :=
  ∃ disk : Disk, e = .env (.rescan disk) ∧ disk.FindsInvalid b.place name

/-- What the supervisor keeps to over a run. -/
structure Supervised (b : Startup) (as : List SupervisorRunEvent) : Prop where
  /-- What it starts is to be started. -/
  starts : ∀ pre e post name, as = pre ++ e :: post → b.Starts pre e name →
    ∃ ext ∈ (b.after pre).shared.exts, ext.info.name = name ∧ ext.info.enabled = true ∧
      ext.present = true ∧ ext.info.state ≠ .invalid ∧ ext.info.state ≠ .failed ∧
        ∀ p ∈ (b.after pre).shared.sys.procs, p.name ≠ name
  /-- There is at most one process alive of an extension. -/
  single : ∀ pre post, as = pre ++ post → ∀ p ∈ (b.after pre).shared.sys.procs,
    ∀ q ∈ (b.after pre).shared.sys.procs, p.name = q.name → p = q
  /-- An extension fails by exits when the limit is reached within the window. -/
  fails : ∀ pre e post name, as = pre ++ e :: post → ¬ b.Failed pre name → b.Failed (pre ++ [e]) name →
    b.LaunchFails pre e name ∨
      crashLimit ≤ (b.after (pre ++ [e])).shared.sys.exitsSince name
        ((b.after (pre ++ [e])).shared.sys.now - crashWindowSeconds)
  /-- A failed extension stays down until it is switched on, or was found invalid. -/
  restarts : ∀ pre mid e post name, as = pre ++ mid ++ e :: post → b.Failed pre name →
    b.Starts (pre ++ mid) e name →
      ∃ l e' r, mid = l ++ e' :: r ∧ (b.SwitchesOn (pre ++ l) e' name ∨ b.FindsInvalid e' name)

theorem Startup.after_concat (b : Startup) (as : List SupervisorRunEvent) (e : SupervisorRunEvent) :
    b.after (as ++ [e]) = b.service.step (b.after as) e := Machine.after_concat ..

/-! ## Starts -/

/-- Switching an extension on or off starts nothing. -/
theorem SetEnabled.step_procs (s : Supervisor) (c : SetEnabled) :
    (c.step s).1.sys.procs = s.sys.procs := by
  cases c with
  | check r =>
    rw [step]
    split <;> rfl
  | store r => rfl
  | apply name on => rfl
  | done result => rfl

/-- Only a tick starts a process, and only for an extension that is wanted, has not failed and has no
process. -/
theorem Startup.Starts.wanted (h : b.Starts as e name) :
    ∃ ext ∈ (b.after as).shared.exts, ext.info.name = name ∧ ext.wanted = true ∧
      ext.info.state ≠ .failed ∧ ext.pid = 0 := by
  obtain ⟨p, hp, rfl, hnew⟩ := h
  rw [after_concat] at hp
  obtain heq | ⟨i, c, -, -, heq⟩ | ⟨x, -, heq⟩ :=
    Service.shared_step (S := b.service) (b.after as) e
  · exact absurd (heq ▸ hp) hnew
  · rw [heq] at hp
    exact absurd ((c.step_procs (b.after as).shared) ▸ hp) hnew
  · rw [heq] at hp
    cases x with
    | tick elapsed host =>
      rcases procs_reconcileAll hp with hp | ⟨ext, hext, hname, hfacts⟩
      · exact absurd hp hnew
      · exact ⟨ext, hext, hname, hfacts⟩
    | exit pid => exact absurd (List.mem_of_mem_filter hp) hnew
    | rescan disk => exact absurd hp hnew

/-! ## Failures -/

/-- A tick fails an extension when it can start no process for it, or at the limit. -/
theorem failed_of_tick {s : Supervisor} {place : Place} (hs : s.Sound) {elapsed : ℕ} {host : Host}
    {new : Extension} (hnew : new ∈ (s.handle place (.tick elapsed host)).exts)
    (hfailed : new.info.state = .failed) :
    ∃ ext ∈ s.exts, ext.info.name = new.info.name ∧
      (ext.info.state = .failed ∨ (ext.pid = 0 ∧ ∃ error, host.forkError new.info.name = some error) ∨
        crashLimit ≤ (s.handle place (.tick elapsed host)).sys.exitsSince new.info.name
          ((s.handle place (.tick elapsed host)).sys.now - crashWindowSeconds)) := by
  have hfit : Tracked (s.handle place (.tick elapsed host)).sys new :=
    (hs.tick elapsed host).tracked new hnew
  have hclock : (s.handle place (.tick elapsed host)).sys.now = s.sys.now + elapsed :=
    now_reconcileAll ..
  obtain ⟨ext, hext, sys', hnow, heq⟩ := mem_reconcileAll hnew
  have hname : ext.info.name = new.info.name := heq ▸ (reconcile_name host sys' ext).symm
  refine ⟨ext, hext, hname, ?_⟩
  have hmove := reconcile_move host sys' ext
  generalize reconcile host sys' ext = r at hmove heq
  subst heq
  rw [hclock]
  cases hmove with
  | settle => exact absurd hfailed (Extension.settled_failed _)
  | forget => exact absurd hfailed (Extension.settled_failed _)
  | terminate => exact absurd hfailed (Extension.settled_failed _)
  | kill => exact absurd hfailed (Extension.settled_failed _)
  | crash hwanted hpid hdead =>
    rcases ext.crashed_state sys'.now with ⟨-, hlimit⟩ | hstarting
    · -- the exits counted are within the window, so within the seconds before this tick
      refine Or.inr (Or.inr ((hlimit.trans hfit.crashes).trans (System.exitsSince_anti _ _ ?_)))
      have hwindow := ext.le_crashWindow sys'.now
      rw [hnow] at hwindow
      exact Nat.sub_le_of_le_add (hnow ▸ hwindow)
    · exact absurd hfailed (by rw [hstarting]; nofun)
  | wait => exact Or.inl hfailed
  | start => cases hfailed
  | refuse hwanted hstate hpid error herror => exact Or.inr (Or.inl ⟨hpid, error, hname ▸ herror⟩)
  | watch hwanted hpid halive state hstate =>
    rcases hstate with rfl | rfl <;> cases hfailed

/-- Switching on or off fails no extension. -/
theorem failed_of_step {s : Supervisor} (hs : s.Sound) (c : SetEnabled) {new : Extension}
    (hnew : new ∈ (c.step s).1.exts) (hfailed : new.info.state = .failed) :
    ∃ ext ∈ s.exts, ext.info.name = new.info.name ∧ ext.info.state = .failed := by
  cases c with
  | check r =>
    refine ⟨new, ?_, rfl, hfailed⟩
    rw [SetEnabled.step] at hnew
    split at hnew <;> exact hnew
  | store r => exact ⟨new, hnew, rfl, hfailed⟩
  | apply n on =>
    have hmem : new ∈ change n (.setEnabled on) s.exts := hnew
    rw [change_eq_map hs.nodup] at hmem
    obtain ⟨ext, hext, rfl⟩ := List.mem_map.mp hmem
    split_ifs at hfailed ⊢ with hname
    · refine ⟨ext, hext, (ext.setEnabled_name on).symm, ?_⟩
      cases on with
      | true =>
        have hstate : (if ext.info.state = .failed then .disabled else ext.info.state) =
            ExtensionState.failed := hfailed
        split_ifs at hstate with hold
        exact absurd hstate hold
      | false => exact hfailed
    · exact ⟨ext, hext, rfl, hfailed⟩
  | done result => exact ⟨new, hnew, rfl, hfailed⟩

/-- An extension comes to have failed at a tick only: no process can be started for it, or it is at the
limit. -/
theorem Startup.Failed.cases (hbefore : ¬ b.Failed as name) (h : b.Failed (as ++ [e]) name) :
    b.LaunchFails as e name ∨
      crashLimit ≤ (b.after (as ++ [e])).shared.sys.exitsSince name
        ((b.after (as ++ [e])).shared.sys.now - crashWindowSeconds) := by
  obtain ⟨new, hnew, rfl, hfailed⟩ := h
  have hs := b.sound_after as
  have hold : ∀ ext ∈ (b.after as).shared.exts, ext.info.name = new.info.name →
      ext.info.state ≠ .failed := fun ext hext hname hstate => hbefore ⟨ext, hext, hname, hstate⟩
  rw [after_concat] at hnew ⊢
  obtain heq | ⟨i, c, -, -, heq⟩ | ⟨x, rfl, heq⟩ :=
    Service.shared_step (S := b.service) (b.after as) e
  · exact absurd hfailed (hold new (heq ▸ hnew) rfl)
  · rw [heq] at hnew
    obtain ⟨ext, hext, hname, hstate⟩ := failed_of_step hs c hnew hfailed
    exact absurd hstate (hold ext hext hname)
  · rw [heq] at hnew ⊢
    cases x with
    | tick elapsed host =>
      have hmem : new ∈ ((b.after as).shared.handle b.place (.tick elapsed host)).exts := hnew
      obtain ⟨ext, hext, hname, hstate | ⟨hpid, error, herror⟩ | hlimit⟩ :=
        failed_of_tick hs hmem hfailed
      · exact absurd hstate (hold ext hext hname)
      · exact Or.inl ⟨elapsed, host, error, rfl, herror, ext, hext, hname, hpid⟩
      · exact Or.inr hlimit
    | exit pid => exact absurd hfailed (hold new hnew rfl)
    | rescan disk =>
      obtain ⟨⟨old, hmem, hr⟩ | ⟨-, hfresh⟩, -⟩ := mem_scanLocked hs.nodup hnew
      · exact absurd (hr.failed hfailed) (hold old hmem hr.name.symm)
      · exact absurd hfailed hfresh.failed

/-! ## Restarts -/

/-- The extension, if it is there, is switched off or has failed. -/
def Supervisor.Halted (s : Supervisor) (name : Bytes) : Prop :=
  ∀ ext ∈ s.exts, ext.info.name = name → ext.info.enabled = false ∨ ext.info.state = .failed

/-- A move leaves an extension down that is switched off, or has failed. -/
theorem halted_reconcile (host : Host) (sys : System) {ext : Extension}
    (h : ext.info.enabled = false ∨ ext.info.state = .failed)
    (hfailed : ext.info.state = .failed → ext.pid = 0 ∧ ext.present = true) :
    (reconcile host sys ext).2.info.enabled = false ∨
      (reconcile host sys ext).2.info.state = .failed := by
  cases henabled : ext.info.enabled with
  | false => exact Or.inl ((reconcile_enabled ..).trans henabled)
  | true =>
    have hstate : ext.info.state = .failed := h.resolve_left (by rw [henabled]; nofun)
    obtain ⟨hpid, hpresent⟩ := hfailed hstate
    have hwanted : ext.wanted = true := by simp [Extension.wanted, henabled, hstate, hpresent]
    rw [reconcile, hwanted, if_neg (by simp), if_pos ⟨hstate, hpid⟩]
    exact Or.inr hstate

/-- Nothing but switching the extension on, or finding its manifest invalid, ends that it is down. -/
theorem Startup.halted_concat (h : (b.after as).shared.Halted name) (hon : ¬ b.SwitchesOn as e name)
    (hinvalid : ¬ b.FindsInvalid e name) : (b.after (as ++ [e])).shared.Halted name := by
  have hs := b.sound_after as
  rw [after_concat]
  obtain heq | ⟨i, c, rfl, hi, heq⟩ | ⟨x, rfl, heq⟩ :=
    Service.shared_step (S := b.service) (b.after as) e
  · rw [heq]
    exact h
  · rw [heq]
    cases c with
    | check r =>
      show ((SetEnabled.check r).step _).1.Halted name
      rw [SetEnabled.step]
      split <;> exact h
    | store r => exact h
    | apply n on =>
      show ∀ ext ∈ change n (.setEnabled on) (b.after as).shared.exts, _
      rw [change_eq_map hs.nodup]
      intro _ hmem
      obtain ⟨ext, hext, rfl⟩ := List.mem_map.mp hmem
      split_ifs with hn
      · intro hname
        cases on with
        | true => exact absurd ⟨i, rfl, hi.trans (by rw [← hn, ← hname]; rfl)⟩ hon
        | false => exact Or.inl rfl
      · exact h ext hext
    | done result => exact h
  · rw [heq]
    cases x with
    | tick elapsed host =>
      intro new hnew hname
      obtain ⟨ext, hext, sys', -, rfl⟩ := mem_reconcileAll hnew
      exact halted_reconcile host sys' (h ext hext ((reconcile_name ..).symm.trans hname))
        (hs.tracked ext hext).failed
    | exit pid => exact h
    | rescan disk =>
      intro new hnew hname
      obtain ⟨⟨old, hold, hr⟩ | ⟨-, hfresh⟩, -⟩ := mem_scanLocked hs.nodup hnew
      · have hnameOld := hr.name.symm.trans hname
        rcases h old hold hnameOld with hoff | hfailed
        · exact Or.inl (hr.enabled.trans hoff)
        · exact Or.inr (hr.stays hfailed fun hfinds => hinvalid ⟨disk, rfl, hnameOld ▸ hfinds⟩)
      · exact Or.inl hfresh.enabled

/-- An extension that has failed is down until it is switched on, or its manifest is found invalid. -/
theorem Startup.halted_append (hfailed : b.Failed as name) (mid : List SupervisorRunEvent)
    (hquiet : ∀ l e r, mid = l ++ e :: r → ¬ b.SwitchesOn (as ++ l) e name ∧ ¬ b.FindsInvalid e name) :
    (b.after (as ++ mid)).shared.Halted name := by
  induction mid using List.reverseRecOn with
  | nil =>
    obtain ⟨ext, hext, rfl, hstate⟩ := hfailed
    rw [List.append_nil]
    intro other hother hname
    exact Or.inr (eq_of_name (b.sound_after as).nodup hother hext hname ▸ hstate)
  | append_singleton mid e ih =>
    rw [← List.append_assoc]
    obtain ⟨hon, hinvalid⟩ := hquiet mid e [] rfl
    refine halted_concat (ih fun l e' r heq => hquiet l e' (r ++ [e]) ?_) hon hinvalid
    rw [heq, List.append_assoc, List.cons_append]

/-- **Supervision is safe**, in every run from every start. -/
theorem supervised (b : Startup) (as : List SupervisorRunEvent) : Supervised b as where
  starts := by
    rintro pre e post name - hstarts
    obtain ⟨ext, hext, rfl, hwanted, hstate, hpid⟩ := hstarts.wanted
    have hs := b.sound_after pre
    simp only [Extension.wanted, Bool.and_eq_true, decide_eq_true_eq] at hwanted
    obtain ⟨⟨henabled, hvalid⟩, hpresent⟩ := hwanted
    exact ⟨ext, hext, rfl, henabled, hpresent, hvalid, hstate,
      (hs.tracked ext hext).name_ne (Or.inl hpid) hs.sys⟩
  single := by
    rintro pre post - p hp q hq hname
    have hs := b.sound_after pre
    obtain ⟨ext, hext, howner⟩ := List.mem_map.mp (hs.owners p hp)
    have hfit := hs.tracked ext hext
    -- both have the process id of the entry
    have hpid : p.pid = q.pid :=
      ((hfit.owns p hp).mpr howner.symm).trans ((hfit.owns q hq).mpr (hname.symm.trans howner.symm)).symm
    exact List.inj_on_of_nodup_map hs.sys.nodup hp hq hpid
  fails := by
    rintro pre e post name - hbefore hafter
    exact hafter.cases hbefore
  restarts := by
    rintro pre mid e post name - hfailed hstarts
    by_contra hno
    have hhalted : (b.after (pre ++ mid)).shared.Halted name :=
      Startup.halted_append hfailed mid fun l e' r heq =>
        not_or.mp fun h => hno ⟨l, e', r, heq, h⟩
    obtain ⟨ext, hext, hname, hwanted, hstate, -⟩ := hstarts.wanted
    rcases hhalted ext hext hname with hoff | hdown
    · rw [Extension.wanted, hoff] at hwanted
      cases hwanted
    · exact hstate hdown

end BoatRudder.Extensions
