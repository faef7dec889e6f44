import BoatRudder.Extensions.Registry
import BoatRudder.Runs.Calls

/-! # The supervisor

The supervisor goes through the registry once a second: it starts the processes of the extensions
that are wanted, restarts those that exit, with a limit, and stops those of the extensions that no
longer are. An admin switches extensions on and off meanwhile, rescans change what is installed, and
processes exit at any time; `g_lock` makes a tick, a scan and each half of a switch one step. -/

namespace BoatRudder.Extensions

/-! ## Processes and what is done to them -/

/-- `STOP_GRACE_SECONDS`. -/
def stopGraceSeconds : ℕ := 3

/-- `CRASH_WINDOW_SECONDS`. -/
def crashWindowSeconds : ℕ := 60

/-- `CRASH_LIMIT`. -/
def crashLimit : ℕ := 5

/-- A child that is alive, and the extension it was started for. -/
structure Process where
  pid : ℕ
  name : Bytes
deriving DecidableEq, Repr

/-- What is done about an extension. -/
inductive Deed where
  /-- SIGTERM. -/
  | terminate (pid : ℕ)
  /-- SIGKILL. -/
  | kill (pid : ℕ)
  /-- The process was found gone, and counted as a crash. -/
  | exited (pid : ℕ)
  /-- An admin switched it on or off. -/
  | switched (on : Bool)
deriving DecidableEq, Repr

/-- An entry of the history. -/
structure Note where
  time : ℕ
  name : Bytes
  deed : Deed
deriving DecidableEq, Repr

/-- What the registry is kept beside: the clock, the children alive, the id the next one gets, and
what was done so far, the last first. -/
structure System where
  now : ℕ
  procs : List Process
  nextPid : ℕ
  log : List Note
deriving DecidableEq, Repr

/-- A deed noted. -/
def System.note (sys : System) (name : Bytes) (deed : Deed) : System :=
  { sys with log := ⟨sys.now, name, deed⟩ :: sys.log }

/-- A child forked for an extension. -/
def System.spawn (sys : System) (name : Bytes) : System :=
  { sys with procs := sys.procs ++ [⟨sys.nextPid, name⟩], nextPid := sys.nextPid + 1 }

/-- `process_alive`. -/
def System.processAlive (sys : System) (pid : ℕ) : Bool := 0 < pid && sys.procs.any (·.pid = pid)

/-- What a tick is answered: why `fork` fails for an extension, and which sockets take a
connection. -/
structure Host where
  forkError : Bytes → Option Bytes
  socketAnswers : Bytes → Bool

/-! ## A tick for one extension -/

/-- `request_stop`. -/
def requestStop (sys : System) (ext : Extension) : System × Extension :=
  if ext.pid = 0 then (sys, ext)
  else if !sys.processAlive ext.pid then (sys, { ext with pid := 0, termSent := 0 })
  else if ext.termSent = 0 then
    (sys.note ext.info.name (.terminate ext.pid), { ext with termSent := sys.now })
  else if stopGraceSeconds ≤ sys.now - ext.termSent then
    (sys.note ext.info.name (.kill ext.pid), ext)
  else (sys, ext)

/-- The `wanted` of `reconcile`. -/
def Extension.wanted (ext : Extension) : Bool :=
  ext.info.enabled && ext.info.state ≠ .invalid && ext.present

/-- What `reconcile` makes of an extension that is not wanted. -/
def Extension.settled (ext : Extension) : Extension :=
  if ext.info.state = .invalid then ext
  else { ext with info := { ext.info with state := .disabled, problem := [] } }

/-- An exit counted, in the window that is open or in a new one. -/
def Extension.countExit (ext : Extension) (now : ℕ) : Extension :=
  if crashWindowSeconds < now - ext.crashWindow then
    { ext with pid := 0, crashWindow := now, crashes := 1 }
  else { ext with pid := 0, crashes := ext.crashes + 1 }

/-- An extension whose process was found gone: it has failed, or is to be started again. -/
def Extension.crashed (ext : Extension) (now : ℕ) : Extension :=
  let counted := ext.countExit now
  if crashLimit ≤ counted.crashes then
    { counted with
      info := { counted.info with
        state := .failed
        problem := lit "exited 5 times within 60 s - see the server log; disable and enable it to retry" } }
  else
    { counted with
      nextStart := now + counted.crashes
      info := { counted.info with state := .starting } }

/-- `spawn`, with what `reconcile` makes of its result. -/
def launch (host : Host) (sys : System) (ext : Extension) : System × Extension :=
  match host.forkError ext.info.name with
  | some error =>
    (sys, { ext with
      pid := 0
      info := { ext.info with
        state := .failed
        problem := (lit "could not be launched: " ++ error).take 199 } })
  | none =>
    (sys.spawn ext.info.name,
      { ext with pid := sys.nextPid, info := { ext.info with state := .starting, problem := [] } })

/-- The end of `reconcile`: a process is started, or its socket tried. -/
def startOrWatch (host : Host) (sys : System) (ext : Extension) : System × Extension :=
  if ext.pid = 0 then
    if sys.now < ext.nextStart then (sys, ext) else launch host sys ext
  else
    (sys, { ext with
      info := { ext.info with
        state := if host.socketAnswers ext.socketPath then .running else .starting } })

/-- `reconcile`. -/
def reconcile (host : Host) (sys : System) (ext : Extension) : System × Extension :=
  if !ext.wanted then
    let stopped := requestStop sys ext
    (stopped.1, stopped.2.settled)
  else if ext.info.state = .failed ∧ ext.pid = 0 then (sys, ext)
  else if ext.pid ≠ 0 ∧ !sys.processAlive ext.pid then
    let sys' := sys.note ext.info.name (.exited ext.pid)
    let ext' := ext.crashed sys.now
    if ext'.info.state = .failed then (sys', ext') else startOrWatch host sys' ext'
  else startOrWatch host sys ext

/-- The loop of `supervisor`. -/
def reconcileAll (host : Host) : System → List Extension → System × List Extension
  | sys, [] => (sys, [])
  | sys, ext :: exts =>
    let first := reconcile host sys ext
    let rest := reconcileAll host first.1 exts
    (rest.1, first.2 :: rest.2)

/-! ## The registry under supervision -/

/-- The registry, and what it is kept beside. -/
structure Supervisor where
  sys : System
  exts : List Extension

/-- What happens without an admin: a tick some seconds after the last one, a process that exits, a
rescan. -/
inductive SupervisorEvent where
  | tick (elapsed : ℕ) (host : Host)
  | exit (pid : ℕ)
  | rescan (disk : Disk)

/-- One of these; what exits while a tick goes on is as good as gone before it, or after it, since a
tick asks for each process once. -/
def Supervisor.handle (place : Place) (s : Supervisor) : SupervisorEvent → Supervisor
  | .tick elapsed host =>
    let r := reconcileAll host { s.sys with now := s.sys.now + elapsed } s.exts
    ⟨r.1, r.2⟩
  | .exit pid => { s with sys := { s.sys with procs := s.sys.procs.filter (·.pid ≠ pid) } }
  | .rescan disk => { s with exts := scanLocked place disk s.exts }

/-! ## Switching an extension on and off -/

/-- A call of `extensions_set_enabled`, and whether the database takes the choice. -/
structure SetEnabledRequest where
  name : Bytes
  on : Bool
  stored : Bool

/-- Where a call of `extensions_set_enabled` stands. -/
inductive SetEnabled where
  | check (r : SetEnabledRequest)
  | store (r : SetEnabledRequest)
  | apply (name : Bytes) (on : Bool)
  | done (result : ℤ)

/-- The choice applied to an entry. -/
def Extension.setEnabled (on : Bool) (ext : Extension) : Extension :=
  if on then
    { ext with
      crashes := 0
      nextStart := 0
      info := { ext.info with
        enabled := true
        state := if ext.info.state = .failed then .disabled else ext.info.state
        problem := if ext.info.state = .failed then [] else ext.info.problem } }
  else { ext with info := { ext.info with enabled := false } }

/-- The next step of a call of `extensions_set_enabled`. -/
def SetEnabled.step (s : Supervisor) : SetEnabled → Supervisor × SetEnabled
  | .check r =>
    match find s.exts r.name with
    | none => (s, .done (-1))
    | some ext => (s, if ext.present ∧ ext.info.state ≠ .invalid then .store r else .done (-1))
  | .store r => (s, if r.stored then .apply r.name r.on else .done (-2))
  | .apply name on =>
    (⟨s.sys.note name (.switched on), change name (.setEnabled on) s.exts⟩, .done 0)
  | .done result => (s, .done result)

/-! ## Runs -/

/-- What `extensions_start` finds: the places, the directory, the names the database has as enabled,
and the time. -/
structure Startup where
  place : Place
  disk : Disk
  enabled : List Bytes
  now : ℕ

/-- An entry of an extension that the database has as enabled. -/
def Extension.enable (ext : Extension) : Extension :=
  { ext with info := { ext.info with enabled := true } }

/-- `extensions_start`, up to the first tick. -/
def Startup.supervisor (b : Startup) : Supervisor where
  sys := ⟨b.now, [], 1, []⟩
  exts := b.enabled.foldl (fun exts name => change name .enable exts) (scanLocked b.place b.disk [])

/-- The supervisor from its start, with the admins' calls. -/
def Startup.service (b : Startup) :
    Service Supervisor SetEnabled SetEnabledRequest SupervisorEvent where
  init := b.supervisor
  begin := .check
  act := SetEnabled.step
  env := Supervisor.handle b.place

/-- An event of a run. -/
abbrev SupervisorRunEvent : Type := CallEvent SetEnabledRequest SupervisorEvent

/-- The state a run from the start leads to. -/
def Startup.after (b : Startup) (as : List SupervisorRunEvent) : CallState Supervisor SetEnabled :=
  b.service.machine.after as

end BoatRudder.Extensions
