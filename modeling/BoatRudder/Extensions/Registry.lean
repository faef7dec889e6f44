import BoatRudder.WebServer.RequestReading
import Mathlib.Data.List.Sort

/-! # The registry of extensions

What is known of the extensions installed below `./extensions`: what their manifests say, whether an
admin switched them on, and how their processes have fared. A scan reads the directory into it, and
keeps the entries of extensions that are gone until their process is. -/

namespace BoatRudder.Extensions

/-! ## Entries -/

/-- `EXTENSION_NAME_MAX`. -/
def extensionNameMax : ℕ := 31

/-- `MAX_EXTENSIONS`. -/
def maxExtensions : ℕ := 32

/-- `EXTENSION_PROTOCOL`. -/
def extensionProtocol : ℤ := 1

/-- `ExtensionState`. -/
inductive ExtensionState where
  | disabled
  | starting
  | running
  | failed
  | invalid
deriving DecidableEq, Repr

/-- `ExtensionInfo`; the default is what `memset` leaves. -/
structure ExtensionInfo where
  name : Bytes := []
  title : Bytes := []
  description : Bytes := []
  version : Bytes := []
  navLabel : Bytes := []
  navPath : Bytes := []
  enabled : Bool := false
  state : ExtensionState := .disabled
  problem : Bytes := []
deriving DecidableEq, Repr

/-- `Extension`; times are in seconds, and a process id of 0 stands for none. -/
structure Extension where
  info : ExtensionInfo := {}
  execPath : Bytes := []
  dir : Bytes := []
  socketPath : Bytes := []
  pid : ℕ := 0
  /-- SIGTERM sent at, 0 = not stopping. -/
  termSent : ℕ := 0
  nextStart : ℕ := 0
  crashes : ℕ := 0
  crashWindow : ℕ := 0
  /-- Seen by the last scan. -/
  present : Bool := false
deriving DecidableEq, Repr

/-- `find`: the first entry of this name. -/
def find (exts : List Extension) (name : Bytes) : Option Extension :=
  exts.find? (·.info.name = name)

/-- The registry with the first entry of this name changed. -/
def change (name : Bytes) (f : Extension → Extension) : List Extension → List Extension
  | [] => []
  | e :: es => if e.info.name = name then f e :: es else e :: change name f es

/-! ## What a scan finds -/

/-- `g_root` and `g_socket_root`. -/
structure Place where
  root : Bytes
  socketRoot : Bytes

/-- An entry of the extensions directory: whether it is a directory, and the text of its
`extension.conf` when it can be opened. -/
structure DirEntry where
  name : Bytes
  isDir : Bool
  manifest : Option Bytes

/-- What `readdir` goes through, and the paths that `access` finds executable. -/
structure Disk where
  entries : List DirEntry
  executable : Bytes → Bool

/-- `valid_name`. -/
def validName (s : Bytes) : Bool :=
  s.length ≠ 0 && s.length ≤ extensionNameMax &&
    s.all fun c => isLower c || isDigit c || c == 45 || c == 95

/-! ## Manifests -/

/-- `trim`. -/
def trim (s : Bytes) : Bytes :=
  (s.dropWhile WebServer.isBlankByte).rdropWhile fun c => WebServer.isBlankByte c || c == 13 || c == 10

/-- What `fgets` reads into a buffer of this size, call by call, `line` being what the first one has
read already. -/
def fgetsLines (size : ℕ) (line : Bytes) : Bytes → List Bytes
  | [] => if line = [] then [] else [line]
  | c :: s =>
    if c = 10 ∨ line.length + 2 = size then (line ++ [c]) :: fgetsLines size [] s
    else fgetsLines size (line ++ [c]) s

/-- What `read_manifest` keeps of the settings of a manifest. -/
structure Manifest where
  name : Bytes := []
  title : Bytes := []
  description : Bytes := []
  version : Bytes := []
  protocol : ℤ := 0
  exec : Bytes := []
  nav : Bytes := []

/-- A setting read, cut to its buffer; an unknown key is passed over. -/
def Manifest.set (m : Manifest) (key val : Bytes) : Manifest :=
  if key = lit "name" then { m with name := val.take 63 }
  else if key = lit "title" then { m with title := val.take 80 }
  else if key = lit "description" then { m with description := val.take 240 }
  else if key = lit "version" then { m with version := val.take 32 }
  else if key = lit "protocol" then { m with protocol := atoi val }
  else if key = lit "exec" then { m with exec := val.take 255 }
  else if key = lit "nav" then { m with nav := val.take 255 }
  else m

/-- A line of a manifest read. -/
def Manifest.readLine (m : Manifest) (line : Bytes) : Manifest :=
  let l := trim (cstr line)
  if l = [] ∨ l.head? = some 35 ∨ l.head? = some 59 ∨ 61 ∉ l then m
  else m.set (trim (l.takeWhile (· ≠ 61))) (trim (afterByte 61 l))

/-- The loop of `read_manifest`. -/
def parseManifest (text : Bytes) : Manifest := (fgetsLines 512 [] text).foldl Manifest.readLine {}

/-- What is wrong with the settings of an extension in a directory of this name. -/
def Manifest.problem (m : Manifest) (dirName : Bytes) : Option Bytes :=
  if m.name ≠ dirName then some (lit "name= must match the directory name")
  else if m.title = [] then some (lit "title= is missing")
  else if m.version = [] then some (lit "version= is missing")
  else if m.protocol ≠ extensionProtocol then
    some (lit "unsupported protocol= (this Boat Rudder speaks 1)")
  else if m.exec = [] ∨ m.exec.head? = some 47 ∨ (findSub (lit "..") m.exec).isSome then
    some (lit "exec= must be a path inside the extension's directory")
  else none

/-- The label and the path of the `nav` setting. -/
def Manifest.navEntry (m : Manifest) : Bytes × Bytes :=
  (trim (m.nav.takeWhile (· ≠ 124)), if 124 ∈ m.nav then trim (afterByte 124 m.nav) else lit "/")

/-- What is wrong with the `nav` setting, if there is one. -/
def Manifest.navProblem (m : Manifest) : Option Bytes :=
  let p := m.navEntry.2
  if m.nav = [] then none
  else if p.head? ≠ some 47 ∨ (findSub (lit "..") p).isSome ∨ p.any (· ∈ lit "\"'<> ") then
    some (lit "nav= path must start with '/'")
  else none

section

variable (place : Place) (disk : Disk)

/-- The directory of an extension. -/
def extensionDir (dirName : Bytes) : Bytes := place.root.take 3000 ++ 47 :: dirName.take 31

/-- The program a manifest names. -/
def Manifest.execPath (m : Manifest) (dirName : Bytes) : Bytes :=
  (extensionDir place dirName).take 3800 ++ 47 :: m.exec.take 255

/-- The socket an extension is to answer at. -/
def extensionSocket (dirName : Bytes) : Bytes := place.socketRoot ++ 47 :: dirName ++ lit ".sock"

/-- The program is there. -/
def Manifest.execProblem (m : Manifest) (dirName : Bytes) : Option Bytes :=
  m.problem dirName <|>
    if disk.executable (m.execPath place dirName) then none
    else some (lit "exec= names no executable file - not built?")

/-- The socket's path fits `sun_path`. -/
def Manifest.socketProblem (m : Manifest) (dirName : Bytes) : Option Bytes :=
  m.execProblem place disk dirName <|>
    if 108 ≤ (extensionSocket place dirName).length then
      some (lit "socket path too long - install Boat Rudder in a shorter directory")
    else none

/-- The first thing that is wrong with an entry's manifest. -/
def manifestProblem (entry : DirEntry) : Option Bytes :=
  match entry.manifest with
  | none => some (lit "no extension.conf")
  | some text =>
    (parseManifest text).socketProblem place disk entry.name <|> (parseManifest text).navProblem

/-- What a manifest's settings make of an entry's `info`, with the switch as it was. -/
def manifestInfo (enabled : Bool) (entry : DirEntry) : ExtensionInfo :=
  let m := (entry.manifest.map parseManifest).getD {}
  let valid := (manifestProblem place disk entry).isNone
  { name := entry.name.take 31
    title := m.title
    description := m.description
    version := m.version
    navLabel := if valid ∧ m.nav ≠ [] then m.navEntry.1.take 80 else []
    navPath := if valid ∧ m.nav ≠ [] then m.navEntry.2.take 128 else []
    enabled := enabled
    state := if valid then .disabled else .invalid
    problem := ((manifestProblem place disk entry).getD []).take 199 }

/-- `read_manifest`. -/
def readManifest (ext : Extension) (entry : DirEntry) : Extension :=
  let m := (entry.manifest.map parseManifest).getD {}
  { ext with
    info := manifestInfo place disk ext.info.enabled entry
    dir := extensionDir place entry.name
    execPath := if entry.manifest.isSome ∧ m.problem entry.name = none then
      m.execPath place entry.name else []
    socketPath := if entry.manifest.isSome ∧ m.execProblem place disk entry.name = none then
      (extensionSocket place entry.name).take 107 else ext.socketPath }

/-! ## Scans -/

/-- An entry of the registry after its manifest was read again: the state of a running extension, and
of one that has failed, stays. -/
def rescanned (ext : Extension) (entry : DirEntry) : Extension :=
  let read := readManifest place disk ext entry
  if read.info.state ≠ .invalid ∧ (ext.pid ≠ 0 ∨ ext.info.state = .failed) then
    { read with
      info := { read.info with state := ext.info.state, problem := ext.info.problem }
      present := true }
  else { read with present := true }

/-- An entry of the directory read into the registry. -/
def scanEntry (exts : List Extension) (entry : DirEntry) : List Extension :=
  if !validName entry.name || !entry.isDir then exts
  else if (find exts entry.name).isSome then
    change entry.name (fun ext => rescanned place disk ext entry) exts
  else if maxExtensions ≤ exts.length then exts
  else exts ++ [rescanned place disk {} entry]

/-- `scan_locked`: what is neither in the directory nor running is dropped, and the rest sorted. -/
def scanLocked (exts : List Extension) : List Extension :=
  ((disk.entries.foldl (scanEntry place disk)
    (exts.map fun ext => { ext with present := false })).filter
      fun ext => ext.present || ext.pid ≠ 0).insertionSort fun a b => a.info.name ≤ b.info.name

end

/-- The directory holds an extension of this name, with an invalid manifest. -/
def Disk.FindsInvalid (place : Place) (disk : Disk) (name : Bytes) : Prop :=
  ∃ entry ∈ disk.entries, entry.name = name ∧ entry.isDir = true ∧
    (manifestProblem place disk entry).isSome

end BoatRudder.Extensions
