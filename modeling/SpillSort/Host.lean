import SpillSort.Logging
import SpillSort.Settings

/-!
# Hosts

What a host of sorts has once and for all: its settings and its log. Both are fixed by the first
call that succeeds, and come from files, from the environment, or from defaults.

* `Host.settingsAt` and `Host.settings` load the settings.
* `Host.sortOptions` are the options of a sort under these settings.
* `Host.startLog` and `Host.startLogFromSettings` start the log; `Host.log` writes to it.
-/

namespace SpillSort

/-- A log that was started: what it takes in, and the file it goes to instead of the standard error
stream. -/
structure Log where
  filter : LogFilter
  file? : Option Spill.ContentId

/-- What sorts run in, with its surroundings. -/
structure Host where
  disk : Spill.Disk
  /-- The working directory. -/
  directory : String
  /-- The directory for temporary files. -/
  temporary : String
  environment : List (String × String)
  settings? : Option Settings := none
  log? : Option Log := none
  /-- What was written to the standard error stream. -/
  stderr : String := ""

/-- A step of a host. -/
abbrev HostAction := StateM Host

namespace Host

/-- Where a path leads from the working directory. -/
def resolve (p : Host) (path : String) : String :=
  if path.startsWith "/" then path else Spill.childPath p.directory path

/-- A variable of the environment. -/
def valueOf? (p : Host) (name : String) : Option String := p.environment.lookup name

/-! ## Settings -/

/-- The settings, which are loaded from a file unless they are known already. -/
def settingsAt (path : String) : HostAction (Except String Settings) := do
  let p ← get
  match p.settings? with
  | some s => pure (.ok s)
  | none =>
    let loaded := Settings.load p.disk (p.resolve path) path
    set { p with settings? := loaded.toOption }
    pure loaded

/-- The settings file in the working directory. -/
def settingsFile : String := "xsort.toml"

/-- The path of the settings file: a variable names it, or it lies in the working directory. -/
def settingsPath? (p : Host) : Option String :=
  match p.valueOf? "XSORT_CONFIG" with
  | some path => if (Text.trim path).isEmpty then inDirectory else some path
  | none => inDirectory
where
  /-- The settings file in the working directory, if there is one. -/
  inDirectory : Option String :=
    if (p.disk.openFile (p.resolve settingsFile)).toOption.isSome then some settingsFile else none

/-- The settings, which are loaded from the usual file unless they are known already. -/
def settings : HostAction (Except String Settings) := do
  let p ← get
  match p.settings?, p.settingsPath? with
  | some s, _ => pure (.ok s)
  | none, some path => settingsAt path
  | none, none =>
    pure (.error s!"missing config file: set $XSORT_CONFIG or create ./{settingsFile}")

/-- The options of a sort by `keys`; without settings, the defaults hold. -/
def sortOptions (keys : List SortKey) : HostAction (Except Failure SortOptions) := do
  let sort := ((← settings).toOption.map Settings.sort).getD {}
  pure (sort.options keys (Spill.childPath (← get).temporary "xsort-spill"))

/-! ## Logging -/

/-- Writes a line to the standard error stream. -/
def complain (line : String) : HostAction Unit :=
  modify fun p => { p with stderr := p.stderr ++ line ++ "\n" }

/-- A text without blanks around it, if there is something else. -/
def content? (s : Option String) : Option String := (s.map Text.trim).filter (!·.isEmpty)

/-- The log file that the environment asks for, by its own path or by its directory. -/
def variableLogFile (p : Host) : Option String :=
  content? (p.valueOf? "XSORT_LOG_FILE") <|>
    (content? (p.valueOf? "XSORT_LOG_DIR")).map (Spill.childPath · "xsort.log")

/-- Opens the log file at a path, with the directories above it. -/
def openLog (path : String) : HostAction (Option Spill.ContentId) := do
  let p ← get
  let up := (Spill.parentPath? path).getD ""
  let prepared :=
    if up.isEmpty then .ok p.disk else p.disk.makeDirectories (.ofPath (p.resolve up))
  match prepared with
  | .error e => do
    complain s!"failed to create log directory {up}: {e.message}, fallback to stderr"
    pure none
  | .ok disk =>
    match disk.openEnd (p.resolve path) with
    | .error e => do
      set { p with disk }
      complain s!"failed to open log file {path}: {e.message}, fallback to stderr"
      pure none
    | .ok (c, disk) => do
      set { p with disk }
      pure (some c)

/-- Starts the log, unless it is started already. -/
def install (filterText : String) (path? : Option String) : HostAction Unit := do
  if (← get).log?.isNone then do
    let (filter, complaints) := LogFilter.ofText filterText
    complaints.forM complain
    let file? ← match path? with
      | some path => openLog path
      | none => pure none
    modify fun p => { p with log? := some { filter, file? } }

/-- Starts the log where the environment says. -/
def startLog (filterText : String) : HostAction Unit := do
  let p ← get
  install filterText p.variableLogFile

/-- Starts the log as the settings say; a log file that they name takes the place of the
environment's. Without settings, the level is `info`. -/
def startLogFromSettings : HostAction Unit := do
  match ← settings with
  | .error _ => startLog "info"
  | .ok s =>
    match s.logFile with
    | some path => install s.filterText (content? (some path))
    | none => startLog s.filterText

/-- The name under which sorts log. -/
def logSource : String := "xsort"

/-- Logs a message, if the log is started and takes it in. -/
def log (level : Level) (stamp message : String) : HostAction Unit := do
  match (← get).log? with
  | none => pure ()
  | some l =>
    if l.filter.admits logSource level then
      let line := logLine level stamp message
      match l.file? with
      | some c => modify fun p => { p with disk := p.disk.append c line.toUTF8 }
      | none => modify fun p => { p with stderr := p.stderr ++ line }

end Host

end SpillSort
