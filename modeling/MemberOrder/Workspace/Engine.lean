/-
  Sorting the files of a workspace. A file that changes is copied to a backup with a name of
  its own before it is written, by way of a temporary file; a dry run changes nothing.
-/
import MemberOrder.Process
import MemberOrder.Text.Number
import MemberOrder.Workspace.FileTree

/-! What is reported about a file that was to be sorted, and about many of them. -/

namespace MemberOrder.Workspace

/-- What became of a file. -/
inductive Status where
  | fileNotFound
  | unsupported
  | engineError
  | failed
  | unchanged
  /-- It would change, and is left alone. -/
  | preview
  /-- It was to be written. -/
  | sorted
  deriving Repr, DecidableEq

/-- The name of a status. -/
def Status.name : Status → String
  | .fileNotFound => "FILE_NOT_FOUND"
  | .unsupported => "UNSUPPORTED"
  | .engineError => "ENGINE_ERROR"
  | .failed => "FAILED"
  | .unchanged => "UNCHANGED"
  | .preview => "PREVIEW"
  | .sorted => "SORTED"

/-- Why a file was not sorted. -/
inductive FileProblem where
  | missing (path : String)
  | noSorter (suffix : String)
  | unreadable (error : FileError)
  | undecodable (fault : Utf8.Fault)
  | badOptions (error : OptionError)
  | run (notice : Notice)
  deriving Repr, DecidableEq

/-- How a problem is reported. -/
def FileProblem.message : FileProblem → String
  | .missing path => "Path missing: " ++ path
  | .noSorter suffix => "No sorter for '" ++ suffix ++ "' files"
  | .unreadable error => error.message
  | .undecodable fault => fault.message
  | .badOptions error => error.message
  | .run notice => notice.message

/-- The texts of a file that was run. -/
structure Content where
  entities : Nat
  before : String
  after : String
  deriving Repr, DecidableEq

/-- What is reported about a file. -/
structure Report where
  filePath : String
  fileType : FileType
  status : Status
  success : Bool := false
  errors : List FileProblem := []
  warnings : List Notice := []
  modified : Bool := false
  written : Bool := false
  backup : Option String := none
  /-- Why the sorted text was not written. -/
  writeError : Option FileError := none
  content : Option Content := none
  deriving Repr, DecidableEq

/-- The counts over many reports. -/
structure Summary where
  total : Nat
  successful : Nat
  unsorted : Nat
  written : Nat
  backups : Nat
  systemErrors : Nat
  deriving Repr, DecidableEq

/-- Counts reports. -/
def Summary.ofReports (reports : List Report) : Summary where
  total := reports.length
  successful := reports.countP (·.success)
  unsorted := reports.countP (·.status == .preview)
  written := reports.countP (·.written)
  backups := reports.countP (·.backup.isSome)
  systemErrors := reports.countP (·.status == .engineError)

/-- The part of the files that went well; nothing without files. -/
def Summary.successRate (s : Summary) : Option Binary64 :=
  if s.total == 0 then none else some (Binary64.ofRatio s.successful s.total)

end MemberOrder.Workspace

/-! ## The engine -/

namespace MemberOrder.Workspace

/-- What the names of backups end in. -/
def backupSuffix : String := ".propsort.backup"

/-- What the names of files end in that are still being written. -/
def tempSuffix : String := ".propsort.tmp"

/-- The directory whose files are sorted, and the settings for all of them. -/
structure Engine where
  workspace : Path
  settings : Settings := []

/-- A backup that is not below the workspace cannot be named from there. -/
structure OutsideWorkspace where
  backup : String
  workspace : String
  deriving Repr, DecidableEq

/-- How it is reported that a backup is outside the workspace. -/
def OutsideWorkspace.message (e : OutsideWorkspace) : String :=
  Text.quoted e.backup ++ " is not in the subpath of " ++ Text.quoted e.workspace
    ++ " OR one path is relative and the other is absolute."

/-- The name of the `k`-th backup of a file. -/
def backupName (fileName : String) (k : Nat) : String :=
  (if k == 0 then fileName else fileName ++ "-" ++ toString k) ++ backupSuffix

/-- The first backup from the `k`-th on that does not exist. -/
def freshBackupFrom (t : FileTree) (p : Path) : (fuel k : Nat) → Path
  | 0, k => p.withName (backupName p.fileName k)
  | fuel + 1, k =>
    let backup := p.withName (backupName p.fileName k)
    if t.has backup then freshBackupFrom t p fuel (k + 1) else backup

/-- A backup of a file that does not exist yet. -/
def freshBackup (t : FileTree) (p : Path) : Path :=
  freshBackupFrom t p (t.files.length + t.directories.length + 1) 0

namespace Engine

/-- The place that a path text leads to, from the root where it is absolute and else from the workspace. -/
def place? (e : Engine) (t : FileTree) (text : String) : Option Path :=
  if Path.isAbsolute text then t.locate text else Path.resolve e.workspace text

/-- How a place outside the tree is written. -/
def outsideText (e : Engine) (t : FileTree) (text : String) : String :=
  if Path.isAbsolute text then Path.absoluteText text else t.textOf (e.workspace ++ [text])

/-- The report on a file that was not run. -/
def problemReport (relative : String) (status : Status) (problem : FileProblem) : Report :=
  { filePath := relative, fileType := FileType.ofPath relative, status, errors := [problem] }

/-- What a path text stands for, or why it cannot be sorted. -/
def target (e : Engine) (t : FileTree) (relative : String) : Except Report Path :=
  match e.place? t relative with
  | none =>
    .error (problemReport relative .fileNotFound (.missing (e.outsideText t relative)))
  | some p =>
    if !t.has p then .error (problemReport relative .fileNotFound (.missing (t.textOf p)))
    else if (FileType.ofPath? p.fileName).isNone then
      .error (problemReport relative .unsupported (.noSorter p.suffix))
    else .ok p

/-- The text of a file and the options for it, or why it cannot be run. -/
def load (e : Engine) (t : FileTree) (p : Path) : Except FileProblem (String × Options) := do
  let file ← match t.file? p with
    | some f => pure f
    | none => throw (.unreadable (.isDirectory (t.textOf p)))
  let cs ← (Utf8.decodeFile file.bytes).mapError .undecodable
  let options ← (e.settings.forFile p.fileName).toOptions.mapError .badOptions
  return (String.ofList cs, options)

/-- The report on a file that was run, before anything is written. -/
def runReport (relative : String) (dryRun : Bool) (text : String) (o : Options) : Report :=
  let outcome := processWith o text
  let sorted := if outcome.success then outcome.processedText else none
  let modified := sorted.any (· != text)
  { filePath := relative, fileType := o.fileType
    status :=
      if !outcome.success then .failed
      else if !modified then .unchanged
      else if dryRun then .preview
      else .sorted
    success := outcome.success
    errors := outcome.errors.map .run
    warnings := outcome.warnings
    modified
    content := some ⟨outcome.entitiesProcessed, text, sorted.getD text⟩ }

/-- Copies a file to a fresh backup. A copy is as old as the file. -/
def backUp (t : FileTree) (p : Path) : FileTree × Path :=
  let backup := freshBackup t p
  match t.file? p with
  | some f => (t.insert backup f, backup)
  | none => (t, backup)

/-- Where a file is written before it takes its place. -/
def temporary (p : Path) : Path := p.withName (p.fileName ++ tempSuffix)

/-- Writes a text to a file, by way of a temporary file. A directory in the place of the temporary file is
an error. -/
def write (t : FileTree) (p : Path) (text : String) : Except FileError FileTree :=
  if t.isDirectory (temporary p) then .error (.isDirectory (t.textOf (temporary p)))
  else .ok ((t.keep fun q _ => q != temporary p).insert p { bytes := Utf8.encode text.toList })

/-- Sorts a file. The tree changes only when it is no dry run and the text changes. -/
def sortFile (e : Engine) (dryRun : Bool) (relative : String) (t : FileTree) :
    FileTree × Except OutsideWorkspace Report :=
  match e.target t relative with
  | .error report => (t, .ok report)
  | .ok p =>
    match e.load t p with
    | .error problem => (t, .ok (problemReport relative .engineError problem))
    | .ok (text, options) =>
      let report := runReport relative dryRun text options
      if dryRun || !report.modified then (t, .ok report)
      else
        let (saved, backup) := backUp t p
        match e.workspace.below? backup with
        | none => (saved, .error ⟨t.textOf backup, t.textOf e.workspace⟩)
        | some inside =>
          let report := { report with backup := some inside.text }
          match write saved p ((report.content.map (·.after)).getD text) with
          | .ok written => (written, .ok { report with written := true })
          | .error error =>
            (saved, .ok { report with status := .failed, success := false, writeError := some error })

/-- Sorts files one after the other. -/
def sortFiles (e : Engine) (dryRun : Bool) :
    List String → FileTree → FileTree × List (Except OutsideWorkspace Report)
  | [], t => (t, [])
  | relative :: rest, t =>
    let (t, report) := e.sortFile dryRun relative t
    let (t, reports) := sortFiles e dryRun rest t
    (t, report :: reports)

/-- An extension with the point in front, in small letters. -/
def normalExtension (extension : String) : String :=
  let ext := Text.lower extension
  if ext.toList.head? == some '.' then ext else "." ++ ext

/-- The extensions that are asked for; all that are known when none are. -/
def wantedExtensions (extensions : List String) : List String :=
  if extensions.isEmpty then FileType.extensions.map (·.1) else extensions.map normalExtension

/-- The files below a directory with some extension, down to a depth, as path texts from
there. -/
def discover (t : FileTree) (directory : Path) (extensions : List String) (maxDepth : Int) :
    List String :=
  let wanted := wantedExtensions extensions
  (t.filesBelow directory).filterMap fun p =>
    match directory.below? p with
    | some inside =>
      if wanted.contains (Text.lower p.suffix) && (inside.length : Int) ≤ maxDepth then
        some inside.text
      else none
    | none => none

/-- The depth down to which files are looked for when nothing else is said. -/
def defaultDepth : Int := 10

/-- The depth that a value stands for. -/
def depthOf : Node → Int
  | .scalar (.int n) _ => n
  | .scalar (.bool b) _ => if b then 1 else 0
  | .scalar (.float x) _ => if x.magnitude < Binary64.infinite then x.truncated 1 else defaultDepth
  | .scalar (.text s) _ => (Text.readInteger s.toList).toOption.getD defaultDepth
  | _ => defaultDepth

/-- Sorts all files of the workspace. -/
def scan (e : Engine) (dryRun : Bool) (extensions : List String) (maxDepth : Int) (t : FileTree) :
    FileTree × List (Except OutsideWorkspace Report) :=
  e.sortFiles dryRun (discover t e.workspace extensions maxDepth) t

/-- Whether a file is a backup of this workspace that has reached an age. -/
def isOldBackup (e : Engine) (maxAge : Int) (p : Path) (f : File) : Bool :=
  (e.workspace.below? p).any (!·.isEmpty) && Text.endsWith p.fileName backupSuffix && maxAge ≤ f.age

/-- Removes the backups that have reached an age, and counts them. -/
def cleanUp (e : Engine) (maxAge : Int) (t : FileTree) : FileTree × Nat :=
  (t.keep fun p f => !e.isOldBackup maxAge p f,
    t.files.countP fun (p, f) => e.isOldBackup maxAge p f)

end Engine

end MemberOrder.Workspace
