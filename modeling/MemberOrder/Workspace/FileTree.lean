/-
  File trees: the files under a root directory with their bytes and ages. A path is the list
  of names on the way down from the root. All operations are pure; what happens on disk is
  the difference between two trees.
-/
import MemberOrder.Options.FileType
import MemberOrder.Order.StableSort
import MemberOrder.Text.Utf8

namespace MemberOrder.Workspace

/-- The names on the way from the root to a file or directory. -/
abbrev Path := List String

/-- A file: what it holds, and how many seconds ago it was written. -/
structure File where
  bytes : List UInt8
  age : Int := 0
  deriving Repr, DecidableEq, Inhabited

/-- The files and directories under a root. -/
structure FileTree where
  /-- How the root itself is written. -/
  root : String
  files : List (Path × File) := []
  directories : List Path := []
  deriving Repr, DecidableEq

namespace Path

/-- Follows the components of a relative path; nothing when they lead out of the root. -/
def follow : Path → List String → Option Path
  | here, [] => some here
  | here, name :: rest =>
    if name == ".." then
      if here.isEmpty then none else follow here.dropLast rest
    else follow (here ++ [name]) rest

/-- Whether a path text leads down from the root of all files. -/
def isAbsolute (text : String) : Bool := text.toList.head? == some '/'

/-- An absolute path text without empty components, points and ways back. -/
def absoluteText (text : String) : String :=
  let step (here : Path) (name : String) := if name == ".." then here.dropLast else here ++ [name]
  "/" ++ Text.joinStrings "/" (((FileType.components text).map String.ofList).foldl step [])

/-- The place that a path text leads to from a directory; nothing outside the root. -/
def resolve (here : Path) (text : String) : Option Path :=
  if isAbsolute text then none
  else follow here ((FileType.components text).map String.ofList)

/-- The last name of a path. -/
def fileName (p : Path) : String := p.getLast?.getD ""

/-- The extension of the last name. -/
def suffix (p : Path) : String := String.ofList (FileType.extensionOf p.fileName.toList)

/-- The text of a path below some directory. -/
def text (p : Path) : String := Text.joinStrings "/" p

/-- Replaces the last name of a path. -/
def withName (p : Path) (name : String) : Path := p.dropLast ++ [name]

/-- The part of a path below a directory, if it is there. -/
def below? (directory p : Path) : Option Path :=
  if directory.isPrefixOf p then some (p.drop directory.length) else none

/-- Whether a path comes before another or is the same: the first name that differs decides. -/
def le : Path → Path → Bool
  | [], _ => true
  | _ :: _, [] => false
  | a :: as, b :: bs => if a == b then le as bs else a < b

/-- The directories that a path leads through. -/
def parents (p : Path) : List Path := (List.range p.length).map p.take

end Path

namespace FileTree

/-- The file at a path. -/
def file? (t : FileTree) (p : Path) : Option File := t.files.lookup p

/-- Whether a path is a directory. -/
def isDirectory (t : FileTree) (p : Path) : Bool := p.isEmpty || t.directories.contains p

/-- Whether anything is at a path. -/
def has (t : FileTree) (p : Path) : Bool := (t.file? p).isSome || t.isDirectory p

/-- The text of a path of this tree. -/
def textOf (t : FileTree) (p : Path) : String :=
  if p.isEmpty then t.root else t.root ++ "/" ++ p.text

/-- Puts a file at a path, in place of one that is there. -/
def insert (t : FileTree) (p : Path) (f : File) : FileTree :=
  { t with
    files :=
      if (t.file? p).isSome then t.files.map fun (q, g) => if q == p then (q, f) else (q, g)
      else t.files ++ [(p, f)]
    directories := t.directories ++ p.parents.filter fun d => !t.isDirectory d }

/-- Changes the file at a path, if there is one. -/
def adjust (t : FileTree) (p : Path) (f : File → File) : FileTree :=
  { t with files := t.files.map fun (q, g) => if q == p then (q, f g) else (q, g) }

/-- Removes the files that fail a test. -/
def keep (t : FileTree) (test : Path → File → Bool) : FileTree :=
  { t with files := t.files.filter fun (p, f) => test p f }

/-- The paths of the files below a directory, in the order of their names. -/
def filesBelow (t : FileTree) (directory : Path) : List Path :=
  Order.stableSort Path.le ((t.files.map (·.1)).filter fun p => (directory.below? p).isSome)

/-- The place of an absolute path text in this tree. -/
def locate (t : FileTree) (text : String) : Option Path :=
  let root := t.root.toList
  let cs := text.toList
  if root.isPrefixOf cs && (cs.length == root.length || cs.getD root.length ' ' == '/') then
    Path.follow [] ((FileType.components (String.ofList (cs.drop root.length))).map String.ofList)
  else none

end FileTree

/-- Why a file cannot be read. -/
inductive FileError where
  | notFound (path : String)
  | notDirectory (path : String)
  | isDirectory (path : String)
  deriving Repr, DecidableEq

/-- How a file error is reported. -/
def FileError.message : FileError → String
  | .notFound path => "[Errno 2] No such file or directory: " ++ Text.quoted path
  | .notDirectory path => "[Errno 20] Not a directory: " ++ Text.quoted path
  | .isDirectory path => "[Errno 21] Is a directory: " ++ Text.quoted path

/-- The bytes of the file that a path text stands for. -/
def FileTree.read (t : FileTree) (text : String) : Except FileError (List UInt8) :=
  match t.locate text with
  | none => .error (.notFound text)
  | some p =>
    match t.file? p with
    | some f => .ok f.bytes
    | none =>
      if t.isDirectory p then .error (.isDirectory text)
      else if p.parents.any fun d => (t.file? d).isSome then .error (.notDirectory text)
      else .error (.notFound text)

end MemberOrder.Workspace
