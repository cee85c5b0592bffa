/-
  The program: loads the files that a command line means, runs it on them, writes what has
  changed, and says what became of each file.
-/
import MemberOrder.CommandLine.Run

namespace MemberOrder.Program

open Workspace

/-- How the program is called. -/
def usageText : String := "usage: memberorder [-h] [-V] (sort | check) [options] path"

/-- The version of the program. -/
def versionText : String := "memberorder 1.0.0"

/-- The absolute form of a path text. Links are followed where something is there. -/
def absolute (text : String) : IO String := do
  let path := (← IO.currentDir) / text
  if ← path.pathExists then return (← IO.FS.realPath path).toString else return path.toString

/-- The place of an absolute path text in the tree of all files. -/
def placeOf (text : String) : Path := ((FileTree.mk "" [] []).locate text).getD []

/-- Adds a file on disk to a tree. -/
def addFile (t : FileTree) (text : String) : IO FileTree := do
  let bytes ← IO.FS.readBinFile text
  return t.insert (placeOf text) { bytes := bytes.toList }

/-- Adds a directory on disk to a tree, down to a depth. Links are left out. -/
def addDirectory : (depth : Nat) → FileTree → String → IO FileTree
  | 0, t, _ => return t
  | depth + 1, t, text => do
    let here ← IO.currentDir
    let mut tree := { t with directories := t.directories ++ [placeOf text] }
    for entry in ← (here / text).readDir do
      match (← entry.path.symlinkMetadata).type with
      | .dir => tree ← addDirectory depth tree entry.path.toString
      | .file => tree ← addFile tree entry.path.toString
      | _ => pure ()
    return tree

/-- Adds what is on disk at a path to a tree. The files beside a file are added too, since a
backup must not have the name of any of them. -/
def addPath (t : FileTree) (depth : Nat) (text : String) : IO FileTree := do
  let here ← IO.currentDir
  let path := here / text
  if ← path.isDir then addDirectory depth t text
  else if ← path.pathExists then
    match path.parent with
    | some directory => addDirectory 1 t directory.toString
    | none => addFile t text
  else return t

/-- Writes the files that differ between two trees. -/
def writeChanges (before after : FileTree) : IO Unit := do
  for (p, f) in after.files do
    if before.file? p != some f then
      IO.FS.writeBinFile (after.textOf p) (ByteArray.mk f.bytes.toArray)

/-- Says what became of a file. -/
def printReport (r : Report) : IO Unit := do
  IO.println (r.status.name ++ " " ++ r.filePath)
  for warning in r.warnings do IO.println ("  " ++ warning.message)
  for error in r.errors do IO.println ("  " ++ error.message)

/-- The answer of the user, if a command needs one. -/
def answer (a : CommandLine.Arguments) (t : FileTree) : IO String := do
  match CommandLine.plan a t with
  | .ok (.inr job) =>
    if !a.asks then return ""
    IO.print ("Sort " ++ toString job.files.length ++ " file(s)? (y/N): ")
    (← IO.getStdout).flush
    (← IO.getStdin).getLine
  | _ => return ""

/-- Runs a command on the files on disk. -/
def runOnDisk (a : CommandLine.Arguments) : IO UInt32 := do
  let path ← absolute a.path
  let config ← (a.config.filter (!·.isEmpty)).mapM absolute
  let a := { a with path, config }
  let mut tree ← addPath { root := "" } (a.maxDepth.toNat + 1) path
  if let some text := config then
    if (tree.file? (placeOf text)).isNone then tree ← addPath tree 1 text
  match CommandLine.run a (← answer a tree) tree with
  | .error failure =>
    IO.eprintln failure.message
    return 1
  | .ok finish =>
    writeChanges tree finish.tree
    finish.reports.forM printReport
    return finish.exitCode.toUInt32

end MemberOrder.Program

/-- Reads the command line and runs it. -/
def main (words : List String) : IO UInt32 := do
  match MemberOrder.CommandLine.read words with
  | .error usage =>
    IO.println (if usage == .version then MemberOrder.Program.versionText
      else MemberOrder.Program.usageText)
    return usage.exitCode.toUInt32
  | .ok none =>
    IO.println MemberOrder.Program.usageText
    return 0
  | .ok (some a) => MemberOrder.Program.runOnDisk a
