/-
  Running a command on a tree of files: which files it means, with which settings they are
  sorted, and how the run ends.
-/
import MemberOrder.CommandLine.Arguments
import MemberOrder.Workspace.Config
import MemberOrder.Workspace.Engine

namespace MemberOrder.CommandLine

open Workspace

/-- What stops a run in the middle. -/
inductive Failure where
  | config (error : ConfigError)
  /-- An answer is needed, and there is no more input. -/
  | endOfInput
  deriving Repr, DecidableEq

/-- How it is reported that a run stops. -/
def Failure.message : Failure → String
  | .config error => error.message
  | .endOfInput => "EOF when reading a line"

/-- The names in a list with commas between them. -/
def namesIn (list : String) : List String :=
  ((Text.splitAt (· == ',') list.toList).map Text.trim).filterMap fun name =>
    if name.isEmpty then none else some (String.ofList name)

namespace Arguments

/-- The settings of the options that the command line gives. -/
def given (a : Arguments) : Settings :=
  let chosen := optionOrder.filterMap fun name => (a.chosen.lookup name).map (name, ·)
  match a.customOrder with
  | none => chosen
  | some list =>
    if list.isEmpty then chosen
    else chosen ++ [("custom_order", .sequence ((namesIn list).map Node.ofText) {})]

/-- The settings of a run: those of the option file, and over them what the command line
gives. -/
def settings (a : Arguments) (t : FileTree) : Except ConfigError Settings := do
  let base ← match a.config with
    | none => pure []
    | some path => if path.isEmpty then pure [] else Config.load t path
  return Settings.insertAll base a.given

/-- Whether a run may write files. -/
def writes (a : Arguments) : Bool := a.command == .sort

/-- The directory and the files in it that a path means. -/
def targets (a : Arguments) (t : FileTree) (p : Path) : Path × List String :=
  if (t.file? p).isSome then (p.dropLast, [p.fileName])
  else (p, Engine.discover t p a.extensions a.maxDepth)

/-- Whether the user is asked before files are sorted. -/
def asks (a : Arguments) : Bool := a.writes && !a.dryRun && !a.yes

/-- Whether files may be sorted: the first line of the input says so, unless nobody is
asked. -/
def isConfirmed (a : Arguments) (input : String) : Except Failure Bool :=
  if !a.asks then .ok true
  else if input.isEmpty then .error .endOfInput
  else .ok (Text.lower (String.ofList (input.toList.takeWhile (· != '\n'))) == "y")

end Arguments

/-- The exit code after files were run: zero when all went well and a check found nothing. -/
def exitCode (writes : Bool) (reports : List Report) : Nat :=
  if reports.any (!·.success) then 1
  else if !writes && reports.any (·.modified) then 1
  else 0

/-- How a run ends. -/
structure Finish where
  exitCode : Nat
  tree : FileTree
  reports : List Report := []

/-- The files that a run is about to sort. -/
structure Job where
  engine : Engine
  files : List String

/-- Finds out what a command means on a tree: files to sort, or an exit code. -/
def plan (a : Arguments) (t : FileTree) : Except Failure (Nat ⊕ Job) :=
  match (t.locate a.path).filter t.has with
  | none => .ok (.inl 2)
  | some p =>
    match a.settings t with
    | .error e => if e.isExpected then .ok (.inl 2) else .error (.config e)
    | .ok settings =>
      let (workspace, files) := a.targets t p
      .ok (if files.isEmpty then .inl 0 else .inr ⟨{ workspace, settings }, files⟩)

/-- Sorts the files of a job. -/
def Job.run (job : Job) (a : Arguments) (t : FileTree) : Finish :=
  let (tree, results) := job.engine.sortFiles (!a.writes || a.dryRun) job.files t
  let reports := results.filterMap Except.toOption
  { exitCode := exitCode a.writes reports, tree, reports }

/-- Runs a command on a tree. The input is what the user answers. -/
def run (a : Arguments) (input : String) (t : FileTree) : Except Failure Finish := do
  match ← plan a t with
  | .inl code => return { exitCode := code, tree := t }
  | .inr job =>
    if ← a.isConfirmed input then return job.run a t else return { exitCode := 1, tree := t }

end MemberOrder.CommandLine
