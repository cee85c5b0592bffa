/-
  Option files. An option file is a YAML document, which every JSON document is too. Its root
  is a mapping of option names to values; where that mapping has a section for this program,
  as the settings of an editor do, the section counts in its place.
-/
import MemberOrder.Options.Settings
import MemberOrder.Workspace.FileTree
import MemberOrder.Yaml.Loaded

namespace MemberOrder.Workspace

/-- Why a value is no list of settings. -/
inductive SectionProblem where
  /-- A value without parts. -/
  | unsized (kind : String)
  /-- A part that is no pair, because it has no parts itself. -/
  | undivided (index : Nat)
  /-- A part that has another number of parts than two. -/
  | noPair (index length : Nat)
  /-- A name that is a collection. -/
  | collectionName (kind : String)
  deriving Repr, DecidableEq

/-- How it is reported that a value is no list of settings. -/
def SectionProblem.message : SectionProblem → String
  | .unsized kind => "object of type '" ++ kind ++ "' has no len()"
  | .undivided i =>
    "cannot convert dictionary update sequence element #" ++ toString i ++ " to a sequence"
  | .noPair i length =>
    "dictionary update sequence element #" ++ toString i ++ " has length " ++ toString length
      ++ "; 2 is required"
  | .collectionName kind => "unhashable type: '" ++ kind ++ "'"

/-- Why a file gives no settings. -/
inductive ConfigError where
  | unreadable (path : String) (error : FileError)
  | undecodable (fault : Utf8.Fault)
  | invalid
  /-- What a document writes is no value. -/
  | failed (failure : Yaml.Failure)
  | noMapping (path : String)
  | badSection (problem : SectionProblem)
  deriving Repr, DecidableEq

namespace ConfigError

/-- How it is reported that a file gives no settings. -/
def message : ConfigError → String
  | .unreadable path error => "Unable to read config " ++ path ++ ": " ++ error.message
  | .undecodable fault => fault.message
  | .invalid => "Invalid config"
  | .failed failure => failure.message
  | .noMapping path => "Config " ++ path ++ " must contain a mapping"
  | .badSection problem => problem.message

/-- Whether the program expects the error and ends in an orderly way. -/
def isExpected : ConfigError → Bool
  | .unreadable _ _ | .invalid | .noMapping _ => true
  | .undecodable _ | .failed _ | .badSection _ => false

end ConfigError

namespace Config

/-- The parts of a node, if it has any. -/
def parts? : Node → Option (List Node)
  | .sequence items _ => some items
  | .mapping entries _ => some (entries.map (·.1))
  | .scalar (.text s) _ => some (s.toList.map fun c => Node.ofText (String.singleton c))
  | .scalar (.bytes bs) _ => some (bs.map fun b => .scalar (.int b.toNat) {})
  | .scalar _ _ => none

/-- A part of a list as a name and a value. -/
def pairOf (index : Nat) (part : Node) : Except SectionProblem (String × Node) :=
  match parts? part with
  | none => .error (.undivided index)
  | some [name, value] =>
    if name.isCollection then .error (.collectionName name.typeName)
    else .ok (name.displayKey, value)
  | some parts => .error (.noPair index parts.length)

/-- Whether a node is a mapping with values. -/
def isTable : Node → Bool
  | .mapping _ f => f.role != .set
  | _ => false

/-- The settings that a node lists. -/
def settingsOf (n : Node) : Except SectionProblem Settings :=
  match n, isTable n with
  | .mapping entries _, true =>
    .ok (Settings.insertAll [] (entries.map fun (k, v) => (k.displayKey, v)))
  | _, _ =>
    match parts? n with
    | none => .error (.unsized n.typeName)
    | some parts => do
      return Settings.insertAll [] (← parts.zipIdx.mapM fun (part, i) => pairOf i part)

/-- The name of the section for this program. -/
def sectionName : String := "propertySorter"

/-- The section for this program, or the whole root without one. -/
def sectionOf (root : Node) (entries : List (Node × Node)) : Node :=
  ((entries.find? (·.1.text? == some sectionName)).map (·.2)).getD root

/-- The settings of a document. -/
def ofText (path : String) (cs : List Char) : Except ConfigError Settings :=
  match Yaml.read cs false with
  | .error (.failed failure) => .error (.failed failure)
  | .error _ => .error .invalid
  | .ok none => .ok []
  | .ok (some root) =>
    if root.isNull then .ok []
    else match root, isTable root with
      | .mapping entries _, true => (settingsOf (sectionOf root entries)).mapError .badSection
      | _, _ => .error (.noMapping path)

/-- A path text without empty components and points. -/
def normalPath (text : String) : String :=
  (if Text.startsWith text "/" then "/" else "")
    ++ Text.joinStrings "/" ((FileType.components text).map String.ofList)

/-- The settings of a file of a tree. -/
def load (t : FileTree) (text : String) : Except ConfigError Settings := do
  let path := normalPath text
  let bytes ← (t.read path).mapError (.unreadable path)
  let cs ← (Utf8.decodeFile bytes).mapError .undecodable
  ofText path cs

end Config

end MemberOrder.Workspace
