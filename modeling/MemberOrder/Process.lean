/-
  From text to text: a source is read, its entities are sorted, and the sorted entities are
  written over their places. Every outcome, failures included, is a value.
-/
import MemberOrder.Json.Document
import MemberOrder.Layout.Splice
import MemberOrder.Layout.Written
import MemberOrder.Options.Settings
import MemberOrder.Order.Sorter
import MemberOrder.Script.Document
import MemberOrder.Struct.Document
import MemberOrder.Style.Document
import MemberOrder.Yaml.Document
import MemberOrder.Yaml.FlowText

namespace MemberOrder

/-- Reads a source of a file type. -/
def readSource (fileType : FileType) (t : Text) : Reading :=
  match fileType.language with
  | .typescript => Script.read fileType t
  | .css => Style.read fileType t
  | .go => Struct.read fileType t
  | .json => Json.read fileType t
  | .yaml => Yaml.readStream fileType t

/-- Writes an entity. A YAML flow collection is written anew, all else over its own text. -/
def writeEntity (o : Options) (e : Entity) : Except Layout.LayoutError String :=
  if o.language == .yaml && e.inline then Yaml.writeFlow o e
  else Layout.writeBlock (Layout.Rules.ofFileType o.fileType) o e

/-- Writes sorted entities over the places of the entities that were read. -/
def writeBack (o : Options) (source : String) (entities sorted : List Entity) : String :=
  String.ofList (Layout.splice source.toList entities sorted (writeEntity o) fun e err =>
    (Layout.Rules.ofFileType o.fileType).failure e.name err.message)

/-- What a run has to say. -/
inductive Notice where
  | noRules
  | noEntities
  | noProperties
  | alreadySorted
  | read (error : ReadError)
  | unsorted (error : SortError)
  | failed (error : OptionError)
  deriving Repr, DecidableEq

/-- How a notice reads. -/
def Notice.message : Notice → String
  | .noRules => "No CSS rules found to sort"
  | .noEntities => "No sortable entities found (interfaces, objects, or type aliases)"
  | .noProperties => "No properties found to sort, but entities were processed"
  | .alreadySorted => "Properties are already sorted in the specified order"
  | .read error => error.message
  | .unsorted error => "Sorting error: " ++ error.message
  | .failed error => "Processing failed: " ++ error.message

/-- The outcome of a run. -/
structure Outcome where
  success : Bool
  entitiesProcessed : Nat := 0
  errors : List Notice := []
  warnings : List Notice := []
  processedText : Option String := none
  deriving Repr

/-- Sorts entities; one that cannot be sorted stays as it is and is reported. -/
def sortEntities (o : Options) : List Entity → List Entity × List Notice
  | [] => ([], [])
  | e :: rest =>
    let (sorted, notices) := sortEntities o rest
    match (Sorter.ofLanguage o.language).sortEntity o e with
    | .ok e' => (e' :: sorted, notices)
    | .error err => (e :: sorted, .unsorted err :: notices)

/-- Whether two lists of entities differ in the names of their members. -/
def hasChanges (entities sorted : List Entity) : Bool :=
  entities.length != sorted.length
    || (entities.zip sorted).any fun (a, b) => !sameNames a.members b.members

/-- Runs a source through reading, sorting and writing. -/
def processWith (o : Options) (source : String) : Outcome :=
  let reading := readSource o.fileType (Text.ofString source)
  let entities := reading.entities
  let readNotices := reading.errors.map Notice.read
  if entities.isEmpty then
    if o.language == .css then
      { success := true, warnings := .noRules :: readNotices, processedText := some source }
    else { success := false, errors := .noEntities :: readNotices }
  else if entities.all (·.members.isEmpty) then
    if o.fileType == .go then
      { success := true, entitiesProcessed := entities.length
        warnings := readNotices ++ [.noProperties], processedText := some source }
    else { success := false, errors := [.noEntities], warnings := readNotices }
  else
    let (sorted, sortNotices) := sortEntities o entities
    let warnings := readNotices ++ sortNotices
    if hasChanges entities sorted then
      { success := true, entitiesProcessed := sorted.length, warnings
        processedText := some (writeBack o source entities sorted) }
    else
      { success := true, entitiesProcessed := sorted.length
        warnings := warnings ++ [.alreadySorted], processedText := some source }

/-- Runs a source under loosely written options. -/
def process (settings : Settings) (source : String) : Outcome :=
  match settings.toOptions with
  | .ok o => processWith o source
  | .error err => { success := false, errors := [.failed err] }

/-- The sorted text, or nothing when the run fails. -/
def sortText (settings : Settings) (source : String) : Option String :=
  let outcome := process settings source
  if outcome.success then outcome.processedText else none

/-- Names before and after sorting, and whether they differ at some depth. -/
structure Preview where
  before : List String
  after : List String
  changes : Bool
  deriving Repr, DecidableEq

/-- What sorting would do to members. -/
def Sorter.preview (sorter : Sorter) (o : Options) (entity : Option (EntityKind × String))
    (members : List Member) : Except SortError Preview := do
  let sorted ← sorter.sortMembers o entity members
  return ⟨members.map (·.name), sorted.map (·.name), !sameNames members sorted⟩

end MemberOrder
