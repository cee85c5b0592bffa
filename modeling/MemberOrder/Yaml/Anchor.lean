/-
  Anchors of a collection that is written anew. A node that comes more than once is written
  where it comes first, under an anchor, and stands as an alias from then on.
-/
import MemberOrder.Data.Node

namespace MemberOrder.Yaml

/-- Whether a node is the same wherever it comes. A scalar is so only with an anchor, but for
moments and texts with tags. -/
def hasIdentity (n : Node) : Bool :=
  n.form.id != 0 && (match n with
    | .scalar (.moment _) _ | .scalar (.tagged _) _ => true
    | .scalar _ f => f.anchor.isSome
    | _ => true)

/-- Which nodes have been met, and which more than once; those without an anchor of their own
are numbered. -/
structure Survey where
  met : List Nat := []
  again : List Nat := []
  unnamed : List Nat := []
  /-- The remarks that nodes have at one of their places, latest first. -/
  remarks : List (Nat × Remarks) := []

/-- Meets a node. -/
def meet (f : Form) (s : Survey) : Survey :=
  if !s.met.contains f.id then { s with met := f.id :: s.met }
  else if s.again.contains f.id then s
  else
    { s with
      again := f.id :: s.again
      unnamed := if f.anchor.isNone then s.unnamed ++ [f.id] else s.unnamed }

/-- Records the remarks that a node has at a place. -/
def Survey.note (s : Survey) (f : Form) : Survey := { s with remarks := (f.id, f.remarks) :: s.remarks }

/-- Records the remarks of an item, if it has some. -/
def Survey.noteItem (s : Survey) (f : Form) : Survey := if f.remarks == {} then s else s.note f

/-- Records the remarks of a key and its value, if one of them has some. -/
def Survey.noteEntry (s : Survey) (key value : Form) : Survey :=
  if key.remarks == {} && value.remarks == {} then s else (s.note key).note value

mutual

/-- Meets a node and, unless it has been met before, what it holds. A collection that is a key
is never met. -/
def survey : Node → (isKey : Bool) → Survey → Survey
  | .scalar value f, _, s => if hasIdentity (.scalar value f) then meet f s else s
  | .sequence items f, isKey, s =>
    if isKey || f.id == 0 then surveyAll items s
    else if s.met.contains f.id then meet f s
    else surveyAll items (meet f s)
  | .mapping entries f, isKey, s =>
    if isKey || f.id == 0 then surveyEntries entries s
    else if s.met.contains f.id then meet f s
    else surveyEntries entries (meet f s)

/-- Meets nodes. -/
def surveyAll : List Node → Survey → Survey
  | [], s => s
  | n :: rest, s => surveyAll rest ((survey n false s).noteItem n.form)

/-- Meets the keys and values of entries. -/
def surveyEntries : List (Node × Node) → Survey → Survey
  | [], s => s
  | e :: rest, s => surveyEntries rest (surveyEntry e s)

/-- Meets a key and its value. -/
def surveyEntry : Node × Node → Survey → Survey
  | (key, value), s =>
    (survey value false (survey key true s)).noteEntry key.form value.form

end

/-- A node with the remarks that it has at the last of its places that has some. -/
def Survey.shareHere (s : Survey) (n : Node) : Node :=
  if !hasIdentity n then n
  else
    match s.remarks.lookup n.form.id with
    | none => n
    | some remarks => n.withForm { n.form with remarks }

mutual

/-- A node whose parts, where they come more than once, have the same remarks wherever they
come. A collection that is a key is no other node. -/
def Survey.share (s : Survey) : Node → (isKey : Bool) → Node
  | .scalar value f, _ => s.shareHere (.scalar value f)
  | .sequence items f, isKey =>
    let n : Node := .sequence (s.shareAll items) f
    if isKey then n else s.shareHere n
  | .mapping entries f, isKey =>
    let n : Node := .mapping (s.shareEntries entries) f
    if isKey then n else s.shareHere n

/-- Nodes with the same remarks wherever they come. -/
def Survey.shareAll (s : Survey) : List Node → List Node
  | [] => []
  | n :: rest => s.share n false :: s.shareAll rest

/-- Entries with the same remarks wherever they come. -/
def Survey.shareEntries (s : Survey) : List (Node × Node) → List (Node × Node)
  | [] => []
  | e :: rest => s.shareEntry e :: s.shareEntries rest

/-- An entry with the same remarks wherever it comes. -/
def Survey.shareEntry (s : Survey) : Node × Node → Node × Node
  | (key, value) => (s.share key true, s.share value false)

end

/-- The name of an anchor that is generated for the `k`-th node, counted from one. -/
def generatedName (k : Nat) : String :=
  let ds := Nat.toDigits 10 k
  "id" ++ String.ofList (List.replicate (3 - ds.length) '0' ++ ds)

/-- The name under which a node is anchored, if it is. A scalar always keeps its anchor, a
collection only where an alias needs it. -/
def anchorName? (s : Survey) (n : Node) : Option String :=
  let f := n.form
  let isNeeded := s.again.contains f.id
  if n.isCollection && !hasIdentity n then none
  else
    match f.anchor with
    | some name => if isNeeded || !n.isCollection then some name else none
    | none =>
      if isNeeded then some (generatedName (s.unnamed.idxOf f.id + 1)) else none

end MemberOrder.Yaml
