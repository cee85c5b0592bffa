/-
  The entity of a JSON document: the root object or array, its members with their comments,
  and the members of the containers inside.
-/
import MemberOrder.Json.Tree
import MemberOrder.Model.Entity
import MemberOrder.Source.Attachment

namespace MemberOrder.Json

open Attachment

/-- The record of a member whose comments are known. -/
def memberInfo (s : Scanned) (isObject : Bool) (index : Nat) (slot : Slot) (value : Tree)
    (leading trailing nestedDangling : List Comment) : MemberInfo :=
  let after := match slot.comma with
    | some comma => comma + 1
    | none => value.stop
  let base : MemberInfo := {
    name := if isObject then s.source.cut (slot.start + 1) (slot.keyStop - 1) else toString index
    value := .text (s.source.cut value.start value.stop)
    comments := leading
    trailingComments := trailing
    trailingText := trailingText s.source after trailing
    line := s.lineAt slot.start
    fullText := s.source.cut slot.start value.stop
    separator := if slot.comma.isSome then "," else ""
    span := some (s.span slot.start value.stop)
    unit := some (s.span (startOf leading slot.start) (endOf trailing after)) }
  match value with
  | .scalar _ _ => base
  | .container nestedObject start stop _ =>
    { base with
      hasNestedObject := true
      container := if nestedObject then .braces else .brackets
      nestedInline := s.onOneLine start stop
      body := some (s.span (start + 1) (stop - 1))
      dangling := nestedDangling }

mutual

/-- The members of a container and the comments that are left in it. -/
def containerMembers (s : Scanned) : Tree → Claiming (List Member × List Comment)
  | .scalar start stop => do
    let _ ← takeInside start stop
    return ([], [])
  | .container isObject start stop members => do
    let found ← membersFrom s isObject (stop - 1) members 0 (start + 1)
    let dangling ← takeInside (start + 1) (stop - 1)
    return (found, dangling)

/-- The members of a container from the one with the given index on. -/
def membersFrom (s : Scanned) (isObject : Bool) (close : Nat) :
    (members : List (Slot × Tree)) → (index floor : Nat) → Claiming (List Member)
  | [], _, _ => return []
  | m :: rest, index, floor => do
    let (member, floor) ← memberOf s isObject close m index floor
    let others ← membersFrom s isObject close rest (index + 1) floor
    return member :: others

/-- One member, and the offset from which the next one may take comments. -/
def memberOf (s : Scanned) (isObject : Bool) (close : Nat) :
    (member : Slot × Tree) → (index floor : Nat) → Claiming (Member × Nat)
  | (slot, value), index, floor => do
    let leading ← takeLeading s slot.start floor
    let _ ← takeInside slot.start value.start
    let (children, nestedDangling) ← containerMembers s value
    let after := match slot.comma with
      | some comma => comma + 1
      | none => value.stop
    let early ← match slot.comma with
      | some comma => takeInside value.stop comma
      | none => pure []
    let trailing := early ++ (← takeTrailing s after close)
    let info := memberInfo s isObject index slot value leading trailing nestedDangling
    let member := match value with
      | .scalar _ _ => Member.leaf info
      | .container _ _ _ _ => Member.group info children
    return (member, endOf trailing after)

end

/-- The entity of the root container. -/
def rootEntity (s : Scanned) (fileType : FileType) (tree : Tree) : Entity :=
  let ((members, dangling), _) := (containerMembers s tree).run s.comments
  let start := tree.start
  let close := tree.stop - 1
  let isObject := s.masked.hasAt start '{'
  { kind := if isObject then .jsonObject else .jsonArray
    name := "root"
    members
    startLine := s.lineAt start
    endLine := s.lineAt close
    sourceText := s.source.cut start tree.stop
    span := some (s.span start tree.stop)
    body := some (s.span (start + 1) close)
    header := if isObject then "\x7b" else "["
    footer := s.source.cut close (close + 1)
    indent := s.indentOfFirst (members.filterMap fun m => m.info.span.map (·.start))
    baseIndent := s.indentOf start
    inline := s.onOneLine start tree.stop
    dangling
    fileType }

/-- Reads a JSON document. -/
def read (fileType : FileType) (t : Text) : Reading :=
  let s := Scanned.scan .json t
  match readDocument s with
  | .error (problem, line) => { errors := [.json problem line] }
  | .ok none => {}
  | .ok (some tree) => { entities := [rootEntity s fileType tree] }

end MemberOrder.Json
