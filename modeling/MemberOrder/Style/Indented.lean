/-
  The indented dialect, which has neither brackets nor semicolons. A source in it is
  decorated with both, at the ends of its lines, so that it can be read like the other
  dialects. Lines stay where they are, so every offset of the decorated text leads back to
  one of the source.
-/
import MemberOrder.Pattern.Basic

namespace MemberOrder.Style.Indented

open Pattern

/-! ## Lines -/

/-- Where the code of a line stops: at a comment, or at its end. `i` is the column of the
next character, which stands in the given literal or within `depth` parentheses. -/
def commentStart : (literal : Option Char) → (depth i : Nat) → List Char → Nat
  | _, _, i, [] => i
  | some quote, depth, i, [c] =>
    commentStart (if c == quote then none else some quote) depth (i + 1) []
  | some quote, depth, i, c :: d :: rest =>
    if c == '\\' then commentStart (some quote) depth (i + 2) rest
    else commentStart (if c == quote then none else some quote) depth (i + 1) (d :: rest)
  | none, depth, i, c :: rest =>
    if c == '"' || c.toNat == 39 then commentStart (some c) depth (i + 1) rest
    else if c == '(' then commentStart none (depth + 1) (i + 1) rest
    else if c == ')' then commentStart none (depth - 1) (i + 1) rest
    else if c == '/' && (rest.head? == some '*' || (depth == 0 && rest.head? == some '/')) then i
    else commentStart none depth (i + 1) rest

/-- The column where the code of a line stops, before a comment or white space. -/
def codeStop (line : List Char) : Nat :=
  (Text.trimRight (line.take (commentStart none 0 0 line))).length

/-- Declarations of the dialect: a variable, or a name with a blank after its colon. -/
def declaration : Pattern :=
  let notSpace := .one fun c => !Text.isSpace c
  let hyphen := optional (char '-')
  .either
    (all [char '$', some1 isNameOrHyphen, spaces, char ':', spaces, notSpace])
    (all [hyphen, hyphen, .one isNameStart, .span isNameOrHyphen, spaces, char ':', spaces1,
      notSpace])

/-- The words and marks that start a statement other than a declaration. -/
def statementStarts : List String :=
  ["+", "@include", "@extend", "@import", "@use", "@forward", "@debug", "@warn", "@error",
   "@return", "@charset"]

/-- Whether a line of code is a statement and no selector. -/
def isStatement (code : String) : Bool :=
  declaration.leads code || statementStarts.any (Text.startsWith code)

/-! ## Decoration -/

/-- A selector whose block is still open: its indentation, its line, the last line of code
in its block, and whether the block holds anything. -/
structure Frame where
  level : Nat
  line : Nat
  last : Nat
  hasContent : Bool := false
  deriving Repr, DecidableEq

/-- Characters to be put at the end of a line's code. -/
abbrev Insertion := Nat × List Char

/-- The open blocks, innermost first; what to insert so far, last first; whether a comment
is open; and the ends of code of the lines read, last first. -/
structure Decorating where
  stack : List Frame := []
  insertions : List Insertion := []
  inComment : Bool := false
  ends : List Nat := []

/-- Notes that the innermost block holds something. -/
def markContent : List Frame → List Frame
  | [] => []
  | frame :: rest => { frame with hasContent := true } :: rest

/-- Closes the innermost block: brackets around one that holds something, a semicolon after
a selector with nothing in its block. -/
def closeFrame (d : Decorating) (frame : Frame) (outer : List Frame) : Decorating :=
  if frame.hasContent then
    { d with
      stack := markContent outer
      insertions := (frame.last, ['}']) :: (frame.line, [' ', '{']) :: d.insertions }
  else { d with stack := outer, insertions := (frame.line, [';']) :: d.insertions }

/-- Closes the blocks that a line with this indentation is outside of. -/
def closeDeeper (indent : Nat) : (fuel : Nat) → Decorating → Decorating
  | 0, d => d
  | fuel + 1, d =>
    match d.stack with
    | [] => d
    | frame :: outer =>
      if indent ≤ frame.level then closeDeeper indent fuel (closeFrame d frame outer) else d

/-- Closes every block. -/
def closeAll : (fuel : Nat) → Decorating → Decorating
  | 0, d => d
  | fuel + 1, d =>
    match d.stack with
    | [] => d
    | frame :: outer => closeAll fuel (closeFrame d frame outer)

/-- Reads line number `i`, its line break removed. -/
def readLine (d : Decorating) (i : Nat) (body : List Char) : Decorating :=
  if d.inComment then
    { d with inComment := !Text.contains ['*', '/'] body, ends := 0 :: d.ends }
  else
    let stop := codeStop body
    let code := Text.trim (body.take stop)
    let d := { d with ends := stop :: d.ends }
    if code.isEmpty then
      let stripped := Text.trim body
      let opens := ['/', '*'].isPrefixOf stripped && !Text.contains ['*', '/'] stripped
      { d with inComment := opens }
    else
      let indent := body.length - (Text.trimLeft body).length
      let d := closeDeeper indent d.stack.length d
      let stack := d.stack.map fun frame => { frame with last := i }
      if isStatement (String.ofList code) then
        { d with stack := markContent stack, insertions := (i, [';']) :: d.insertions }
      else { d with stack := { level := indent, line := i, last := i } :: stack }

/-- Reads lines from number `i` on. -/
def readLines : Decorating → (i : Nat) → List (List Char) → Decorating
  | d, _, [] => d
  | d, i, body :: rest => readLines (readLine d i body) (i + 1) rest

/-- A line without a carriage return at its end. -/
def withoutReturn (line : List Char) : List Char :=
  if line.getLast? == some '\r' then line.dropLast else line

/-- A line of the source, the column where its code stops, and what is inserted there. -/
structure Line where
  text : List Char
  codeStop : Nat
  inserted : List Char
  deriving Repr, DecidableEq

/-- What is inserted into line number `i`, in order. -/
def insertedInto (insertions : List Insertion) (i : Nat) : List Char :=
  (insertions.filter (·.1 == i)).flatMap (·.2)

/-- The lines of a source with their decoration. -/
def decorate (source : List Char) : List Line :=
  let lines := Text.lines source
  let d := readLines {} 0 (lines.map withoutReturn)
  let d := closeAll d.stack.length d
  let insertions := d.insertions.reverse
  let ends := d.ends.reverse
  lines.zipIdx.map fun (text, i) =>
    { text, codeStop := ends.getD i 0, inserted := insertedInto insertions i }

/-- A line with its decoration. -/
def Line.braced (l : Line) : List Char :=
  l.text.take l.codeStop ++ l.inserted ++ l.text.drop l.codeStop

/-- The decorated text. -/
def braced (lines : List Line) : List Char := Text.join ['\n'] (lines.map Line.braced)

/-- Leads an offset of the decorated text back to the source, from the line on whose first
characters have the offsets `start` there and `inSource` in the source. -/
def toSourceFrom : (start inSource : Nat) → List Line → (offset : Nat) → Nat
  | _, inSource, [], _ => inSource
  | start, inSource, l :: rest, offset =>
    let next := start + l.text.length + l.inserted.length + 1
    if next ≤ offset && !rest.isEmpty then
      toSourceFrom next (inSource + l.text.length + 1) rest offset
    else
      let column := offset - start
      let column :=
        if l.codeStop < column then
          if column < l.codeStop + l.inserted.length then l.codeStop
          else column - l.inserted.length
        else column
      inSource + column

/-- Leads an offset of the decorated text back to the source. -/
def toSource (lines : List Line) (offset : Nat) : Nat := toSourceFrom 0 0 lines offset

end MemberOrder.Style.Indented
