/-
  The token stream of a YAML text. Tokens are read only as far as they are asked for: up to
  the point where it is known whether the next token starts a key, and one token more. Which
  of two faults is reported depends on that. Remarks are tokens too while they wait; each goes
  to the token in front of it or to the one after it.

  A mapping key on one line is known as such only when its colon comes, so each token that
  could start one is remembered by its number, one for each depth of brackets.
-/
import MemberOrder.Yaml.Property

namespace MemberOrder.Yaml

/-- A token that turns out to start a key if a colon follows. -/
structure PossibleKey where
  /-- The number of the token, counted from the start of the stream. -/
  number : Nat
  /-- Whether nothing but a key can stand here. -/
  required : Bool
  mark : Mark
  deriving Repr, DecidableEq

/-- The bracket that opens a flow collection. -/
inductive FlowKind where
  | sequence
  | mapping
  deriving Repr, DecidableEq

/-- A YAML text that is being read token by token. -/
structure TokenStream where
  cursor : Cursor
  /-- Whether remarks are kept. -/
  remarking : Bool := true
  /-- The version that the text follows. -/
  version : Nat × Nat := (1, 2)
  /-- The tokens that are read and not yet taken. -/
  queue : List Token := []
  /-- The number of tokens taken. -/
  taken : Nat := 0
  /-- The open brackets, innermost first. -/
  flow : List FlowKind := []
  /-- The column of the innermost block collection; minus one outside all of them. -/
  indent : Int := -1
  /-- The columns of the block collections around it. -/
  indents : List Int := []
  /-- Whether a key may start here. -/
  keyAllowed : Bool := true
  /-- The possible keys, by depth of brackets. -/
  keys : List (Nat × PossibleKey) := []
  finished : Bool := false
  deriving Repr

/-- A computation that reads on in a token stream. -/
abbrev Scanning (α : Type) := StateT TokenStream (Except Fault) α

namespace TokenStream

/-- The number of open brackets. -/
def depth (s : TokenStream) : Nat := s.flow.length

/-- Whether a bracket is open. -/
def inFlow (s : TokenStream) : Bool := !s.flow.isEmpty

/-- Whether the text follows the first version. -/
def isFirst (s : TokenStream) : Bool := s.version == (1, 1)

/-- Whether the text follows a version after the first. -/
def isNewer (s : TokenStream) : Bool :=
  1 < s.version.1 || (s.version.1 == 1 && 1 < s.version.2)

/-- The column from which the lines of a scalar may go on. -/
def margin (s : TokenStream) : Nat := (s.indent + 1).toNat

/-- Adds a token that covers the text between two marks. -/
def push (s : TokenStream) (kind : TokenKind) (start stop : Mark) : TokenStream :=
  { s with queue := s.queue ++ [{ kind, start, stop }] }

/-! ## Between tokens -/

/-- The comment at the cursor, with the breaks of the empty lines after it. -/
def commentText (c : Cursor) : List Char × Cursor :=
  let (body, c) := c.span (!endsLine ·)
  let (close, c) := if c.atEnd then (['\n'], c) else ([c.head], c.step)
  let (breaks, c) := Cursor.lineBreaks (c.rest.length + 1) c
  (body ++ close ++ breaks, c)

/-- The part of a text up to its last line feed, and a line feed. -/
def uptoLastFeed (cs : List Char) : List Char :=
  ((cs.reverse.dropWhile (· != '\n')).drop 1).reverse ++ ['\n']

/-- Empty lines at the cursor. The blanks in front of a comment are not part of them. -/
def emptyText (c : Cursor) : List Char × Cursor :=
  let (cs, rest) := Cursor.emptyLines (c.rest.length + 1) c
  (if rest.head == '#' then uptoLastFeed cs else cs, rest)

/-- What is found on the way to the next token: a remark, if remarks are kept and one comes
first; and whether there was a line break. -/
structure Approach where
  remark : Option (List Char × Mark) := none
  broken : Bool := false
  rest : Cursor

/-- Goes to the next token, or past the first remark. Inside brackets tabs are blanks. -/
def approach (remarking inFlow : Bool) : (fuel : Nat) → Cursor → (broken : Bool) → Approach
  | 0, c, broken => { broken, rest := c }
  | fuel + 1, c, broken =>
    let c := c.skip fun ch => ch == ' ' || (inFlow && ch == '\t')
    if c.head == '#' && remarking then
      let (text, rest) := commentText c
      { remark := some (text, c.mark), broken := true, rest }
    else
      let c := if c.head == '#' then c.skip (!endsLine ·) else c
      match c.lineBreak? with
      | none => { broken, rest := c }
      | some (_, c) =>
        if c.head == '\n' && remarking then
          let (text, rest) := emptyText c
          { remark := some (text, c.mark), broken := true, rest }
        else approach remarking inFlow fuel c true

/-- Goes to the next token, or past the first remark. A key may start after a line break
outside brackets. -/
def toNextToken (s : TokenStream) : Option (List Char × Mark) × TokenStream :=
  let c := s.cursor
  let c := if c.offset == 0 && c.head.toNat == 0xFEFF then c.step else c
  let a := approach s.remarking s.inFlow (c.rest.length + 1) c false
  (a.remark, { s with cursor := a.rest, keyAllowed := s.keyAllowed || (a.broken && !s.inFlow) })

/-! ## Possible keys and indentation -/

/-- Whether a possible key is still one: a key is on one line and not too long. -/
def isFresh (c : Cursor) (key : PossibleKey) : Bool :=
  key.mark.line == c.line && c.offset - key.mark.offset ≤ 1024

/-- Drops the possible keys that are none any more. -/
def dropStaleKeys (s : TokenStream) : Except Fault TokenStream :=
  if s.keys.any fun (_, key) => !isFresh s.cursor key && key.required then
    .error (s.cursor.fault .missingColon)
  else .ok { s with keys := s.keys.filter fun (_, key) => isFresh s.cursor key }

/-- Drops the possible key of the current depth. -/
def dropKey (s : TokenStream) : Except Fault TokenStream :=
  match s.keys.lookup s.depth with
  | none => .ok s
  | some key =>
    if key.required then .error (s.cursor.fault .missingColon)
    else .ok { s with keys := s.keys.filter (·.1 != s.depth) }

/-- Remembers that the next token could start a key. -/
def noteKey (s : TokenStream) : Except Fault TokenStream :=
  if !s.keyAllowed then .ok s
  else do
    let required := !s.inFlow && s.indent == s.cursor.column
    let s ← s.dropKey
    let key : PossibleKey := ⟨s.taken + s.queue.length, required, s.cursor.mark⟩
    return { s with keys := s.keys ++ [(s.depth, key)] }

/-- Closes the block collections that are deeper than a column. -/
def unwind (column : Int) : (indents : List Int) → TokenStream → TokenStream
  | [], s => s
  | outer :: rest, s =>
    if column < s.indent then
      let mark := s.cursor.mark
      unwind column rest { s.push .blockEnd mark mark with indent := outer, indents := rest }
    else s

/-- Closes the block collections that end before a column; none end inside brackets. -/
def unwindTo (s : TokenStream) (column : Int) : TokenStream :=
  if s.inFlow then s else unwind column s.indents s

/-- Opens a block collection at a column, unless one is open there; and whether it did. -/
def openBlock (s : TokenStream) (column : Nat) : TokenStream × Bool :=
  if s.indent < column then
    ({ s with indent := column, indents := s.indent :: s.indents }, true)
  else (s, false)

/-! ## Single tokens -/

/-- Adds a token of some characters and goes past them. -/
def pushMark (s : TokenStream) (kind : TokenKind) (width : Nat) : TokenStream :=
  let c := s.cursor.advance width
  { s.push kind s.cursor.mark c.mark with cursor := c }

/-- Reads the end of the text. -/
def readEnd (s : TokenStream) : Except Fault TokenStream := do
  let s ← (s.unwindTo (-1)).dropKey
  return { s.pushMark .streamEnd 0 with keyAllowed := false, keys := [], finished := true }

/-- Reads a directive. A version holds from here on. -/
def readDirective (s : TokenStream) : Except Fault TokenStream := do
  let s ← (s.unwindTo (-1)).dropKey
  let ((d, stop), c) ← s.cursor.directive s.isNewer
  let version := match d with
    | .version major minor => (major, minor)
    | _ => s.version
  return { s.push (.directive d) s.cursor.mark stop.mark with
    keyAllowed := false, cursor := c, version }

/-- Reads a marker between documents. -/
def readMarker (s : TokenStream) (kind : TokenKind) : Except Fault TokenStream := do
  let s ← (s.unwindTo (-1)).dropKey
  return { s.pushMark kind 3 with keyAllowed := false }

/-- Reads an opening bracket. -/
def readOpen (s : TokenStream) (kind : TokenKind) (flow : FlowKind) : Except Fault TokenStream := do
  let s ← s.noteKey
  return { s.pushMark kind 1 with flow := flow :: s.flow, keyAllowed := true }

/-- Reads a closing bracket, whether or not it closes one. -/
def readClose (s : TokenStream) (kind : TokenKind) : Except Fault TokenStream := do
  let s ← s.dropKey
  return { s.pushMark kind 1 with flow := s.flow.tail, keyAllowed := false }

/-- Reads a comma. -/
def readComma (s : TokenStream) : Except Fault TokenStream := do
  let s ← { s with keyAllowed := true }.dropKey
  return s.pushMark .flowEntry 1

/-- Reads the dash of a sequence entry. -/
def readDash (s : TokenStream) : Except Fault TokenStream := do
  let c := s.cursor
  if !s.inFlow && !s.keyAllowed then throw (c.fault .entryNotAllowed)
  let (s, opened) := if s.inFlow then (s, false) else s.openBlock c.column
  let s := if opened then s.push .blockSequenceStart c.mark c.mark else s
  let s ← { s with keyAllowed := true }.dropKey
  return s.pushMark .blockEntry 1

/-- Reads the question mark of a key. -/
def readQuestion (s : TokenStream) : Except Fault TokenStream := do
  let c := s.cursor
  if !s.inFlow && !s.keyAllowed then throw (c.fault .keyNotAllowed)
  let (s, opened) := if s.inFlow then (s, false) else s.openBlock c.column
  let s := if opened then s.push .blockMappingStart c.mark c.mark else s
  let s ← { s with keyAllowed := !s.inFlow }.dropKey
  return s.pushMark .key 1

/-- Inserts tokens in front of the one with a number. -/
def insertBefore (s : TokenStream) (number : Nat) (tokens : List Token) : TokenStream :=
  let (before, after) := s.queue.splitAt (number - s.taken)
  { s with queue := before ++ tokens ++ after }

/-- Reads the colon of a value. If a possible key is remembered at this depth, it is one. -/
def readColon (s : TokenStream) : Except Fault TokenStream := do
  let c := s.cursor
  let s ← match s.keys.lookup s.depth with
    | some key =>
      let s := { s with keys := s.keys.filter (·.1 != s.depth), keyAllowed := false }
      let (s, opened) := if s.inFlow then (s, false) else s.openBlock key.mark.column
      let at_ (kind : TokenKind) : Token := { kind, start := key.mark, stop := key.mark }
      let start := if opened then [at_ .blockMappingStart] else []
      pure (s.insertBefore key.number (start ++ [at_ .key]))
    | none => do
      if !s.inFlow && !s.keyAllowed then throw (c.fault .valueNotAllowed)
      let (s, opened) := if s.inFlow then (s, false) else s.openBlock c.column
      let s := if opened then s.push .blockMappingStart c.mark c.mark else s
      { s with keyAllowed := !s.inFlow }.dropKey
  return s.pushMark .value 1

/-- Reads a token that could start a key. -/
def readInline (s : TokenStream) (read : Cursor → Except Fault (TokenKind × Cursor)) :
    Except Fault TokenStream := do
  let s ← s.noteKey
  let (kind, c) ← read s.cursor
  return { s.push kind s.cursor.mark c.mark with cursor := c, keyAllowed := false }

/-- Adds a scalar with the remarks it carries. -/
def pushScalar (s : TokenStream) (text : String) (style : ScalarStyle) (stop : Mark)
    (carried : Option Carried) : TokenStream :=
  let carried := if s.remarking then carried else none
  let token : Token := { kind := .scalar text style, start := s.cursor.mark, stop, carried }
  { s with queue := s.queue ++ [token] }

/-- Reads a plain scalar. A key may start after the line break that follows it. -/
def readPlain (s : TokenStream) : Except Fault TokenStream := do
  let s ← s.noteKey
  let start := s.cursor
  let p := start.plainScalar s.inFlow s.isFirst s.margin
  let carried := (p.remark? start.mark).map (Carried.addAfter none)
  return { s.pushScalar (String.ofList p.text) .plain p.stop.mark carried with
    cursor := p.rest, keyAllowed := p.broken }

/-- Goes past the remarks at the cursor, which stand below a scalar. -/
def remarksBelow : (fuel : Nat) → TokenStream → List Char × TokenStream
  | 0, s => ([], s)
  | fuel + 1, s =>
    match s.toNextToken with
    | (none, s) => ([], s)
    | (some (text, mark), s) =>
      let (more, s) := remarksBelow fuel s
      (List.replicate mark.column ' ' ++ text ++ more, s)

/-- Reads a block scalar. A key may start after it. Breaks that it does not keep make a remark
with all comments below. -/
def readBlockScalar (s : TokenStream) (style : ScalarStyle) : Except Fault TokenStream := do
  let s ← { s with keyAllowed := true }.dropKey
  let start := s.cursor
  let b ← start.blockScalar (style == .folded) s.margin
  let header : Option Carried := b.comment.map fun text => { header := some text }
  let stop := b.rest.mark
  if b.trailing.isEmpty then
    return { s.pushScalar b.text style stop header with cursor := b.rest }
  let (below, after) := remarksBelow (b.rest.rest.length + 1) { s with cursor := b.rest }
  let remark : Remark := ⟨String.ofList (b.trailing ++ below), stop.line, 0⟩
  return { s.pushScalar b.text style stop (some (Carried.addAfter header remark)) with
    cursor := after.cursor, keyAllowed := after.keyAllowed }

/-- Whether a colon is the mark of a value here. Inside brackets it is one unless a word
follows where a value is due; in the first version it always is. -/
def colonIsValue (s : TokenStream) : Bool :=
  let beforeEnd := endsWord (s.cursor.peek 1)
  match s.flow with
  | [] => beforeEnd
  | .sequence :: _ => s.isFirst || beforeEnd
  | .mapping :: _ => s.isFirst || beforeEnd || (s.queue.getLast?.map (·.kind)) != some .value

/-- Reads the token that starts at the cursor. -/
def readToken (s : TokenStream) : Except Fault TokenStream :=
  let c := s.cursor
  let ch := c.head
  let next := c.peek 1
  if c.atEnd then s.readEnd
  else if ch == '%' && c.column == 0 then s.readDirective
  else if c.column == 0 && c.hasMarker '-' then s.readMarker .documentStart
  else if c.column == 0 && c.hasMarker '.' then s.readMarker .documentEnd
  else if ch == '[' then s.readOpen .flowSequenceStart .sequence
  else if ch == '\x7b' then s.readOpen .flowMappingStart .mapping
  else if ch == ']' then s.readClose .flowSequenceEnd
  else if ch == '\x7d' then s.readClose .flowMappingEnd
  else if ch == ',' then s.readComma
  else if ch == '-' && endsWord next then s.readDash
  else if ch == '?' && (s.inFlow || endsWord next) then s.readQuestion
  else if ch == ':' && s.colonIsValue then s.readColon
  else if ch == '*' then s.readInline fun c => do
    let (name, c) ← c.anchorName
    return (.alias name, c)
  else if ch == '&' then s.readInline fun c => do
    let (name, c) ← c.anchorName
    return (.anchor name, c)
  else if ch == '!' then s.readInline fun c => do
    let ((handle, suffix), c) ← c.tag s.isNewer
    return (.tag handle suffix, c)
  else if ch == '|' && !s.inFlow then s.readBlockScalar .literal
  else if ch == '>' && !s.inFlow then s.readBlockScalar .folded
  else if ch == Char.ofNat 39 || ch == '"' then s.readInline fun c => do
    let (text, rest) ← c.quotedScalar
    return (.scalar text (if c.head == '"' then .doubleQuoted else .singleQuoted), rest)
  else if c.startsPlain s.inFlow s.isFirst then s.readPlain
  else .error (c.fault (.strayCharacter ch))

/-- Drops the blanks at the end of a text. -/
def trimBlanks (cs : List Char) : List Char := (cs.reverse.dropWhile (· == ' ')).reverse

/-- Reads a remark, or one token more with the tokens that its place asks for. -/
def readMore (s : TokenStream) : Except Fault TokenStream := do
  match s.toNextToken with
  | (some (text, mark), s) => return s.push (.remark (String.ofList (trimBlanks text))) mark mark
  | (none, s) =>
    let s ← s.dropStaleKeys
    (s.unwindTo s.cursor.column).readToken

/-! ## Taking tokens -/

/-- Whether the next token may still turn out to start a key, or is not read yet. -/
def isUnsettled (s : TokenStream) : Except Fault (Bool × TokenStream) :=
  if s.finished then .ok (false, s)
  else if s.queue.isEmpty then .ok (true, s)
  else do
    let s ← s.dropStaleKeys
    return ((s.keys.map (·.2.number)).min? == some s.taken, s)

/-- Takes the next token if it is a remark. -/
def takeRemark (s : TokenStream) : List Remark × TokenStream :=
  match s.queue with
  | [] => ([], s)
  | token :: rest =>
    match token.remark? with
    | none => ([], s)
    | some r => ([r], { s with queue := rest, taken := s.taken + 1 })

/-- Reads on until it is known what the next token is. Remarks that come first are taken if
`gathering`. -/
def settle (gathering : Bool) :
    (fuel : Nat) → TokenStream → Except Fault (List Remark × TokenStream)
  | 0, s => .ok ([], s)
  | fuel + 1, s => do
    let (unsettled, s) ← s.isUnsettled
    if !unsettled then return ([], s)
    let s ← s.readMore
    let (remarks, s) := if gathering then s.takeRemark else ([], s)
    let (more, s) ← settle gathering fuel s
    return (remarks ++ more, s)

/-- Gives remarks to the next token, which they stand in front of. -/
def giveRemarks (s : TokenStream) (remarks : List Remark) : Except Fault TokenStream :=
  match s.queue with
  | [] => .ok s
  | token :: rest =>
    if remarks.isEmpty then .ok s
    else do
      let carried ← Carried.addBefore token.carried remarks
      return { s with queue := { token with carried } :: rest }

/-- Reads on until the next token is known and has the remarks in front of it, and one token
more. -/
def ready (s : TokenStream) : Except Fault TokenStream := do
  let fuel := s.cursor.rest.length + 4
  let (_, s) ← settle false fuel s
  if s.queue.isEmpty then return s
  let (first, s) := s.takeRemark
  let (more, s) ← settle true fuel s
  let s ← s.giveRemarks (first ++ more)
  if !s.finished && s.queue.length < 2 then s.readMore else return s

/-- The remarks right after the next token, as one. Each further one is put below. -/
def takeFollowing : (fuel : Nat) → TokenStream → Remark → Except Fault (Remark × TokenStream)
  | 0, s, r => .ok (r, s)
  | fuel + 1, s, r =>
    match s.queue with
    | first :: second :: rest =>
      match second.remark? with
      | none => .ok (r, s)
      | some next => do
        let indent := String.ofList (List.replicate next.column ' ')
        let s ← readMore { s with queue := first :: rest, taken := s.taken + 1 }
        takeFollowing fuel s { r with text := r.text ++ indent ++ next.text }
    | _ => .ok (r, s)

/-- How a remark that starts on another line than its token ends is kept: with the breaks and
blanks between. -/
def Remark.below (r : Remark) (line : Nat) : Remark :=
  { r with text := String.ofList (List.replicate (r.line - line) '\n'
      ++ List.replicate r.column ' ') ++ r.text }

/-- Gives the next token the remarks that follow it, if it takes them: on its own line, or
below a scalar. -/
def claimFollowing (s : TokenStream) : Except Fault TokenStream :=
  match s.queue with
  | first :: second :: rest =>
    match second.remark? with
    | none => .ok s
    | some r =>
      let sameLine := first.stop.line == r.line
      if (first.kind.takesRemark && sameLine) || (first.kind.isScalar && !sameLine) then do
        let r := if sameLine then r else Remark.below r first.stop.line
        let s ← readMore { s with queue := first :: rest, taken := s.taken + 1 }
        let (r, s) ← takeFollowing (s.cursor.rest.length + 4) s r
        let token := { first with carried := some (Carried.addAfter first.carried r) }
        return { s with queue := token :: s.queue.tail }
      else .ok s
  | _ => .ok s

/-- The next token, which stays in the stream. -/
def peek : Scanning Token := do
  let s ← (← get).ready
  set s
  let mark := s.cursor.mark
  return s.queue.headD { kind := .streamEnd, start := mark, stop := mark }

/-- Takes the next token. -/
def take : Scanning Token := do
  let token ← peek
  let s ← (← get).claimFollowing
  set { s with queue := s.queue.tail, taken := s.taken + 1 }
  return s.queue.headD token

/-- Changes what the next token carries. -/
def recarry (change : Option Carried → Except Fault (Option Carried)) : Scanning Unit := do
  let s ← get
  match s.queue with
  | [] => return
  | token :: rest =>
    let carried ← change token.carried
    set { s with queue := { token with carried } :: rest }

/-- Starts reading a text. -/
def ofText (cs : List Char) (remarking : Bool) : TokenStream :=
  { cursor := { rest := cs }, remarking, queue := [{ kind := .streamStart, start := {}, stop := {} }] }

end TokenStream

end MemberOrder.Yaml
