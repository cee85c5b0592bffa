/-
  Lexemes: a source text cut into literals, comments and single characters of code. The
  lexemes of a text are consecutive and cover it, so the two companions of a text, `clean`
  (comments blanked) and `masked` (comments and the insides of literals blanked), are
  joined from them lexeme by lexeme and keep every offset and every line break.
-/
import MemberOrder.Source.Comment
import MemberOrder.Source.Span

namespace MemberOrder

/-- Which comments and literals a language has. Block comments exist in all of them. -/
structure Profile where
  /-- Whether two slashes start a comment. -/
  lineComments : Bool := true
  /-- The characters that start and end a literal. -/
  quotes : List Char
  /-- Quotes whose literals may run over several lines. -/
  multilineQuotes : List Char := []
  /-- Quotes whose literals have no backslash escapes. -/
  rawQuotes : List Char := []
  /-- Whether two slashes mean nothing inside parentheses. -/
  parenGuard : Bool := false

namespace Profile

/-- The grave accent, which quotes templates and raw strings. -/
def grave : Char := Char.ofNat 96

/-- The apostrophe. -/
def apostrophe : Char := Char.ofNat 39

def typescript : Profile := { quotes := ['"', apostrophe, grave], multilineQuotes := [grave] }
def css : Profile := { lineComments := false, quotes := ['"', apostrophe] }
def scss : Profile := { quotes := ['"', apostrophe], parenGuard := true }
def go : Profile :=
  { quotes := ['"', apostrophe, grave], multilineQuotes := [grave], rawQuotes := [grave] }
def json : Profile := { quotes := ['"'] }

end Profile

/-- What a lexeme is. -/
inductive LexemeKind where
  | code
  | literal
  | lineComment
  | blockComment
  deriving Repr, DecidableEq, Inhabited

/-- A lexeme: its kind and the offsets it covers. -/
structure Lexeme where
  kind : LexemeKind
  start : Nat
  stop : Nat
  deriving Repr, DecidableEq, Inhabited

namespace Lexeme

/-! ## Cutting a text -/

/-- The end of a literal whose next character to look at is `i`: just past the closing
quote, at the line feed that cuts it off, or at the end of the text. -/
def literalStop (p : Profile) (t : Text) (quote : Char) : (fuel i : Nat) → Nat
  | 0, _ => t.size
  | fuel + 1, i =>
    match t[i]? with
    | none => t.size
    | some c =>
      if c == '\\' && !p.rawQuotes.contains quote then literalStop p t quote fuel (i + 2)
      else if c == quote then i + 1
      else if c == '\n' && !p.multilineQuotes.contains quote then i
      else literalStop p t quote fuel (i + 1)

/-- The end of a block comment that starts at `i`. -/
def blockStop (t : Text) (i : Nat) : Nat :=
  match t.find? ['*', '/'] (i + 2) with
  | some close => close + 2
  | none => t.size

/-- The end of a line comment that starts at `i`: the line break, both of its characters
left out. -/
def lineStop (t : Text) (i : Nat) : Nat :=
  let stop := (t.find? ['\n'] i).getD t.size
  if i < stop && t.hasAt (stop - 1) '\r' then stop - 1 else stop

/-- The lexeme that starts at `i`, inside `depth` open parentheses. -/
def lexemeAt (p : Profile) (t : Text) (depth i : Nat) : Lexeme :=
  match t[i]? with
  | none => ⟨.code, i, i + 1⟩
  | some c =>
    if p.quotes.contains c then ⟨.literal, i, literalStop p t c (t.size - i) (i + 1)⟩
    else if t.standsAt i ['/', '*'] then ⟨.blockComment, i, blockStop t i⟩
    else if p.lineComments && t.standsAt i ['/', '/'] && !(p.parenGuard && 0 < depth) then
      ⟨.lineComment, i, lineStop t i⟩
    else ⟨.code, i, i + 1⟩

/-- The number of open parentheses after a lexeme. -/
def depthAfter (t : Text) (l : Lexeme) (depth : Nat) : Nat :=
  if l.kind == .code then
    if t.hasAt l.start '(' then depth + 1
    else if t.hasAt l.start ')' then depth - 1
    else depth
  else depth

/-- At most `fuel` lexemes of a text, from `i` on. -/
def lexemesFrom (p : Profile) (t : Text) : (fuel i depth : Nat) → List Lexeme
  | 0, _, _ => []
  | fuel + 1, i, depth =>
    if i < t.size then
      let l := lexemeAt p t depth i
      l :: lexemesFrom p t fuel l.stop (depthAfter t l depth)
    else []

/-- The lexemes of a text. -/
def lexemes (p : Profile) (t : Text) : List Lexeme := lexemesFrom p t t.size 0 0

/-! ## The companions of a text -/

/-- Replaces all but line breaks. -/
def blank (filler : Char) (cs : List Char) : List Char :=
  cs.map fun c => if c == '\r' || c == '\n' then c else filler

/-- A literal with its inside blanked: the opening quote stays, and so does a last
character equal to it. -/
def maskLiteral (cs : List Char) : List Char :=
  match cs with
  | [] => []
  | quote :: inside =>
    if inside.getLast? == some quote then quote :: blank '_' inside.dropLast ++ [quote]
    else quote :: blank '_' inside

/-- A lexeme's share of the text without comments. -/
def clean (t : Text) (l : Lexeme) : List Char :=
  match l.kind with
  | .code | .literal => t.slice l.start l.stop
  | .lineComment | .blockComment => blank ' ' (t.slice l.start l.stop)

/-- A lexeme's share of the text without comments and insides of literals. -/
def masked (t : Text) (l : Lexeme) : List Char :=
  match l.kind with
  | .code => t.slice l.start l.stop
  | .literal => maskLiteral (t.slice l.start l.stop)
  | .lineComment | .blockComment => blank ' ' (t.slice l.start l.stop)

/-- A comment lexeme as a comment. -/
def comment? (t : Text) (lines : Lines) (l : Lexeme) : Option Comment :=
  let make (kind : CommentKind) : Comment :=
    let raw := t.slice l.start l.stop
    { text := String.ofList (Comment.body raw), kind, raw := String.ofList raw
      line := lines.lineAt l.start, endLine := lines.lineAt (max l.start (l.stop - 1))
      offset := l.start, stop := l.stop }
  match l.kind with
  | .lineComment => some (make .line)
  | .blockComment => some (make .block)
  | .code | .literal => none

end Lexeme

end MemberOrder
