/-
  File types, the languages they belong to, and the file name extensions they go by.
-/
import MemberOrder.Text.Basic
import MemberOrder.Text.Case

namespace MemberOrder

/-- The dialects that can be sorted. -/
inductive FileType where
  | typescript | javascript
  | css | scss | sass | less
  | go
  | json | jsonc
  | yaml | yml
  deriving Repr, DecidableEq, Inhabited

/-- The languages that the dialects belong to. -/
inductive Language where
  | typescript
  | css
  | go
  | json
  | yaml
  deriving Repr, DecidableEq, Inhabited

namespace FileType

/-- Every file type. -/
def all : List FileType :=
  [.typescript, .javascript, .css, .scss, .sass, .less, .go, .json, .jsonc, .yaml, .yml]

/-- The name of a file type. -/
def name : FileType → String
  | .typescript => "typescript"
  | .javascript => "javascript"
  | .css => "css"
  | .scss => "scss"
  | .sass => "sass"
  | .less => "less"
  | .go => "go"
  | .json => "json"
  | .jsonc => "jsonc"
  | .yaml => "yaml"
  | .yml => "yml"

/-- The file type with a name. -/
def ofName? (s : String) : Option FileType := all.find? (·.name == s)

/-- The language of a file type. -/
def language : FileType → Language
  | .typescript | .javascript => .typescript
  | .css | .scss | .sass | .less => .css
  | .go => .go
  | .json | .jsonc => .json
  | .yaml | .yml => .yaml

/-- Extensions, point included, and the file types they stand for. -/
def extensions : List (String × FileType) :=
  [(".ts", .typescript), (".tsx", .typescript), (".mts", .typescript), (".cts", .typescript),
   (".js", .javascript), (".jsx", .javascript), (".mjs", .javascript), (".cjs", .javascript),
   (".css", .css), (".scss", .scss), (".sass", .sass), (".less", .less),
   (".go", .go),
   (".json", .json), (".jsonc", .jsonc),
   (".yaml", .yaml), (".yml", .yml)]

/-- The components of a path: the pieces between slashes, without empty ones and points. -/
def components (path : String) : List (List Char) :=
  (Text.splitAt (· == '/') path.toList).filter fun p => !p.isEmpty && p != ['.']

/-- The extension of a file name, point included: what starts at its last point, unless
that point is its first or its last character. -/
def extensionOf (fileName : List Char) : List Char :=
  let tail := fileName.reverse.takeWhile (· != '.')
  let rest := fileName.reverse.drop tail.length
  match rest with
  | '.' :: front => if tail.isEmpty || front.isEmpty then [] else '.' :: tail.reverse
  | _ => []

/-- The extension of the last component of a path. -/
def suffixOf (path : String) : String :=
  match (components path).getLast? with
  | some fileName => String.ofList (extensionOf fileName)
  | none => ""

/-- The file type that a path's extension stands for. -/
def ofPath? (path : String) : Option FileType := extensions.lookup (Text.lower (suffixOf path))

/-- The file type of a path; TypeScript when its extension stands for none. -/
def ofPath (path : String) : FileType := (ofPath? path).getD .typescript

end FileType

/-- The name of a language. -/
def Language.name : Language → String
  | .typescript => "typescript"
  | .css => "css"
  | .go => "go"
  | .json => "json"
  | .yaml => "yaml"

end MemberOrder
