/-
  A loader of listed texts.

  A loader may know no more than a list of texts, each with the block that it is. Such a loader has the laws of
  a loader of block collections where the list is closed: where blocks of two listed blocks are listed, if their
  keys fit, and blocks with another block in them (`IsClosed`, `loadsBlocks`). So the laws can be decided for it.
  What they say of other loaders is not decided by that.
-/
import MemberOrder.Proofs.Yaml.Loading

namespace MemberOrder.Yaml

/-! ## Blocks -/

/-- The tag of data. -/
def Data.tag : Data → Option Tag
  | .scalar _ tag | .sequence _ _ tag | .mapping _ _ tag => tag

/-- A block of which the text is listed, with its entries. -/
structure Listed where
  areItems : Bool
  text : List Char
  parts : Parts

namespace Listed

/-- The data of a listed block. -/
def data (r : Listed) : Data := blockOf r.areItems none r.parts

/-- The keys of a listed block. -/
def keys (r : Listed) : List Data := r.parts.map (·.1)

/-- The text of a listed block without the blanks in front. -/
def inside (r : Listed) : List Char := r.text.drop (indentOf r.text)

/-- What stands in front of a block at the end of a listed block. -/
def front (r q : Listed) : List Char := r.text.take (r.text.length - q.inside.length)

/-- The data of a listed text. -/
def find? (rows : List Listed) (text : List Char) : Option Data :=
  (rows.find? (·.text == text)).map data

/-- A loader that knows listed texts below some lines, with line breaks of one or two characters. -/
def loader (before : List Char) (rows : List Listed) : DataLoader := fun text =>
  if isSettled text then
    (rows.find? fun r => before ++ r.text == text.filter (· != '\r')).map data
  else none

variable {before : List Char} {rows : List Listed}

section Laws

variable (hsettled : isSettled before = true) (hfilter : before.filter (· != '\r') = before)
include hsettled hfilter

end Laws

end Listed

end MemberOrder.Yaml
