/-
  What a plain scalar looks like: null, a truth value, a number, a date, or a text. The first
  version of YAML has more truth values and numbers than the later ones.
-/
import MemberOrder.Data.Node
import MemberOrder.Pattern.Basic

namespace MemberOrder.Yaml

open Pattern (all choice char word oneOf some1 optional)

/-- What a plain scalar looks like. -/
inductive Looks where
  | null
  | bool
  | int
  | float
  | timestamp
  | merge
  | defaultValue
  | text
  deriving Repr, DecidableEq

/-- The start of the tags that every document knows. -/
def coreTag (name : String) : String := "tag:yaml.org,2002:" ++ name

/-- The tag of a scalar with given looks. -/
def Looks.tagName : Looks → String
  | .null => coreTag "null"
  | .bool => coreTag "bool"
  | .int => coreTag "int"
  | .float => coreTag "float"
  | .timestamp => coreTag "timestamp"
  | .merge => coreTag "merge"
  | .defaultValue => coreTag "value"
  | .text => coreTag "str"

/-- A digit or an underscore. -/
def isNumeral (c : Char) : Bool := c.isDigit || c == '_'

/-- An optional sign. -/
def signPattern : Pattern := optional (oneOf "-+")

/-- Digits, the first of which is no underscore. -/
def numeralPattern : Pattern := .seq (.one Char.isDigit) (.span isNumeral)

/-- The minutes or seconds of a number to the base sixty. -/
def sixtiethPattern : Pattern :=
  all [char ':', optional (.one fun c => '0' ≤ c && c ≤ '5'), .one Char.isDigit]

/-- One or more minutes and seconds; there are at most `fuel`. -/
def sixtiethsPattern : (fuel : Nat) → Pattern
  | 0 => sixtiethPattern
  | fuel + 1 => .seq sixtiethPattern (optional (sixtiethsPattern fuel))

/-- The looks of a floating point number. -/
def floatPattern (first : Bool) (size : Nat) : Pattern :=
  let exponent := all [oneOf "eE", signPattern, some1 Char.isDigit]
  let fraction := all [char '.', some1 isNumeral,
    optional (all [oneOf "eE", oneOf "-+", some1 Char.isDigit])]
  choice ([
    all [signPattern, numeralPattern, char '.', .span isNumeral, optional exponent],
    all [signPattern, numeralPattern, exponent],
    if first then fraction else .seq signPattern fraction,
    all [signPattern, choice [word ".inf", word ".Inf", word ".INF"]],
    choice [word ".nan", word ".NaN", word ".NAN"]]
    ++ if first then
      [all [signPattern, numeralPattern, sixtiethsPattern size, char '.', .span isNumeral]]
    else [])

/-- A digit below eight, or an underscore. -/
def isOctal (c : Char) : Bool := ('0' ≤ c && c ≤ '7') || c == '_'

/-- The looks of an integer. -/
def intPattern (first : Bool) (size : Nat) : Pattern :=
  let binary := Pattern.seq (word "0b") (some1 fun c => c == '0' || c == '1' || c == '_')
  let hexadecimal := Pattern.seq (word "0x") (some1 fun c =>
    c.isDigit || ('a' ≤ c && c ≤ 'f') || ('A' ≤ c && c ≤ 'F') || c == '_')
  let positive := Pattern.seq (.one fun c => '1' ≤ c && c ≤ '9') (.span isNumeral)
  let forms :=
    if first then [binary, .seq (optional (char '0')) (some1 isOctal), char '0', positive,
      hexadecimal, .seq positive (sixtiethsPattern size)]
    else [binary, all [char '0', optional (char 'o'), some1 isOctal], some1 isNumeral, hexadecimal]
  .seq (.ahead (oneOf "-+0123456789")) (.seq signPattern (choice forms))

/-- The looks of a date, or of a date with a time. -/
def timestampPattern : Pattern :=
  let digit := Pattern.one Char.isDigit
  let digits := Pattern.seq digit (optional digit)
  let year := all [digit, digit, digit, digit]
  let blanks := Pattern.span fun c => c == ' ' || c == '\t'
  choice [
    all [year, char '-', digit, digit, char '-', digit, digit],
    all [year, char '-', digits, char '-', digits,
      choice [oneOf "Tt", some1 fun c => c == ' ' || c == '\t'],
      digits, char ':', digit, digit, char ':', digit, digit,
      optional (.seq (char '.') (.span Char.isDigit)),
      optional (.seq blanks (choice [char 'Z',
        all [oneOf "-+", digits, optional (all [char ':', digit, digit])]]))]]

/-- The words for truth values. -/
def truthWords (first : Bool) : List String :=
  ["true", "True", "TRUE", "false", "False", "FALSE"]
    ++ if first then ["y", "Y", "yes", "Yes", "YES", "n", "N", "no", "No", "NO", "on", "On", "ON",
      "off", "Off", "OFF"]
    else []

/-- A text without the line feed at its end; that of an empty line stays. -/
def withoutFeed (s : String) : String :=
  let cs := s.toList
  if cs.getLast? == some '\n' && 1 < cs.length then String.ofList cs.dropLast else s

/-- What a plain scalar looks like. A line feed at its end does not count. -/
def looks (first : Bool) (s : String) : Looks :=
  let s := withoutFeed s
  let size := s.length
  if s == "" || s == "~" || s == "null" || s == "Null" || s == "NULL" then .null
  else if (truthWords first).contains s then .bool
  else if (floatPattern first size).fits s then .float
  else if (intPattern first size).fits s then .int
  else if timestampPattern.fits s then .timestamp
  else if s == "<<" then .merge
  else if s == "=" then .defaultValue
  else .text

end MemberOrder.Yaml
