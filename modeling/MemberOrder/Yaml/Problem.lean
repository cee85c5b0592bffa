/-
  What can be wrong with a YAML document, by cause, and how each cause is worded.
-/
import MemberOrder.Data.Moment
import MemberOrder.Text.Base64
import MemberOrder.Text.Number
import MemberOrder.Text.Utf8

namespace MemberOrder.Yaml

/-- A cause for which a text is no YAML document. -/
inductive Problem where
  /-- A character that starts no token. -/
  | strayCharacter (found : Char)
  | valueNotAllowed
  | keyNotAllowed
  | entryNotAllowed
  /-- A line that has to be a key is none. -/
  | missingColon
  | endInQuotes
  | separatorInQuotes
  | unknownEscape (found : Char)
  | escapeDigits (count : Nat) (found : Char)
  | zeroIndentation
  | blockIndicator (found : Char)
  | lineRest (found : Char)
  | nameCharacter (found : Char)
  | tagUri (found : Char)
  | tagClose (found : Char)
  | tagHandle (found : Char)
  | tagRest (found : Char)
  | uriDigits (found : Char)
  | uriBytes (fault : Utf8.Fault)
  | versionNumber (found : Char)
  | versionRest (found : Char)
  | repeatedVersion
  | foreignVersion
  | repeatedHandle (handle : String)
  | undefinedHandle (handle : String)
  | expectedContent (token : String)
  /-- A flow collection goes on without a comma. -/
  | expectedComma (closer : Char) (token : String)
  | expectedBlockEnd (token : String)
  | expectedDocument (token : String)
  | afterDocument (token : String)
  | secondDocument
  | undefinedAlias (name : String)
  | duplicateKey (key value first : String)
  | duplicateItem (key : String)
  | duplicateMerge (key : String)
  | unhashableKey
  | mergeOfItem (kind : String)
  | mergeOfValue (kind : String)
  | unknownTag (tag : String)
  /-- A tag on a node of another kind. -/
  | otherNode (expected found : String)
  | otherSequence (found : String)
  | otherEntry (found : String)
  | entryCount (count : Nat)
  | notAscii (message : String)
  | base64 (problem : Base64.Problem)
  | timestamp (text : String)
  deriving Repr, DecidableEq

/-- What ends the reading of a whole stream at once. -/
inductive Failure where
  | integer (problem : Text.IntegerProblem)
  | number (text : String)
  | moment (problem : MomentProblem)
  /-- A word that is no truth value. -/
  | notTruth (text : String)
  | version (major minor : Nat)
  /-- A number without digits. -/
  | noDigits
  /-- A number with this many exponents. -/
  | exponents (count : Nat)
  /-- A number that is no character's. -/
  | codePoint (code : Nat)
  /-- A collection inside a key. -/
  | unhashable (kind : String)
  /-- A scalar where a collection has to be. -/
  | noCollection
  /-- A sequence of pairs as a key. -/
  | noPlace
  /-- A mapping that lends entries to itself while it is being built. -/
  | noSource
  | repeatedItem
  | repeatedRemarks
  | overlappingRemarks (first second : String)
  deriving Repr, DecidableEq

namespace Problem

/-- A character in quotes. -/
def shown (c : Char) : String := Text.quoted (String.singleton c)

/-- How a problem is worded. -/
def message : Problem → String
  | .strayCharacter c => "found character " ++ shown c ++ " that cannot start any token"
  | .valueNotAllowed => "mapping values are not allowed here"
  | .keyNotAllowed => "mapping keys are not allowed here"
  | .entryNotAllowed => "sequence entries are not allowed here"
  | .missingColon => "could not find expected ':'"
  | .endInQuotes => "found unexpected end of stream"
  | .separatorInQuotes => "found unexpected document separator"
  | .unknownEscape c => "found unknown escape character " ++ shown c
  | .escapeDigits count c =>
    "expected escape sequence of " ++ toString count ++ " hexdecimal numbers, but found " ++ shown c
  | .zeroIndentation => "expected indentation indicator in the range 1-9, but found 0"
  | .blockIndicator c => "expected chomping or indentation indicators, but found " ++ shown c
  | .lineRest c => "expected a comment or a line break, but found " ++ shown c
  | .nameCharacter c => "expected alphabetic or numeric character, but found " ++ shown c
  | .tagUri c => "expected URI, but found " ++ shown c
  | .tagClose c => "expected '>', but found " ++ shown c
  | .tagHandle c => "expected '!', but found " ++ shown c
  | .tagRest c => "expected ' ', but found " ++ shown c
  | .uriDigits c => "expected URI escape sequence of 2 hexdecimal numbers, but found " ++ shown c
  | .uriBytes fault => fault.message
  | .versionNumber c => "expected a digit, but found " ++ shown c
  | .versionRest c => "expected a digit or '.', but found " ++ shown c
  | .repeatedVersion => "found duplicate YAML directive"
  | .foreignVersion => "found incompatible YAML document (version 1.* is required)"
  | .repeatedHandle handle => "duplicate tag handle " ++ Text.quoted handle
  | .undefinedHandle handle => "found undefined tag handle " ++ Text.quoted handle
  | .expectedContent token => "expected the node content, but found " ++ Text.quoted token
  | .expectedComma closer token =>
    "expected ',' or " ++ shown closer ++ ", but got " ++ Text.quoted token
  | .expectedBlockEnd token => "expected <block end>, but found " ++ Text.quoted token
  | .expectedDocument token =>
    "expected '<document start>', but found (" ++ Text.quoted token ++ ",)"
  | .afterDocument token =>
    "found non-comment content after document end marker, (" ++ Text.quoted token ++ ",)"
  | .secondDocument => "but found another document"
  | .undefinedAlias name => "found undefined alias " ++ Text.quoted name
  | .duplicateKey key value first =>
    "found duplicate key \"" ++ key ++ "\" with value \"" ++ value ++ "\" (original value: \""
      ++ first ++ "\")"
  | .duplicateItem key => "found duplicate key \"" ++ key ++ "\""
  | .duplicateMerge key => "found duplicate merge key \"" ++ key ++ "\""
  | .unhashableKey => "found unhashable key"
  | .mergeOfItem kind => "expected a mapping for merging, but found " ++ kind
  | .mergeOfValue kind =>
    "expected a mapping or list of mappings for merging, but found " ++ kind
  | .unknownTag tag => "could not determine a constructor for the tag " ++ Text.quoted tag
  | .otherNode expected found => "expected a " ++ expected ++ " node, but found " ++ found
  | .otherSequence found => "expected a sequence, but found " ++ found
  | .otherEntry found => "expected a mapping of length 1, but found " ++ found
  | .entryCount count =>
    "expected a single mapping item, but found " ++ toString count ++ " items"
  | .notAscii message => "failed to convert base64 data into ascii: " ++ message
  | .base64 problem => "failed to decode base64 data: " ++ problem.message
  | .timestamp text => "failed to construct timestamp from \"" ++ text ++ "\""

end Problem

/-- How it is reported what ended a reading. -/
def Failure.message : Failure → String
  | .integer problem => problem.message
  | .number text => "could not convert string to float: " ++ Text.quoted text
  | .moment problem => problem.message
  | .notTruth text => Text.quoted text
  | .version major minor => "(" ++ toString major ++ ", " ++ toString minor ++ ")"
  | .noDigits => "string index out of range"
  | .exponents count =>
    if count < 2 then "not enough values to unpack (expected 2, got 1)"
    else "too many values to unpack (expected 2)"
  | .codePoint code =>
    if code < 0x80000000 then "chr() arg not in range(0x110000)"
    else "Python int too large to convert to C int"
  | .unhashable kind => "unhashable type: '" ++ kind ++ "'"
  | .noCollection => "'ScalarNode' object has no attribute 'flow_style'"
  | .noPlace => "'list' object has no attribute 'lc'"
  | .noSource => "'NoneType' object has no attribute 'add_referent'"
  | .repeatedItem | .repeatedRemarks => ""
  | .overlappingRemarks first second => "overlap in comment " ++ first ++ " " ++ second

/-- Why a document cannot be read. -/
inductive Fault where
  /-- A problem at a line, counted from zero. -/
  | at (line : Nat) (problem : Problem)
  /-- A line of a block scalar that is deeper than the empty first line. The line and the
  column count from zero in the document, and the excerpt shows them. -/
  | deeperLine (line column : Nat) (excerpt : String)
  /-- A character that no document may hold, and where it stands. -/
  | forbidden (code offset : Nat)
  /-- Nothing after this is read. -/
  | failed (failure : Failure)
  deriving Repr, DecidableEq

/-- How a fault of a document is reported; the lines of the document start after a number of
others. -/
def Fault.message (skipped : Nat) : Fault → String
  | .at line problem => problem.message ++ " at line " ++ toString (skipped + line + 1)
  | .deeperLine line column excerpt =>
    "more indented follow up line than first in a block scalar\n  in \"<unicode string>\", line "
      ++ toString (line + 1) ++ ", column " ++ toString (column + 1) ++ ":\n" ++ excerpt
  | .forbidden code offset =>
    "unacceptable character #x" ++ String.ofList (Text.hexDigits 4 code)
      ++ ": special characters are not allowed\n  in \"<unicode string>\", position "
      ++ toString offset
  | .failed failure => failure.message

end MemberOrder.Yaml
