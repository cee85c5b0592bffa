/-
  What a command line says: the command, the path, and the values of the options.
-/
import MemberOrder.Options.FileType
import MemberOrder.Options.Settings
import MemberOrder.Text.Digit
import MemberOrder.Text.Number

/-! The options that the command line knows, and what each of them does. -/

namespace MemberOrder.CommandLine

/-- What the program is asked to do. -/
inductive Command where
  /-- Sort files and write them. -/
  | sort
  /-- Find the files that are not sorted. -/
  | check
  deriving Repr, DecidableEq, Inhabited

/-- The word for a command. -/
def Command.name : Command → String
  | .sort => "sort"
  | .check => "check"

/-- The command with a name. -/
def Command.ofName? (s : String) : Option Command := [Command.sort, .check].find? (·.name == s)

/-- What an option on the command line does. -/
inductive Effect where
  | help
  | version
  | addExtension
  | setDepth
  | setConfig
  | setCustomOrder
  | showDiff
  | beVerbose
  | previewOnly
  | assumeYes
  /-- Gives an option of the sorter one of several values. -/
  | choose (option : String) (allowed : List String)
  /-- Gives an option of the sorter a fixed value. -/
  | fix (option : String) (value : Bool)
  deriving Repr, DecidableEq

/-- Whether an option is followed by a value. -/
def Effect.takesValue : Effect → Bool
  | .addExtension | .setDepth | .setConfig | .setCustomOrder | .choose _ _ => true
  | .help | .version | .showDiff | .beVerbose | .previewOnly | .assumeYes | .fix _ _ => false

/-- An option of the command line: the ways to write it, and what it does. -/
structure Flag where
  names : List String
  effect : Effect
  deriving Repr, DecidableEq

/-- The option that asks for help. -/
def helpFlag : Flag := ⟨["-h", "--help"], .help⟩

/-- The options in front of the command. -/
def programFlags : List Flag := [helpFlag, ⟨["-V", "--version"], .version⟩]

/-- The options that all commands have. -/
def commonFlags : List Flag := [
  helpFlag,
  ⟨["--ext"], .addExtension⟩,
  ⟨["--max-depth"], .setDepth⟩,
  ⟨["--diff"], .showDiff⟩,
  ⟨["--config"], .setConfig⟩,
  ⟨["--verbose"], .beVerbose⟩,
  ⟨["--order"], .choose "sort_order" ["asc", "desc"]⟩,
  ⟨["--case-insensitive"], .fix "case_sensitive" false⟩,
  ⟨["--natural"], .fix "natural_sort" true⟩,
  ⟨["--custom-order"], .setCustomOrder⟩,
  ⟨["--group-by-type"], .fix "group_by_type" true⟩,
  ⟨["--prioritize-required"], .fix "prioritize_required" true⟩,
  ⟨["--no-nested"], .fix "sort_nested_objects" false⟩,
  ⟨["--no-comments"], .fix "include_comments" false⟩,
  ⟨["--css-importance"], .fix "sort_by_importance" true⟩,
  ⟨["--css-vendor-groups"], .fix "group_vendor_prefixes" true⟩,
  ⟨["--css-categories"], .fix "group_by_category" true⟩,
  ⟨["--sort-keyframes"], .fix "sort_keyframes" true⟩,
  ⟨["--go-strategy"],
    .choose "sort_struct_fields" ["alphabetical", "by-type", "by-size", "preserve-tags"]⟩,
  ⟨["--json-sort-arrays"], .fix "preserve_array_order" false⟩,
  ⟨["--json-schema"], .fix "group_by_schema" true⟩,
  ⟨["--line-ending"], .choose "line_ending" ["auto", "lf", "crlf"]⟩,
  ⟨["--trailing-commas"], .choose "trailing_commas" ["preserve", "add", "remove"]⟩,
  ⟨["--property-spacing"], .choose "property_spacing" ["compact", "spaced", "aligned"]⟩,
  ⟨["--comment-style"], .choose "comment_style" ["preserve", "single-line", "multi-line"]⟩]

/-- The options of a command. -/
def Command.flags : Command → List Flag
  | .sort => commonFlags ++ [⟨["--dry-run"], .previewOnly⟩, ⟨["-y", "--yes"], .assumeYes⟩]
  | .check => commonFlags

/-- The options of the sorter that flags set, in the order in which they are handed on. -/
def optionOrder : List String := [
  "sort_order", "case_sensitive", "natural_sort", "group_by_type", "prioritize_required",
  "sort_nested_objects", "include_comments", "sort_by_importance", "group_vendor_prefixes",
  "group_by_category", "sort_keyframes", "sort_struct_fields", "preserve_array_order",
  "group_by_schema", "line_ending", "trailing_commas", "property_spacing", "comment_style"]

end MemberOrder.CommandLine

/-!
The words of a command line, sorted into options and arguments. An option may be written
with its value after an equality sign, a long one may be cut short as long as one option
alone goes on from there, and short ones may share a dash.
-/

namespace MemberOrder.CommandLine

/-- Why the command line is not run: help or the version is asked for, or it is wrong. -/
inductive Usage where
  | help
  | version
  | mistake
  deriving Repr, DecidableEq

/-- The exit code of a command line that is not run. -/
def Usage.exitCode : Usage → Nat
  | .help | .version => 0
  | .mistake => 2

/-- What follows the name of an option in the same word. -/
structure Attached where
  /-- Whether an equality sign stands in between. -/
  afterSign : Bool
  text : List Char
  deriving Repr, DecidableEq

/-- A word of a command line. -/
inductive Word where
  /-- The two dashes after which every word is an argument. -/
  | separator
  | argument (text : String)
  | option (isShort : Bool) (flag : Flag) (attached : Option Attached)
  /-- A word that looks like an option and is none. -/
  | unknown
  deriving Repr, DecidableEq

/-- The option with a name. -/
def flag? (flags : List Flag) (name : List Char) : Option Flag :=
  flags.find? (·.names.contains (String.ofList name))

/-- Whether the name of an option has one dash. -/
def isShortName (name : List Char) : Bool := name.getD 1 ' ' != '-'

/-- The parts of a word before and after its first equality sign. -/
def splitAtSign (cs : List Char) : List Char × Option (List Char) :=
  match cs.dropWhile (· != '=') with
  | [] => (cs, none)
  | _ :: value => (cs.takeWhile (· != '='), some value)

/-- A number with a minus sign in front. -/
def isNegativeNumber (cs : List Char) : Bool :=
  match cs with
  | '-' :: rest =>
    let rest := if rest.getLast? == some '\n' then rest.dropLast else rest
    let whole := rest.takeWhile Text.isDecimal
    match rest.drop whole.length with
    | [] => !whole.isEmpty
    | '.' :: fraction => !fraction.isEmpty && fraction.all Text.isDecimal
    | _ => false
  | _ => false

/-- The options that a word may be a short form of. -/
def readings (flags : List Flag) (cs : List Char) : List Word :=
  if isShortName cs then
    match flag? flags (cs.take 2) with
    | some flag => [.option true flag (some ⟨false, cs.drop 2⟩)]
    | none => []
  else
    let (start, value) := splitAtSign cs
    flags.flatMap fun flag =>
      (flag.names.filter fun name => start.isPrefixOf name.toList).map fun _ =>
        .option false flag (value.map (⟨true, ·⟩))

/-- What a word is that starts with a dash and is no whole name of an option. -/
def classifyDashed (flags : List Flag) (word : String) : Except Usage Word :=
  let cs := word.toList
  match readings flags cs with
  | [w] => .ok w
  | _ :: _ :: _ => .error .mistake
  | [] => .ok (if isNegativeNumber cs || cs.contains ' ' then .argument word else .unknown)

/-- What a word is. -/
def classify (flags : List Flag) (word : String) : Except Usage Word :=
  let cs := word.toList
  if cs.head? != some '-' then .ok (.argument word)
  else
    match flag? flags cs with
    | some flag => .ok (.option (isShortName cs) flag none)
    | none =>
      if cs.length == 1 then .ok (.argument word)
      else
        match splitAtSign cs with
        | (name, some value) =>
          match flag? flags name with
          | some flag => .ok (.option (isShortName name) flag (some ⟨true, value⟩))
          | none => classifyDashed flags word
        | (_, none) => classifyDashed flags word

/-- What the words of a command line are. -/
def classifyAll (flags : List Flag) : List String → Except Usage (List Word)
  | [] => .ok []
  | word :: rest =>
    if word == "--" then .ok (.separator :: rest.map .argument)
    else do
      let first ← classify flags word
      return first :: (← classifyAll flags rest)

/-! ## Options that share a word -/

/-- The options that a word gives. -/
structure Uses where
  /-- The options that are complete, with their values. -/
  complete : List (Effect × String) := []
  /-- The last option, when the next word has to be its value. -/
  waiting : Option Effect := none
  /-- Whether the word ends in something unknown. -/
  leftover : Bool := false
  deriving Repr, DecidableEq

/-- The options that a word gives after those that are done. -/
def Uses.after (e : Effect) (u : Uses) : Uses := { u with complete := (e, "") :: u.complete }

/-- The use of an option on its own. -/
def useAlone (e : Effect) : Uses :=
  if e.takesValue then { waiting := some e } else { complete := [(e, "")] }

/-- The uses of an option and what is attached to it. Without a value of its own, a short
option goes on with more short ones. -/
def useAttached (flags : List Flag) (isShort : Bool) (e : Effect) (afterSign : Bool) :
    List Char → Except Usage Uses
  | [] => if e.takesValue then .ok { complete := [(e, "")] } else .error .mistake
  | c :: rest =>
    if e.takesValue then .ok { complete := [(e, String.ofList (c :: rest))] }
    else if !isShort || afterSign || c == '-' then .error .mistake
    else
      match flag? flags ['-', c] with
      | none => .ok { complete := [(e, "")], leftover := true }
      | some next =>
        match rest with
        | [] => .ok ((useAlone next.effect).after e)
        | '=' :: value => do
          return (← useAttached flags true next.effect true value).after e
        | d :: more => do
          return (← useAttached flags true next.effect false (d :: more)).after e

/-- The uses of an option word. -/
def usesOf (flags : List Flag) (isShort : Bool) (flag : Flag) (attached : Option Attached) :
    Except Usage Uses :=
  match attached with
  | none => .ok (useAlone flag.effect)
  | some a => useAttached flags isShort flag.effect a.afterSign a.text

end MemberOrder.CommandLine

/-! ## Arguments -/

namespace MemberOrder.CommandLine

/-- What a command line says. -/
structure Arguments where
  command : Command
  path : String := ""
  extensions : List String := []
  maxDepth : Int := 10
  diff : Bool := false
  verbose : Bool := false
  config : Option String := none
  customOrder : Option String := none
  dryRun : Bool := false
  yes : Bool := false
  /-- The options of the sorter that are given. -/
  chosen : Settings := []

/-- Carries out an option. -/
def Arguments.apply (a : Arguments) (e : Effect) (value : String) : Except Usage Arguments :=
  match e with
  | .help => .error .help
  | .version => .error .version
  | .addExtension => .ok { a with extensions := a.extensions ++ [value] }
  | .setDepth =>
    match Text.readInteger value.toList with
    | .ok n => .ok { a with maxDepth := n }
    | .error _ => .error .mistake
  | .setConfig => .ok { a with config := some value }
  | .setCustomOrder => .ok { a with customOrder := some value }
  | .showDiff => .ok { a with diff := true }
  | .beVerbose => .ok { a with verbose := true }
  | .previewOnly => .ok { a with dryRun := true }
  | .assumeYes => .ok { a with yes := true }
  | .choose option allowed =>
    if allowed.contains value then .ok { a with chosen := a.chosen.insert option (.ofText value) }
    else .error .mistake
  | .fix option value => .ok { a with chosen := a.chosen.insert option (.scalar (.bool value) {}) }

/-- The reading of the words after a command, up to some word. -/
structure Reading where
  arguments : Arguments
  path : Option String := none
  /-- Whether the word before is the path. -/
  atPath : Bool := false
  /-- Options that wait for a word as the value of the last of them. -/
  waiting : Option (List (Effect × String) × Effect) := none
  /-- Whether a word was too much. -/
  leftover : Bool := false

namespace Reading

/-- Carries out options. -/
def applyAll (r : Reading) (uses : List (Effect × String)) : Except Usage Reading := do
  let arguments ← uses.foldlM (fun a (e, value) => a.apply e value) r.arguments
  return { r with arguments }

/-- Reads an argument. The first one is the path; one more is too much. -/
def argument (r : Reading) (text : String) : Reading :=
  match r.path with
  | none => { r with path := some text, atPath := true }
  | some _ => { r with atPath := false, leftover := true }

/-- Reads an option. -/
def option (r : Reading) (uses : Uses) : Except Usage Reading :=
  let r := { r with atPath := false, leftover := r.leftover || uses.leftover }
  match uses.waiting with
  | none => r.applyAll uses.complete
  | some e => .ok { r with waiting := some (uses.complete, e) }

/-- Reads a word that may be anything. Two dashes may stand before the path or right behind
it. -/
def word (flags : List Flag) (r : Reading) : Word → Except Usage Reading
  | .unknown => .ok { r with atPath := false, leftover := true }
  | .separator =>
    .ok { r with atPath := false, leftover := r.leftover || (r.path.isSome && !r.atPath) }
  | .argument text => .ok (r.argument text)
  | .option isShort flag attached => do r.option (← usesOf flags isShort flag attached)

/-- Reads the next word. -/
def step (flags : List Flag) (r : Reading) (w : Word) : Except Usage Reading :=
  match r.waiting with
  | none => r.word flags w
  | some (complete, e) =>
    match w with
    | .argument value => { r with waiting := none }.applyAll (complete ++ [(e, value)])
    | _ => .error .mistake

/-- The arguments, when all words are read. -/
def finish (r : Reading) : Except Usage Arguments :=
  match r.path with
  | some path =>
    if r.leftover || r.waiting.isSome then .error .mistake else .ok { r.arguments with path }
  | none => .error .mistake

end Reading

/-- Reads what follows a command. -/
def readCommand (command : Command) (rest : List String) : Except Usage Arguments := do
  let words ← classifyAll command.flags rest
  let r ← words.foldlM (Reading.step command.flags) { arguments := { command } }
  r.finish

/-- Reads the words up to the command, of which all are known that are options of the program.
Each comes with the words after it, as they are written. -/
def readProgram : (leftover : Bool) → List (Word × List String) → Except Usage (Option Arguments)
  | leftover, [] => if leftover then .error .mistake else .ok none
  | _, (.unknown, _) :: rest => readProgram true rest
  | _, (.separator, _) :: _ => .error .mistake
  | leftover, (.argument name, after) :: _ =>
    match Command.ofName? name with
    | none => .error .mistake
    | some command => do
      let arguments ← readCommand command after
      if leftover then .error .mistake else return some arguments
  | leftover, (.option isShort flag attached, _) :: rest => do
    let uses ← usesOf programFlags isShort flag attached
    match uses.complete with
    | (.version, _) :: _ => .error .version
    | (.help, _) :: _ => .error .help
    | _ => readProgram (leftover || uses.leftover) rest

/-- The words that follow each word of a list. -/
def tailsAfter : List String → List (List String)
  | [] => []
  | _ :: rest => rest :: tailsAfter rest

/-- Reads a command line; nothing when it has no command. -/
def read (words : List String) : Except Usage (Option Arguments) := do
  let kinds ← classifyAll programFlags words
  readProgram false (kinds.zip (tailsAfter words))

end MemberOrder.CommandLine
