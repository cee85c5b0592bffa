/-
  Patterns over texts and their ordered-choice matching: alternatives are tried left to
  right and repetitions give back characters one at a time, so of all ways to match the
  first one in that order is the match. Everything is total: a repetition can succeed only
  finitely often because each round has to consume something.
-/
import MemberOrder.Text.Basic
import MemberOrder.Text.Case
import MemberOrder.Text.Digit
import MemberOrder.Text.Word

namespace MemberOrder

/-- The pieces that a match has marked: a label with the offsets of its piece, latest first. -/
abbrev Captures := List (String × Nat × Nat)

/-- What a pattern can say about a text. -/
inductive Pattern where
  /-- The empty text. -/
  | empty
  /-- One character that passes a test. -/
  | one (test : Char → Bool)
  /-- As many characters as possible that pass a test, fewer when the rest demands it. -/
  | span (test : Char → Bool)
  /-- As few characters as possible that pass a test, more when the rest demands it. -/
  | fewest (test : Char → Bool)
  /-- One pattern after the other. -/
  | seq (first second : Pattern)
  /-- The first pattern, or else the second. -/
  | either (first second : Pattern)
  /-- A pattern as often as possible. -/
  | many (body : Pattern)
  /-- Marks what a pattern matches. -/
  | mark (label : String) (body : Pattern)
  /-- The pattern would match here; nothing is consumed. -/
  | ahead (body : Pattern)
  /-- The pattern would not match here; nothing is consumed. -/
  | notAhead (body : Pattern)
  /-- The text before and after this place passes a test; the text may be cut off at the
  given stop. -/
  | place (test : Text → (stop offset : Nat) → Bool)

namespace Pattern

instance : Inhabited Pattern := ⟨.empty⟩

/-! ## Matching -/

/-- How a match ended: the offset just past it, and what it marked. -/
abbrev Ending := Nat × Captures

/-- How many characters from `i` on, at most `fuel`, pass a test. -/
def runLength (t : Text) (test : Char → Bool) : (fuel i : Nat) → Nat
  | 0, _ => 0
  | fuel + 1, i => if t.testAt i test then runLength t test fuel (i + 1) + 1 else 0

/-- Offers `i + count`, `i + count - 1`, … `i` to the continuation until one is accepted. -/
def downFrom (k : Nat → Option Ending) (i : Nat) : (count : Nat) → Option Ending
  | 0 => k i
  | count + 1 =>
    match k (i + count + 1) with
    | some r => some r
    | none => downFrom k i count

/-- Offers `i`, `i + 1`, … `i + count` to the continuation until one is accepted. -/
def upFrom (k : Nat → Option Ending) : (count i : Nat) → Option Ending
  | 0, i => k i
  | count + 1, i =>
    match k i with
    | some r => some r
    | none => upFrom k count (i + 1)

/-- Repeats a matcher as often as possible, at most `fuel` times, each round consuming
something. -/
def repeatFrom (round : Nat → Captures → (Nat → Captures → Option Ending) → Option Ending)
    (k : Nat → Captures → Option Ending) : (fuel i : Nat) → Captures → Option Ending
  | 0, i, marks => k i marks
  | fuel + 1, i, marks =>
    match round i marks fun j marks' =>
        if i < j then repeatFrom round k fuel j marks' else none with
    | some r => some r
    | none => k i marks

/-- Matches a pattern at `i` in the text up to `stop` and hands each way to match, in order
of preference, to the continuation until one is accepted. -/
def run (t : Text) (stop : Nat) :
    Pattern → (i : Nat) → Captures → (Nat → Captures → Option Ending) → Option Ending
  | .empty, i, marks, k => k i marks
  | .one test, i, marks, k => if i < stop && t.testAt i test then k (i + 1) marks else none
  | .span test, i, marks, k => downFrom (k · marks) i (runLength t test (stop - i) i)
  | .fewest test, i, marks, k => upFrom (k · marks) (runLength t test (stop - i) i) i
  | .seq p q, i, marks, k => run t stop p i marks fun j marks' => run t stop q j marks' k
  | .either p q, i, marks, k =>
    match run t stop p i marks k with
    | some r => some r
    | none => run t stop q i marks k
  | .many p, i, marks, k =>
    repeatFrom (fun i marks k => run t stop p i marks k) k (stop - i + 1) i marks
  | .mark label p, i, marks, k =>
    run t stop p i marks fun j marks' => k j ((label, i, j) :: marks')
  | .ahead p, i, marks, k =>
    if (run t stop p i [] fun j found => some (j, found)).isSome then k i marks else none
  | .notAhead p, i, marks, k =>
    if (run t stop p i [] fun j found => some (j, found)).isSome then none else k i marks
  | .place test, i, marks, k => if test t stop i then k i marks else none

/-! ## Matches -/

/-- A match: where it starts and ends, and what it marked. -/
structure Found where
  start : Nat
  stop : Nat
  marks : Captures
  deriving Repr, DecidableEq

/-- The offsets of the piece with a label. -/
def Found.piece? (m : Found) (label : String) : Option (Nat × Nat) := m.marks.lookup label

/-- Whether a piece with the label was matched. -/
def Found.has (m : Found) (label : String) : Bool := (m.piece? label).isSome

/-- Where the piece with a label starts; the start of the match when there is none. -/
def Found.startOf (m : Found) (label : String) : Nat := ((m.piece? label).map (·.1)).getD m.start

/-- Where the piece with a label ends; the start of the match when there is none. -/
def Found.stopOf (m : Found) (label : String) : Nat := ((m.piece? label).map (·.2)).getD m.start

/-- The preferred match that starts at `i`, in the text up to `stop`. -/
def matchAt? (p : Pattern) (t : Text) (i stop : Nat) : Option Found :=
  (run t stop p i [] fun j marks => some (j, marks)).map fun (j, marks) => ⟨i, j, marks⟩

/-- The preferred match that covers exactly the text from `i` up to `stop`. -/
def fullMatch? (p : Pattern) (t : Text) (i stop : Nat) : Option Found :=
  (run t stop p i [] fun j marks => if j == stop then some (j, marks) else none).map
    fun (j, marks) => ⟨i, j, marks⟩

/-- The first match that starts at `i` or at one of the next `fuel` offsets. -/
def searchFrom (p : Pattern) (t : Text) (stop : Nat) : (fuel i : Nat) → Option Found
  | 0, i => p.matchAt? t i stop
  | fuel + 1, i =>
    match p.matchAt? t i stop with
    | some m => some m
    | none => searchFrom p t stop fuel (i + 1)

/-- The first match that starts at `i` or later, in the text up to `stop`. -/
def search? (p : Pattern) (t : Text) (i stop : Nat) : Option Found :=
  if stop < i then none else p.searchFrom t stop (stop - i) i

/-- At most `fuel` matches from `i` on, none overlapping the one before. -/
def findFrom (p : Pattern) (t : Text) : (fuel i : Nat) → List Found
  | 0, _ => []
  | fuel + 1, i =>
    match p.search? t i t.size with
    | none => []
    | some m => m :: findFrom p t fuel (if m.stop == m.start then m.stop + 1 else m.stop)

/-- All matches in a text, left to right, none overlapping the one before. -/
def findAll (p : Pattern) (t : Text) : List Found := p.findFrom t (t.size + 1) 0

/-- The text from `i` on with the given matches replaced. -/
def replaceFound (t : Text) (by_ : Found → List Char) : (found : List Found) → (i : Nat) → List Char
  | [], i => t.slice i t.size
  | m :: rest, i => t.slice i m.start ++ by_ m ++ replaceFound t by_ rest m.stop

/-- Replaces every match. -/
def replaceAll (p : Pattern) (t : Text) (by_ : Found → List Char) : List Char :=
  replaceFound t by_ (p.findAll t) 0

/-- Whether a string as a whole matches. -/
def fits (p : Pattern) (s : String) : Bool :=
  let t := Text.ofString s
  (p.fullMatch? t 0 t.size).isSome

/-- Whether a string starts with a match. -/
def leads (p : Pattern) (s : String) : Bool :=
  let t := Text.ofString s
  (p.matchAt? t 0 t.size).isSome

/-- Whether a match occurs somewhere in a string. -/
def occurs (p : Pattern) (s : String) : Bool :=
  let t := Text.ofString s
  (p.search? t 0 t.size).isSome

/-! ## Building patterns -/

/-- A sequence of patterns. -/
def all : List Pattern → Pattern
  | [] => .empty
  | [p] => p
  | p :: rest => .seq p (all rest)

/-- Alternatives, tried in order. -/
def choice : List Pattern → Pattern
  | [] => .place fun _ _ _ => false
  | [p] => p
  | p :: rest => .either p (choice rest)

/-- A fixed character. -/
def char (c : Char) : Pattern := .one (· == c)

/-- Fixed characters one after the other. -/
def chars : List Char → Pattern
  | [] => .empty
  | [c] => char c
  | c :: rest => .seq (char c) (chars rest)

/-- A fixed word. -/
def word (s : String) : Pattern := chars s.toList

/-- One of the given characters. -/
def oneOf (s : String) : Pattern := .one s.toList.contains

/-- As many characters as possible other than the given ones. -/
def spanNot (s : String) : Pattern := .span fun c => !s.toList.contains c

/-- One character or more that passes a test. -/
def some1 (test : Char → Bool) : Pattern := .seq (.one test) (.span test)

/-- A pattern or nothing. -/
def optional (p : Pattern) : Pattern := .either p .empty

/-- As much white space as possible. -/
def spaces : Pattern := .span Text.isSpace

/-- White space, at least one character. -/
def spaces1 : Pattern := some1 Text.isSpace

/-- No character stands before this place, or it fails a test. -/
def notBehind (test : Char → Bool) : Pattern :=
  .place fun t _ i => !(0 < i && t.testAt (i - 1) test)

/-- The start of the text. -/
def atStart : Pattern := .place fun _ _ i => i == 0

/-- The start of a line. -/
def atLineStart : Pattern := .place fun t _ i => i == 0 || t.hasAt (i - 1) '\n'

/-- The end of the text, or the place before a line feed that ends it. -/
def atEnd : Pattern := .place fun t stop i => i == stop || (i + 1 == stop && t.hasAt i '\n')

end Pattern

end MemberOrder

/-!
Character classes and boundaries that name the classes of `Text`: words, digits and
letters without regard to case.
-/

namespace MemberOrder.Pattern

/-- A letter from A to Z, in either case. -/
def isLatin (c : Char) : Bool := c.isAlpha

/-- A letter from A to Z or an underscore. -/
def isNameStart (c : Char) : Bool := c.isAlpha || c == '_'

/-- A word character or a hyphen. -/
def isNameOrHyphen (c : Char) : Bool := Text.isWord c || c == '-'

/-- A boundary between a word character and anything else. -/
def wordBoundary : Pattern :=
  .place fun t stop i =>
    (0 < i && t.testAt (i - 1) Text.isWord) != (i < stop && t.testAt i Text.isWord)

/-- A fixed word in any case. -/
def wordAnyCase (s : String) : Pattern :=
  all (s.toList.map fun d => .one fun c => Text.foldChar c == d)

/-- A letter from A to Z where case is ignored. -/
def isLatinFolded (c : Char) : Bool := (Text.foldChar c).isLower

end MemberOrder.Pattern
