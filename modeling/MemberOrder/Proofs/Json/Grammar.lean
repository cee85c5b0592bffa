/-
  The grammar of JSON texts and what they denote.

  An `Entry` is a value with the key it has in an object. `Spells` relates an entry to the texts that
  spell it, by the rules of the interchange format: blanks around the structural characters, strings
  without control characters, numbers without leading zeros. The only freedom beyond these rules is a
  comma after the last item of a container, and a parameter says whether it is allowed. Two entries
  agree when they denote one value: members of objects in any order, elements in their order or, where
  that does not count, in any order, at every depth.
-/
import MemberOrder.Text.Basic
import MemberOrder.Text.Digit

namespace MemberOrder.Json

/-! ## Values -/

/-- A value with its key. Elements of arrays and the root have the empty key; scalars are known by
their text. -/
inductive Entry where
  | scalar (key text : List Char)
  | container (key : List Char) (isObject : Bool) (entries : List Entry)

mutual

/-- The same value under the same key; the order of elements counts when `ordered` says so. -/
inductive Entry.Agrees (ordered : Bool) : Entry → Entry → Prop
  | scalar (key text : List Char) : Entry.Agrees ordered (.scalar key text) (.scalar key text)
  | container (key : List Char) (isObject : Bool) {es mid es' : List Entry} (hperm : es.Perm mid)
      (hordered : isObject = false → ordered = true → es = mid) (h : EachAgrees ordered mid es') :
      Entry.Agrees ordered (.container key isObject es) (.container key isObject es')

/-- Entries in the same order that agree one by one. -/
inductive EachAgrees (ordered : Bool) : List Entry → List Entry → Prop
  | nil : EachAgrees ordered [] []
  | cons {e e' : Entry} {es es' : List Entry} (h : e.Agrees ordered e')
      (hrest : EachAgrees ordered es es') : EachAgrees ordered (e :: es) (e' :: es')

end

/-! ## Characters -/

/-- What all characters of a list satisfy is decided by going through the list. -/
instance decidableEachOf {P : Char → Prop} [DecidablePred P] (cs : List Char) :
    Decidable (∀ c ∈ cs, P c) := List.decidableBAll P cs

/-- The blanks of the grammar: space, tab and the two characters of line breaks. -/
def blanks : List Char := [' ', '\t', '\n', '\r']

/-- Nothing but blanks. -/
def Blank (cs : List Char) : Prop := ∀ c ∈ cs, c ∈ blanks

/-- The digits. -/
def digits : List Char := ['0', '1', '2', '3', '4', '5', '6', '7', '8', '9']

/-- The digits that can start a number of several digits. -/
def leadingDigits : List Char := ['1', '2', '3', '4', '5', '6', '7', '8', '9']

/-- The digits of escaped code units. -/
def hexDigits : List Char :=
  digits ++ ['a', 'b', 'c', 'd', 'e', 'f', 'A', 'B', 'C', 'D', 'E', 'F']

/-- The characters that a backslash escapes on their own. -/
def escapable : List Char := ['"', '\\', '/', 'b', 'f', 'n', 'r', 't']

/-! ## Scalars -/

/-- What can stand between the quotes of a string. -/
inductive Inside : List Char → Prop
  | nil : Inside []
  | plain {c : Char} {cs : List Char} (hcontrol : 32 ≤ c.toNat) (hquote : c ≠ '"')
      (hslash : c ≠ '\\') (h : Inside cs) : Inside (c :: cs)
  | escape {c : Char} {cs : List Char} (hc : c ∈ escapable) (h : Inside cs) :
      Inside ('\\' :: c :: cs)
  | unicode {a b c d : Char} {cs : List Char} (hhex : ∀ x ∈ [a, b, c, d], x ∈ hexDigits)
      (h : Inside cs) : Inside ('\\' :: 'u' :: a :: b :: c :: d :: cs)

/-- One digit or more. -/
def Digits (cs : List Char) : Prop := cs ≠ [] ∧ ∀ c ∈ cs, c ∈ digits

/-- The integer part of a number. -/
inductive Whole : List Char → Prop
  | zero : Whole ['0']
  | leading {c : Char} {cs : List Char} (hc : c ∈ leadingDigits) (hcs : ∀ d ∈ cs, d ∈ digits) :
      Whole (c :: cs)

/-- The fraction of a number. -/
inductive Fraction : List Char → Prop
  | none : Fraction []
  | point {cs : List Char} (h : Digits cs) : Fraction ('.' :: cs)

/-- The exponent of a number. -/
inductive Exponent : List Char → Prop
  | none : Exponent []
  | signed {c : Char} {sign cs : List Char} (hc : c ∈ ['e', 'E'])
      (hsign : sign ∈ [[], ['+'], ['-']]) (h : Digits cs) : Exponent (c :: sign ++ cs)

/-- The words that are values. -/
def words : List (List Char) :=
  [['t', 'r', 'u', 'e'], ['f', 'a', 'l', 's', 'e'], ['n', 'u', 'l', 'l']]

/-- The texts of scalars. -/
inductive Scalar : List Char → Prop
  | string {cs : List Char} (h : Inside cs) : Scalar ('"' :: cs ++ ['"'])
  | number {sign whole fraction exponent : List Char} (hsign : sign ∈ [[], ['-']])
      (hwhole : Whole whole) (hfraction : Fraction fraction) (hexponent : Exponent exponent) :
      Scalar (sign ++ (whole ++ (fraction ++ exponent)))
  | word {cs : List Char} (h : cs ∈ words) : Scalar cs

/-! ## Containers -/

/-- The opening bracket of an object or an array. -/
def opener (isObject : Bool) : Char := if isObject then '{' else '['

/-- The closing bracket of an object or an array. -/
def closer (isObject : Bool) : Char := if isObject then '}' else ']'

/-- What stands before a value: in an object its key and a colon, else nothing. -/
inductive Label : (inObject : Bool) → (key label : List Char) → Prop
  | element : Label false [] []
  | member {key a b : List Char} (hkey : Inside key) (ha : Blank a) (hb : Blank b) :
      Label true key ('"' :: key ++ '"' :: a ++ ':' :: b)

/-- Texts in a row between brackets: blanks around each, a comma after each but the last, and after
the last where that is allowed. -/
inductive Row (trailing : Bool) : List (List Char) → List Char → Prop
  | nil {a : List Char} (ha : Blank a) : Row trailing [] a
  | last {a x b : List Char} (ha : Blank a) (hb : Blank b) : Row trailing [x] (a ++ (x ++ b))
  | cons {a x b body : List Char} {xs : List (List Char)} (ha : Blank a) (hb : Blank b)
      (hxs : trailing = true ∨ xs ≠ []) (hbody : Row trailing xs body) :
      Row trailing (x :: xs) (a ++ (x ++ (b ++ ',' :: body)))

/-- The texts that spell an entry; `trailing` allows a comma after the last item of a container, and
`inObject` says whether the entry is the member of an object. -/
inductive Spells (trailing : Bool) : (inObject : Bool) → Entry → List Char → Prop
  | scalar {inObject : Bool} {key label text : List Char} (hlabel : Label inObject key label)
      (htext : Scalar text) : Spells trailing inObject (.scalar key text) (label ++ text)
  | container {inObject : Bool} {key label : List Char} (isObject : Bool)
      (items : List (Entry × List Char)) {body : List Char} (hlabel : Label inObject key label)
      (hitems : ∀ x ∈ items, Spells trailing isObject x.1 x.2)
      (hbody : Row trailing (items.map (·.2)) body) :
      Spells trailing inObject (.container key isObject (items.map (·.1)))
        (label ++ (opener isObject :: body ++ [closer isObject]))

/-- A container that stands alone can get a key and a label for it. -/
theorem Spells.relabel {trailing isObject : Bool} {es : List Entry} {value : List Char}
    (h : Spells trailing false (.container [] isObject es) value) {inObject : Bool}
    {key label : List Char} (hlabel : Label inObject key label) :
    Spells trailing inObject (.container key isObject es) (label ++ value) := by
  cases h with
  | container _ items hnone hitems hbody =>
    cases hnone
    exact .container isObject items hlabel hitems hbody

/-- The documents that spell an entry: its text between blanks. -/
def Document (trailing : Bool) (e : Entry) (cs : List Char) : Prop :=
  ∃ a text b, Blank a ∧ Blank b ∧ Spells trailing false e text ∧ cs = a ++ (text ++ b)

/-! ## Blanks -/

theorem blank_nil : Blank [] := fun _ h => absurd h List.not_mem_nil

theorem Blank.append {a b : List Char} (ha : Blank a) (hb : Blank b) : Blank (a ++ b) := by
  intro c hc
  rcases List.mem_append.mp hc with hc | hc
  · exact ha c hc
  · exact hb c hc

theorem isSpace_of_blank {c : Char} (h : c ∈ blanks) : Text.isSpace c = true := by
  have hall : ∀ c ∈ blanks, Text.isSpace c = true := by decide
  exact hall c h

/-! ## Solid texts -/

/-- A text that neither starts nor ends with white space. -/
def Solid (cs : List Char) : Prop :=
  ∃ c d, cs.head? = some c ∧ cs.getLast? = some d ∧ Text.isSpace c = false ∧ Text.isSpace d = false

theorem solid_of_all {cs : List Char} (hne : cs ≠ []) (h : ∀ c ∈ cs, Text.isSpace c = false) :
    Solid cs :=
  ⟨cs.head hne, cs.getLast hne, List.head?_eq_some_head hne, List.getLast?_eq_some_getLast hne,
    h _ (List.head_mem hne), h _ (List.getLast_mem hne)⟩

/-- Between solid texts anything may stand. -/
theorem Solid.append {cs ds : List Char} (hcs : Solid cs) (mid : List Char) (hds : Solid ds) :
    Solid (cs ++ (mid ++ ds)) := by
  obtain ⟨c, -, hhead, -, hc, -⟩ := hcs
  obtain ⟨-, d, -, hlast, -, hd⟩ := hds
  refine ⟨c, d, ?_, ?_, hc, hd⟩
  · rw [List.head?_append, hhead]
    rfl
  · rw [List.getLast?_append, List.getLast?_append, hlast]
    rfl

theorem solid_one {c : Char} (h : Text.isSpace c = false) : Solid [c] := ⟨c, c, rfl, rfl, h, h⟩

theorem solid_bracketed (isObject : Bool) (body : List Char) :
    Solid (opener isObject :: body ++ [closer isObject]) := by
  cases isObject
  · exact (solid_one (c := '[') (by decide)).append body (solid_one (by decide))
  · exact (solid_one (c := '{') (by decide)).append body (solid_one (by decide))

/-! ## Bare texts -/

/-- The characters of numbers and words. -/
def bareChars : List Char :=
  digits ++ ['+', '-', '.', 'e', 'E', 't', 'r', 'u', 'f', 'a', 'l', 's', 'n']

/-- A text of a number or a word. -/
def Bare (cs : List Char) : Prop := cs ≠ [] ∧ ∀ c ∈ cs, c ∈ bareChars

theorem mem_bareChars_of_digit {c : Char} (h : c ∈ digits) : c ∈ bareChars :=
  List.mem_append_left _ h

theorem mem_digits_of_leading {c : Char} (h : c ∈ leadingDigits) : c ∈ digits :=
  List.mem_cons_of_mem '0' h

theorem Whole.digits {cs : List Char} (h : Whole cs) : Digits cs := by
  cases h with
  | zero => exact ⟨by simp, by decide⟩
  | leading hc hcs =>
    refine ⟨List.cons_ne_nil _ _, fun d hd => ?_⟩
    rcases List.mem_cons.mp hd with rfl | hd
    · exact mem_digits_of_leading hc
    · exact hcs d hd

theorem Fraction.bare {cs : List Char} (h : Fraction cs) : ∀ c ∈ cs, c ∈ bareChars := by
  cases h with
  | none => exact fun _ h => absurd h List.not_mem_nil
  | point h =>
    intro c hc
    rcases List.mem_cons.mp hc with rfl | hc
    · decide
    · exact mem_bareChars_of_digit (h.2 c hc)

theorem Exponent.bare {cs : List Char} (h : Exponent cs) : ∀ c ∈ cs, c ∈ bareChars := by
  cases h with
  | none => exact fun _ h => absurd h List.not_mem_nil
  | signed hmark hsign h =>
    rename_i mark sign cs
    intro c hc
    rcases List.mem_append.mp hc with hc | hc
    · have hmarks : ∀ m ∈ ['e', 'E'], m ∈ bareChars := by decide
      have hsigns : ∀ s ∈ [[], ['+'], ['-']], ∀ c ∈ s, c ∈ bareChars := by decide
      rcases List.mem_cons.mp hc with rfl | hc
      · exact hmarks c hmark
      · exact hsigns sign hsign c hc
    · exact mem_bareChars_of_digit (h.2 c hc)

/-- A scalar is a string or bare. -/
theorem Scalar.cases_bare {cs : List Char} (h : Scalar cs) :
    (∃ inside, Inside inside ∧ cs = '"' :: inside ++ ['"']) ∨ Bare cs := by
  cases h with
  | string h => exact Or.inl ⟨_, h, rfl⟩
  | word h =>
    have hall : ∀ cs ∈ words, cs ≠ [] ∧ ∀ c ∈ cs, c ∈ bareChars := by decide
    exact Or.inr (hall cs h)
  | number hsign hwhole hfraction hexponent =>
    have hsigns : ∀ s ∈ [[], ['-']], ∀ c ∈ s, c ∈ bareChars := by decide
    refine Or.inr ⟨fun h => hwhole.digits.1 ?_, fun c hc => ?_⟩
    · exact (List.append_eq_nil_iff.mp (List.append_eq_nil_iff.mp h).2).1
    · rcases List.mem_append.mp hc with hc | hc
      · exact hsigns _ hsign c hc
      · rcases List.mem_append.mp hc with hc | hc
        · exact mem_bareChars_of_digit (hwhole.digits.2 c hc)
        · rcases List.mem_append.mp hc with hc | hc
          · exact hfraction.bare c hc
          · exact hexponent.bare c hc

theorem solid_quoted (inside : List Char) : Solid ('"' :: inside ++ ['"']) :=
  (solid_one (c := '"') (by decide)).append inside (solid_one (by decide))

theorem Scalar.solid {cs : List Char} (h : Scalar cs) : Solid cs := by
  obtain ⟨inside, -, rfl⟩ | hbare := h.cases_bare
  · exact solid_quoted inside
  · have hall : ∀ c ∈ bareChars, Text.isSpace c = false := by decide
    exact solid_of_all hbare.1 fun c hc => hall c (hbare.2 c hc)

/-- What follows a label decides how the text ends. -/
theorem Label.solid {inObject : Bool} {key label text : List Char} (h : Label inObject key label)
    (htext : Solid text) : Solid (label ++ text) := by
  cases h with
  | element => exact htext
  | member hkey ha hb =>
    rename_i a b
    have hassoc : '"' :: key ++ '"' :: a ++ ':' :: b ++ text =
        ['"'] ++ ((key ++ '"' :: a ++ ':' :: b) ++ text) := by simp
    rw [hassoc]
    exact (solid_one (by decide)).append _ htext

/-- The text of an entry neither starts nor ends with white space. -/
theorem Spells.solid {trailing inObject : Bool} {e : Entry} {cs : List Char}
    (h : Spells trailing inObject e cs) : Solid cs := by
  cases h with
  | scalar hlabel htext => exact hlabel.solid htext.solid
  | container isObject items hlabel hitems hbody => exact hlabel.solid (solid_bracketed isObject _)

end MemberOrder.Json

/-!
## The language that the JSON reader accepts

It is wider than that of the interchange format: any white space separates, digits may be of any
script, a comma may follow the last member, and in a string all characters stand for themselves but a
line feed, and a backslash escapes whatever follows it. `Derives` says which texts start with a
value, a member or the members of a container, and what follows them there. It does so for any
notion of a string, because the reader sees the text with the insides of strings masked: when two
texts agree but for their strings, what is derived from one is derived from the other (`Derives.along`).
-/

namespace MemberOrder.Json

/-! ## Numbers -/

/-- One digit of any script or more. -/
def Decimals (cs : List Char) : Prop := cs ≠ [] ∧ ∀ c ∈ cs, Text.isDecimal c = true

/-- Integer parts: a zero, or digits of which the first is none. -/
inductive IntegerPart : List Char → Prop
  | zero : IntegerPart ['0']
  | leading {c : Char} {cs : List Char} (hc : c ∈ leadingDigits)
      (hcs : ∀ d ∈ cs, Text.isDecimal d = true) : IntegerPart (c :: cs)

/-- Fractions, which may be missing. -/
inductive FractionPart : List Char → Prop
  | none : FractionPart []
  | point {cs : List Char} (h : Decimals cs) : FractionPart ('.' :: cs)

/-- Exponents, which may be missing. -/
inductive ExponentPart : List Char → Prop
  | none : ExponentPart []
  | signed {c : Char} {sign cs : List Char} (hc : c ∈ ['e', 'E']) (hsign : sign ∈ [[], ['+'], ['-']])
      (h : Decimals cs) : ExponentPart (c :: sign ++ cs)

/-- The texts of numbers. -/
inductive Numeral : List Char → Prop
  | parts {sign whole fraction exponent : List Char} (hsign : sign ∈ [[], ['-']])
      (hwhole : IntegerPart whole) (hfraction : FractionPart fraction)
      (hexponent : ExponentPart exponent) : Numeral (sign ++ (whole ++ (fraction ++ exponent)))

/-- The texts of numbers and words. -/
def Plain (cs : List Char) : Prop := Numeral cs ∨ cs ∈ words

/-! ## Strings -/

/-- Characters and escapes: a backslash takes the character after it along, and neither a quote nor a
line feed stands on its own. -/
inductive Escaped : List Char → Prop
  | nil : Escaped []
  | plain {c : Char} {cs : List Char} (hc : c ∉ ['"', '\\', '\n']) (h : Escaped cs) :
      Escaped (c :: cs)
  | escape {c : Char} {cs : List Char} (h : Escaped cs) : Escaped ('\\' :: c :: cs)

/-- What a text starts with, and what follows it there. -/
abbrev Front := List Char → List Char → Prop

/-- A string: a quote, characters and escapes on one line, and a quote that is not escaped. -/
def Quoted : Front := fun cs rest =>
  ∃ u, Escaped u ∧ '\n' ∉ u ∧ cs = '"' :: (u ++ '"' :: rest)

/-- A string that its line cuts off right after an escaped quote. -/
def CutOff : Front := fun cs rest =>
  ∃ u, Escaped u ∧ '\n' ∉ u ∧ (∀ c, rest.head? = some c → c = '\n') ∧
    cs = '"' :: (u ++ '\\' :: '"' :: rest)

/-- What the reader takes for a string: with the inside masked, a quote at the end of a literal closes it,
escaped or not. -/
def Taken : Front := fun cs rest => Quoted cs rest ∨ CutOff cs rest

/-! ## Values -/

/-- White space. -/
def Spaces : Front := fun cs rest => ∃ a, (∀ c ∈ a, Text.isSpace c = true) ∧ cs = a ++ rest

/-- The parts of a document that nest. -/
inductive Part where
  | value
  /-- A member of an object or an element of an array. -/
  | member (isObject : Bool)
  /-- What stands between the brackets of a container. -/
  | members (isObject : Bool)

/-- Texts that start with a part, given what strings are. A comma stands between two members and may
stand behind the last one. -/
inductive Derives (string : Front) : Part → Front
  | string {cs rest : List Char} (h : string cs rest) : Derives string .value cs rest
  | plain {x rest : List Char} (h : Plain x) : Derives string .value (x ++ rest) rest
  | container (isObject : Bool) {cs rest : List Char}
      (h : Derives string (.members isObject) cs (closer isObject :: rest)) :
      Derives string .value (opener isObject :: cs) rest
  | element {cs rest : List Char} (h : Derives string .value cs rest) :
      Derives string (.member false) cs rest
  | named {cs a b c rest : List Char} (hname : string cs a) (ha : Spaces a (':' :: b))
      (hb : Spaces b c) (h : Derives string .value c rest) : Derives string (.member true) cs rest
  | none {isObject : Bool} {cs rest : List Char} (h : Spaces cs rest) :
      Derives string (.members isObject) cs rest
  | last {isObject : Bool} {cs a b rest : List Char} (ha : Spaces cs a)
      (h : Derives string (.member isObject) a b) (hb : Spaces b rest) :
      Derives string (.members isObject) cs rest
  | more {isObject : Bool} {cs a b c rest : List Char} (ha : Spaces cs a)
      (h : Derives string (.member isObject) a b) (hb : Spaces b (',' :: c))
      (hmore : Derives string (.members isObject) c rest) : Derives string (.members isObject) cs rest

/-- The documents: an object or an array between white space. -/
def Accepted (string : Front) (cs : List Char) : Prop :=
  ∃ isObject a b, Spaces cs (opener isObject :: a) ∧
    Derives string (.members isObject) a (closer isObject :: b) ∧ Spaces b []

/-! ## Spaces -/

theorem spaces_self (cs : List Char) : Spaces cs cs :=
  ⟨[], fun _ h => absurd h List.not_mem_nil, rfl⟩

theorem Spaces.trans {a b c : List Char} (h : Spaces a b) (h' : Spaces b c) : Spaces a c := by
  obtain ⟨x, hx, rfl⟩ := h
  obtain ⟨y, hy, rfl⟩ := h'
  refine ⟨x ++ y, fun c hc => ?_, (List.append_assoc x y c).symm⟩
  exact (List.mem_append.mp hc).elim (hx c) (hy c)

/-- White space in front of the members of a container counts as theirs. -/
theorem Derives.spaces {string : Front} {isObject : Bool} {cs a rest : List Char} (h : Spaces cs a)
    (hmembers : Derives string (.members isObject) a rest) :
    Derives string (.members isObject) cs rest := by
  cases hmembers with
  | none hspaced => exact .none (h.trans hspaced)
  | last ha hmember hb => exact .last (h.trans ha) hmember hb
  | more ha hmember hb hmore => exact .more (h.trans ha) hmember hb hmore

/-! ## The characters of numbers and words -/

/-- The characters of numbers and words that are no digits. -/
def plainMarks : List Char :=
  ['-', '+', '.', 'E', 't', 'r', 'u', 'e', 'f', 'a', 'l', 's', 'n']

theorem isDecimal_of_leading {c : Char} (h : c ∈ leadingDigits) : Text.isDecimal c = true := by
  have hall : ∀ c ∈ leadingDigits, Text.isDecimal c = true := by decide
  exact hall c h

theorem IntegerPart.decimals {cs : List Char} (h : IntegerPart cs) : Decimals cs := by
  cases h with
  | zero => exact ⟨List.cons_ne_nil _ _, by decide⟩
  | leading hc hcs =>
    exact ⟨List.cons_ne_nil _ _, List.forall_mem_cons.mpr ⟨isDecimal_of_leading hc, hcs⟩⟩

theorem FractionPart.chars {cs : List Char} (h : FractionPart cs) :
    ∀ c ∈ cs, Text.isDecimal c = true ∨ c ∈ plainMarks := by
  cases h with
  | none => exact fun _ hc => absurd hc List.not_mem_nil
  | point hdigits => exact List.forall_mem_cons.mpr ⟨.inr (by decide), fun c hc => .inl (hdigits.2 c hc)⟩

theorem ExponentPart.chars {cs : List Char} (h : ExponentPart cs) :
    ∀ c ∈ cs, Text.isDecimal c = true ∨ c ∈ plainMarks := by
  cases h with
  | none => exact fun _ hc => absurd hc List.not_mem_nil
  | signed hmark hsign hdigits =>
    have hmarks : ∀ c ∈ ['e', 'E'], c ∈ plainMarks := by decide
    have hsigns : ∀ s ∈ [([] : List Char), ['+'], ['-']], ∀ c ∈ s, c ∈ plainMarks := by decide
    intro c hc
    rcases List.mem_append.mp hc with hc | hc
    · rcases List.mem_cons.mp hc with rfl | hc
      · exact .inr (hmarks _ hmark)
      · exact .inr (hsigns _ hsign c hc)
    · exact .inl (hdigits.2 c hc)

/-- Numbers and words are not empty, and made of digits and a few marks. -/
theorem Plain.chars {cs : List Char} (h : Plain cs) :
    cs ≠ [] ∧ ∀ c ∈ cs, Text.isDecimal c = true ∨ c ∈ plainMarks := by
  rcases h with h | h
  · cases h with
    | parts hsign hwhole hfraction hexponent =>
      have hsigns : ∀ s ∈ [([] : List Char), ['-']], ∀ c ∈ s, c ∈ plainMarks := by decide
      refine ⟨fun hnil => hwhole.decimals.1 ?_, fun c hc => ?_⟩
      · exact (List.append_eq_nil_iff.mp (List.append_eq_nil_iff.mp hnil).2).1
      · rcases List.mem_append.mp hc with hc | hc
        · exact .inr (hsigns _ hsign c hc)
        rcases List.mem_append.mp hc with hc | hc
        · exact .inl (hwhole.decimals.2 c hc)
        · exact (List.mem_append.mp hc).elim (hfraction.chars c) (hexponent.chars c)
  · have hall : ∀ cs ∈ words, cs ≠ [] ∧ ∀ c ∈ cs, c ∈ plainMarks := by decide
    exact ⟨(hall cs h).1, fun c hc => .inr ((hall cs h).2 c hc)⟩

/-- A test that no digit and none of the marks passes is passed by no character of a number or word. -/
theorem Plain.not_mem {cs : List Char} (h : Plain cs) {d : Char} (hd : Text.isDecimal d = false)
    (hmarks : d ∉ plainMarks) : d ∉ cs := by
  intro hmem
  rcases h.chars.2 d hmem with hdecimal | hmark
  · rw [hd] at hdecimal
    cases hdecimal
  · exact hmarks hmark

/-! ## Texts that agree but for their strings -/

section Along

variable {string other : Front} {R : List Char → List Char → Prop}

/-- A relation of texts that go on with the same characters up to the next quote. -/
def SameCode (R : List Char → List Char → Prop) : Prop :=
  ∀ c cs ms, c ≠ '"' → R (c :: cs) ms → ∃ ms', ms = c :: ms' ∧ R cs ms'

theorem SameCode.append (hR : SameCode R) {x cs ms : List Char} (hx : '"' ∉ x) (h : R (x ++ cs) ms) :
    ∃ ms', ms = x ++ ms' ∧ R cs ms' := by
  induction x generalizing ms with
  | nil => exact ⟨ms, rfl, h⟩
  | cons c rest ih =>
    obtain ⟨hc, hrest⟩ := not_or.mp (mt List.mem_cons.mpr hx)
    obtain ⟨ms', rfl, h'⟩ := hR c _ ms (fun heq => hc heq.symm) h
    obtain ⟨ms'', rfl, h''⟩ := ih hrest h'
    exact ⟨ms'', rfl, h''⟩

theorem SameCode.spaces (hR : SameCode R) {cs rest ms : List Char} (h : Spaces cs rest) (hcs : R cs ms) :
    ∃ ms', R rest ms' ∧ Spaces ms ms' := by
  obtain ⟨a, ha, rfl⟩ := h
  have hquote : '"' ∉ a := fun hmem => absurd (ha _ hmem) (by decide)
  obtain ⟨ms', rfl, h'⟩ := hR.append hquote hcs
  exact ⟨ms', h', a, ha, rfl⟩

/-- What a text derives, every text derives that agrees with it up to the next quote each time and has a
string where it has one. -/
theorem Derives.along (hR : SameCode R)
    (hstring : ∀ cs rest ms, string cs rest → R cs ms → ∃ ms', R rest ms' ∧ other ms ms')
    {part : Part} {cs rest : List Char} (h : Derives string part cs rest) :
    ∀ ms, R cs ms → ∃ ms', R rest ms' ∧ Derives other part ms ms' := by
  -- a bracket, a colon or a comma is the same in both
  have hcode {c : Char} {cs ms : List Char} (hc : c ≠ '"') (h : R (c :: cs) ms) := hR c cs ms hc h
  have hbrackets : ∀ isObject, opener isObject ≠ '"' ∧ closer isObject ≠ '"' := by decide
  induction h with
  | string h =>
    intro ms hms
    obtain ⟨ms', h', hs⟩ := hstring _ _ ms h hms
    exact ⟨ms', h', .string hs⟩
  | plain hx =>
    intro ms hms
    obtain ⟨ms', rfl, h'⟩ := hR.append (hx.not_mem (by decide) (by decide)) hms
    exact ⟨ms', h', .plain hx⟩
  | container isObject _ ih =>
    intro ms hms
    obtain ⟨inner, rfl, hinner⟩ := hcode (hbrackets isObject).1 hms
    obtain ⟨after, hafter, hmembers⟩ := ih inner hinner
    obtain ⟨ms', rfl, h'⟩ := hcode (hbrackets isObject).2 hafter
    exact ⟨ms', h', .container isObject hmembers⟩
  | element _ ih =>
    intro ms hms
    obtain ⟨ms', h', hvalue⟩ := ih ms hms
    exact ⟨ms', h', .element hvalue⟩
  | named hname ha hb _ ih =>
    intro ms hms
    obtain ⟨a, hRa, hname'⟩ := hstring _ _ ms hname hms
    obtain ⟨b, hRb, ha'⟩ := hR.spaces ha hRa
    obtain ⟨b, rfl, hRafter⟩ := hcode (by decide) hRb
    obtain ⟨c, hRc, hb'⟩ := hR.spaces hb hRafter
    obtain ⟨ms', h', hvalue⟩ := ih c hRc
    exact ⟨ms', h', .named hname' ha' hb' hvalue⟩
  | none hspaced =>
    intro ms hms
    obtain ⟨ms', h', hspaced'⟩ := hR.spaces hspaced hms
    exact ⟨ms', h', .none hspaced'⟩
  | last ha _ hb ih =>
    intro ms hms
    obtain ⟨a, hRa, ha'⟩ := hR.spaces ha hms
    obtain ⟨b, hRb, hmember⟩ := ih a hRa
    obtain ⟨ms', h', hb'⟩ := hR.spaces hb hRb
    exact ⟨ms', h', .last ha' hmember hb'⟩
  | more ha _ hb _ ih ihmore =>
    intro ms hms
    obtain ⟨a, hRa, ha'⟩ := hR.spaces ha hms
    obtain ⟨b, hRb, hmember⟩ := ih a hRa
    obtain ⟨c, hRc, hb'⟩ := hR.spaces hb hRb
    obtain ⟨c, rfl, hRafter⟩ := hcode (by decide) hRc
    obtain ⟨ms', h', hmore⟩ := ihmore c hRafter
    exact ⟨ms', h', .more ha' hmember hb' hmore⟩

/-- The same for documents. -/
theorem Accepted.along (hR : SameCode R) (hnil : ∀ ms, R [] ms → ms = [])
    (hstring : ∀ cs rest ms, string cs rest → R cs ms → ∃ ms', R rest ms' ∧ other ms ms')
    {cs ms : List Char} (h : Accepted string cs) (hms : R cs ms) : Accepted other ms := by
  obtain ⟨isObject, a, b, ha, hmembers, hb⟩ := h
  have hbrackets : ∀ isObject, opener isObject ≠ '"' ∧ closer isObject ≠ '"' := by decide
  obtain ⟨a', hRa, ha'⟩ := hR.spaces ha hms
  obtain ⟨inner, rfl, hinner⟩ := hR _ _ _ (hbrackets isObject).1 hRa
  obtain ⟨b', hRb, hmembers'⟩ := hmembers.along hR hstring inner hinner
  obtain ⟨after, rfl, hafter⟩ := hR _ _ _ (hbrackets isObject).2 hRb
  obtain ⟨e, hRe, hb'⟩ := hR.spaces hb hafter
  rw [hnil e hRe] at hb'
  exact ⟨isObject, inner, after, ha', hmembers', hb'⟩

end Along

end MemberOrder.Json
