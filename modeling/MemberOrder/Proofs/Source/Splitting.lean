/-
  Splitting a body into segments, on character lists.

  The bodies of scripts and structs are split by machines of one kind (`Splitter`, `cut`): a segment runs
  from its first code up to a separator outside of brackets, or up to the end of a line that does not go
  on. What is cut out of a text is `Whole`: read on its own or after anything else, it does not end
  inside (`Whole.cut_none`, `Whole.cut_some`). Texts that are put together of whole members with blank
  characters in between are split into no more segments than there are members, and into as many exactly
  if each two members are parted (`length_cut`).
-/
import Mathlib.Data.List.Induction
import MemberOrder.Proofs.Text.Offsets
import MemberOrder.Script.Members

namespace MemberOrder

/-- How the bodies of a language are split. -/
structure Splitter where
  /-- The characters that end a segment. -/
  separators : List Char
  /-- Whether angle brackets nest. -/
  angles : Bool
  /-- Whether the end of a line ends a segment. -/
  breaks : Bool
  /-- Whether a line may go on. -/
  goesOn : Bool

namespace Splitter

/-- Whether a character opens a bracket. -/
def opens (c : Char) : Bool := c == '(' || c == '[' || c == '{'

/-- Whether a character closes a bracket. -/
def closes (c : Char) : Bool := c == ')' || c == ']' || c == '}'

/-- A segment as far as it is read: where it starts and its code stops, how many brackets are open, the
character before, and whether its code ends like that of a line that goes on. -/
structure Held where
  start : Nat
  stop : Nat
  depth : Nat := 0
  angle : Nat := 0
  last : Char := ' '
  isOpen : Bool := false

/-- Reads the character at `i`. -/
def Held.read (p : Splitter) (h : Held) (i : Nat) (c : Char) : Held where
  start := h.start
  stop := if Text.isSpace c then h.stop else i + 1
  depth := if opens c then h.depth + 1 else if closes c then h.depth - 1 else h.depth
  angle :=
    if p.angles && c == '<' then h.angle + 1
    else if p.angles && c == '>' && decide (0 < h.angle) && h.last != '=' then h.angle - 1
    else h.angle
  last := c
  isOpen :=
    if Text.isSpace c then h.isOpen
    else Script.continuesAfter.contains c || c == '>' && h.last == '='

/-- A segment that starts with the character at `i`. -/
def Held.enter (p : Splitter) (i : Nat) (c : Char) : Held := ({ start := i, stop := i } : Held).read p i c

/-- Reads the characters from `i` on. -/
def Held.readAll (p : Splitter) (h : Held) : (i : Nat) → List Char → Held
  | _, [] => h
  | i, c :: rest => (h.read p i c).readAll p (i + 1) rest

/-- Whether a segment ends before a character, given the first code after it. -/
def Held.ends (p : Splitter) (h : Held) (c : Char) (next : Option Char) : Bool :=
  h.depth == 0 && h.angle == 0 && (p.separators.contains c ||
    (p.breaks && c == '\n' && !(p.goesOn && (h.isOpen || next.any Script.continuesWith.contains))))

/-- The first code of some characters, and of what follows them. -/
def firstCode (cs : List Char) (next : Option Char) : Option Char :=
  cs.find? (!Text.isSpace ·) <|> next

/-- The segments of characters from `i` on, the first of which may have started before; `next` is the
first code after them. -/
def cut (p : Splitter) (next : Option Char) : (i : Nat) → Option Held → List Char → List (Nat × Nat)
  | _, none, [] => []
  | _, some h, [] => [(h.start, h.stop)]
  | i, none, c :: rest =>
    if Text.isSpace c || p.separators.contains c then cut p next (i + 1) none rest
    else cut p next (i + 1) (some (Held.enter p i c)) rest
  | i, some h, c :: rest =>
    if h.ends p c (firstCode rest next) then (h.start, h.stop) :: cut p next (i + 1) none rest
    else cut p next (i + 1) (some (h.read p i c)) rest

/-- Nothing but white space and separators. -/
def Blank (p : Splitter) (cs : List Char) : Prop :=
  ∀ c ∈ cs, Text.isSpace c = true ∨ p.separators.contains c = true

variable {p : Splitter} {next : Option Char} {i j : Nat} {h h' : Held} {cs ds : List Char}

theorem firstCode_append (cs ds : List Char) (next : Option Char) :
    firstCode (cs ++ ds) next = firstCode cs (firstCode ds next) := by
  unfold firstCode
  rw [List.find?_append]
  cases cs.find? (!Text.isSpace ·) <;> rfl

theorem firstCode_of_mem {c : Char} (hc : c ∈ cs) (hcode : Text.isSpace c = false) (next next' : Option Char) :
    firstCode cs next = firstCode cs next' := by
  have hsome : (cs.find? (!Text.isSpace ·)).isSome = true := by
    rw [List.find?_isSome]
    exact ⟨c, hc, by simp [hcode]⟩
  obtain ⟨d, hd⟩ := Option.isSome_iff_exists.mp hsome
  simp only [firstCode, hd]
  rfl

/-! ## Segments that go on -/

/-- A segment does not end while characters are read. -/
def Stays (p : Splitter) (next : Option Char) (h : Held) : (i : Nat) → List Char → Prop
  | _, [] => True
  | i, c :: rest => h.ends p c (firstCode rest next) = false ∧ Stays p next (h.read p i c) (i + 1) rest

theorem cut_append_of_stays (hs : Stays p (firstCode ds next) h i cs) :
    cut p next i (some h) (cs ++ ds) = cut p next (i + cs.length) (some (h.readAll p i cs)) ds := by
  induction cs generalizing h i with
  | nil => rfl
  | cons c rest ih =>
    obtain ⟨hends, hrest⟩ := hs
    rw [← firstCode_append] at hends
    rw [List.cons_append, cut, hends, if_neg Bool.false_ne_true, ih hrest, Held.readAll,
      List.length_cons, Nat.add_assoc, Nat.add_comm 1]

theorem stays_append : Stays p next h i (cs ++ ds) ↔
    Stays p (firstCode ds next) h i cs ∧ Stays p next (h.readAll p i cs) (i + cs.length) ds := by
  induction cs generalizing h i with
  | nil => simp [Stays, Held.readAll]
  | cons c rest ih =>
    rw [List.cons_append, Stays, ih, Stays, firstCode_append, Held.readAll, List.length_cons, and_assoc,
      Nat.add_assoc, Nat.add_comm 1]

theorem start_readAll : (h.readAll p i cs).start = h.start := by
  induction cs generalizing h i with
  | nil => rfl
  | cons c rest ih => exact ih

theorem readAll_append : h.readAll p i (cs ++ ds) = (h.readAll p i cs).readAll p (i + cs.length) ds := by
  induction cs generalizing h i with
  | nil => rfl
  | cons c rest ih =>
    rw [List.cons_append, Held.readAll, ih, Held.readAll, List.length_cons, Nat.add_assoc, Nat.add_comm 1]

/-- What comes after some characters does not matter to a segment that goes on through them, as they end
with code. -/
theorem Stays.congr (hs : Stays p next h i cs) (hlast : ∀ c ∈ cs.getLast?, Text.isSpace c = false)
    (next' : Option Char) : Stays p next' h i cs := by
  induction cs generalizing h i with
  | nil => exact trivial
  | cons c rest ih =>
    obtain ⟨hends, hrest⟩ := hs
    cases rest with
    | nil =>
      refine ⟨?_, trivial⟩
      -- the last character is code, and so no line feed
      have hcode := hlast c rfl
      have hfeed : (c == '\n') = false := by
        rw [beq_eq_false_iff_ne]
        rintro rfl
        cases hcode
      simpa [Held.ends, hfeed] using hends
    | cons d more =>
      rw [List.getLast?_cons_cons] at hlast
      obtain ⟨e, he⟩ : ∃ e, (d :: more).getLast? = some e :=
        ⟨_, List.getLast?_eq_some_getLast (List.cons_ne_nil d more)⟩
      refine ⟨?_, ih hrest hlast⟩
      rwa [firstCode_of_mem (List.mem_of_getLast? he) (hlast e he) next' next]

/-! ## Deeper segments -/

/-- One segment is inside of more brackets than another one, which reads the same characters. -/
structure Held.Le (h h' : Held) : Prop where
  depth : h.depth ≤ h'.depth
  angle : h.angle ≤ h'.angle
  isOpen : h.isOpen = true → h'.isOpen = true
  last : h.last = h'.last

theorem Held.Le.ends (hle : h.Le h') {c : Char} (hends : h.ends p c next = false) :
    h'.ends p c next = false := by
  rw [Bool.eq_false_iff] at hends ⊢
  refine fun hends' => hends ?_
  simp only [Held.ends, Bool.and_eq_true, Bool.or_eq_true, beq_iff_eq, Bool.not_eq_true',
    Bool.and_eq_false_iff, Bool.or_eq_false_iff] at hends' ⊢
  obtain ⟨⟨hdepth, hangle⟩, hchar⟩ := hends'
  have := hle.depth
  have := hle.angle
  refine ⟨⟨by omega, by omega⟩, hchar.imp_right fun ⟨hbreak, hline⟩ => ⟨hbreak, hline.imp_right ?_⟩⟩
  refine fun ⟨hopen, hnext⟩ => ⟨?_, hnext⟩
  cases hclosed : h.isOpen with
  | false => rfl
  | true => rw [hle.isOpen hclosed] at hopen; cases hopen

theorem Held.Le.read (hle : h.Le h') (i j : Nat) (c : Char) : (h.read p i c).Le (h'.read p j c) := by
  have hdepth := hle.depth
  have hangle := hle.angle
  refine ⟨?_, ?_, ?_, rfl⟩
  · simp only [Held.read]
    split
    · omega
    · split <;> omega
  · simp only [Held.read, hle.last]
    split
    · omega
    · split
      · rename_i hclose
        split
        · omega
        · rename_i hkeep
          simp only [Bool.and_eq_true, decide_eq_true_eq] at hclose hkeep
          have : ¬0 < h'.angle := fun hpos => hkeep ⟨⟨hclose.1.1, hpos⟩, hclose.2⟩
          omega
      · rename_i hkeep
        split
        · rename_i hclose
          simp only [Bool.and_eq_true, decide_eq_true_eq] at hclose hkeep
          have : ¬0 < h.angle := fun hpos => hkeep ⟨⟨hclose.1.1, hpos⟩, hclose.2⟩
          omega
        · omega
  · simp only [Held.read, hle.last]
    split
    · exact hle.isOpen
    · exact id

theorem Stays.mono (hle : h.Le h') (hs : Stays p next h i cs) : Stays p next h' j cs := by
  induction cs generalizing h h' i j with
  | nil => exact trivial
  | cons c rest ih => exact ⟨hle.ends hs.1, ih (hle.read i j c) hs.2⟩

/-- A segment that starts with a character is inside of fewer brackets than one that goes on with it. -/
theorem enter_le_read (h : Held) (i j : Nat) (c : Char) : (Held.enter p i c).Le (h.read p j c) := by
  refine ⟨?_, ?_, ?_, rfl⟩
  · simp only [Held.enter, Held.read]
    split
    · omega
    · split <;> omega
  · simp only [Held.enter, Held.read]
    split
    · omega
    · rw [if_neg (by simp)]
      exact Nat.zero_le _
  · simp only [Held.enter, Held.read]
    split
    · exact nofun
    · simp only [Bool.or_eq_true, Bool.and_eq_true, beq_iff_eq]
      rintro (hafter | ⟨-, hlast⟩)
      · exact Or.inl hafter
      · cases hlast

theorem Held.Le.readAll (hle : h.Le h') (i j : Nat) (cs : List Char) :
    (h.readAll p i cs).Le (h'.readAll p j cs) := by
  induction cs generalizing h h' i j with
  | nil => exact hle
  | cons c rest ih => exact ih (hle.read i j c) _ _

/-! ## Whole members -/

/-- What is held of characters that are read from `i` on. -/
def heldOf (p : Splitter) (i : Nat) : List Char → Held
  | [] => { start := i, stop := i }
  | c :: rest => (Held.enter p i c).readAll p (i + 1) rest

/-- Characters that start and end with code and stay one segment, whatever follows them. -/
def Whole (p : Splitter) : List Char → Prop
  | [] => False
  | c :: rest => Text.isSpace c = false ∧ p.separators.contains c = false ∧
      (∀ d ∈ (c :: rest).getLast?, Text.isSpace d = false) ∧
      ∀ next, Stays p next (Held.enter p 0 c) 1 rest

/-- Whether all brackets are closed. -/
def closed (p : Splitter) (cs : List Char) : Bool :=
  (heldOf p 0 cs).depth == 0 && (heldOf p 0 cs).angle == 0

/-- Whether a line goes on after some characters. -/
def endsOpen (p : Splitter) (cs : List Char) : Bool := (heldOf p 0 cs).isOpen

/-- What is held of characters does not depend on where they stand, but for their place. -/
theorem heldOf_like (p : Splitter) (i j : Nat) (cs : List Char) : (heldOf p i cs).Le (heldOf p j cs) := by
  cases cs with
  | nil => exact ⟨Nat.le_refl _, Nat.le_refl _, id, rfl⟩
  | cons c rest => exact (enter_le_read _ i j c).readAll _ _ rest

theorem closed_heldOf (i : Nat) (cs : List Char) :
    ((heldOf p i cs).depth == 0 && (heldOf p i cs).angle == 0) = closed p cs := by
  have h1 := heldOf_like p i 0 cs
  have h2 := heldOf_like p 0 i cs
  rw [closed, Nat.le_antisymm h1.depth h2.depth, Nat.le_antisymm h1.angle h2.angle]

theorem isOpen_heldOf (i : Nat) (cs : List Char) : (heldOf p i cs).isOpen = endsOpen p cs :=
  Bool.eq_iff_iff.mpr ⟨(heldOf_like p i 0 cs).isOpen, (heldOf_like p 0 i cs).isOpen⟩

/-- A whole member is read as the start of a segment. -/
theorem Whole.cut_none (hw : Whole p cs) :
    cut p next i none (cs ++ ds) = cut p next (i + cs.length) (some (heldOf p i cs)) ds := by
  cases cs with
  | nil => exact hw.elim
  | cons c rest =>
    obtain ⟨hspace, hsep, -, hstays⟩ := hw
    have henter : Stays p (firstCode ds next) (Held.enter p i c) (i + 1) rest :=
      (hstays _).mono (enter_le_read _ 0 i c)
    rw [List.cons_append, cut, hspace, hsep, Bool.false_or, if_neg Bool.false_ne_true,
      cut_append_of_stays henter, heldOf, List.length_cons, Nat.add_assoc, Nat.add_comm 1]

/-- A segment does not end before code that is no separator. -/
theorem Held.ends_of_code {c : Char} (hspace : Text.isSpace c = false)
    (hsep : p.separators.contains c = false) : h.ends p c next = false := by
  have hfeed : (c == '\n') = false := by
    rw [beq_eq_false_iff_ne]
    rintro rfl
    cases hspace
  rw [Held.ends, hsep, hfeed, Bool.and_false, Bool.false_and, Bool.or_false, Bool.and_false]

/-- A segment that has not ended goes on through a whole member. -/
theorem Whole.cut_some (hw : Whole p cs) : cut p next i (some h) (cs ++ ds) =
    cut p next (i + cs.length) (some (h.readAll p i cs)) ds := by
  cases cs with
  | nil => exact hw.elim
  | cons c rest =>
    obtain ⟨hspace, hsep, -, hstays⟩ := hw
    exact cut_append_of_stays
      ⟨Held.ends_of_code hspace hsep, (hstays _).mono (enter_le_read h 0 i c)⟩

/-! ## Between members -/

theorem cut_none_blank (hblank : Blank p cs) :
    cut p next i none (cs ++ ds) = cut p next (i + cs.length) none ds := by
  induction cs generalizing i with
  | nil => rfl
  | cons c rest ih =>
    obtain ⟨hc, hrest⟩ := List.forall_mem_cons.mp hblank
    rw [List.cons_append, cut, if_pos (by simpa using hc), ih hrest, List.length_cons, Nat.add_assoc,
      Nat.add_comm 1]

/-- The separators are those of the languages. -/
def Fair (p : Splitter) : Prop := ∀ c ∈ p.separators, c = ',' ∨ c = ';'

/-- Neither white space nor separators open or close a bracket. -/
theorem plain_of_blank (hfair : p.Fair) {c : Char}
    (hc : Text.isSpace c = true ∨ p.separators.contains c = true) :
    opens c = false ∧ closes c = false ∧ c ≠ '<' ∧ c ≠ '>' := by
  have hnot : ∀ d, Text.isSpace d = false → d ≠ ',' → d ≠ ';' → c ≠ d := by
    rintro d hspace hcomma hsemi rfl
    rcases hc with hc | hc
    · rw [hspace] at hc
      cases hc
    · exact (hfair c (List.contains_iff_mem.mp hc)).elim hcomma hsemi
  refine ⟨?_, ?_, hnot '<' rfl (by decide) (by decide), hnot '>' rfl (by decide) (by decide)⟩
  · simp only [opens, Bool.or_eq_false_iff, beq_eq_false_iff_ne]
    exact ⟨⟨hnot _ rfl (by decide) (by decide), hnot _ rfl (by decide) (by decide)⟩,
      hnot _ rfl (by decide) (by decide)⟩
  · simp only [closes, Bool.or_eq_false_iff, beq_eq_false_iff_ne]
    exact ⟨⟨hnot _ rfl (by decide) (by decide), hnot _ rfl (by decide) (by decide)⟩,
      hnot _ rfl (by decide) (by decide)⟩

theorem read_blank (hfair : p.Fair) {c : Char}
    (hc : Text.isSpace c = true ∨ p.separators.contains c = true) :
    (h.read p i c).depth = h.depth ∧ (h.read p i c).angle = h.angle := by
  obtain ⟨hopens, hcloses, hlt, hgt⟩ := plain_of_blank hfair hc
  simp [Held.read, hopens, hcloses, hlt, hgt]

/-- Whether blank characters end a segment: a separator does, and the end of a line that does not go on. -/
def Held.endsIn (p : Splitter) (h : Held) (blank : List Char) (next : Option Char) : Bool :=
  h.depth == 0 && h.angle == 0 && (blank.any p.separators.contains ||
    (p.breaks && blank.contains '\n' &&
      !(p.goesOn && (h.isOpen || next.any Script.continuesWith.contains))))

/-- A line goes on after blank characters if it does with what follows, unless there is a separator. -/
theorem continues_firstCode (hfair : p.Fair) (hblank : Blank p cs) (next : Option Char) :
    (firstCode cs next).any Script.continuesWith.contains =
      (!cs.any p.separators.contains && next.any Script.continuesWith.contains) := by
  induction cs with
  | nil => rfl
  | cons c rest ih =>
    obtain ⟨hc, hrest⟩ := List.forall_mem_cons.mp hblank
    by_cases hsep : p.separators.contains c = true
    · have hcode : Text.isSpace c = false ∧ Script.continuesWith.contains c = false := by
        rcases hfair c (List.contains_iff_mem.mp hsep) with rfl | rfl <;> decide
      have hfirst : firstCode (c :: rest) next = some c := by simp [firstCode, hcode.1]
      rw [hfirst, Option.any_some, hcode.2, List.any_cons, hsep]
      rfl
    · have hspace := hc.resolve_right hsep
      have hfirst : firstCode (c :: rest) next = firstCode rest next := by simp [firstCode, hspace]
      rw [hfirst, ih hrest, List.any_cons, Bool.eq_false_iff.mpr hsep, Bool.false_or]

/-- Blank characters end a segment once, or it goes on. -/
theorem cut_some_blank (hfair : p.Fair) (hblank : Blank p cs) (next : Option Char) (h : Held) (i : Nat)
    (ds : List Char) :
    (h.endsIn p cs (firstCode ds next) = true →
      ∃ segment, cut p next i (some h) (cs ++ ds) = segment :: cut p next (i + cs.length) none ds) ∧
    (h.endsIn p cs (firstCode ds next) = false →
      ∃ h', cut p next i (some h) (cs ++ ds) = cut p next (i + cs.length) (some h') ds) := by
  induction cs generalizing h i with
  | nil => exact ⟨fun hends => by simp [Held.endsIn] at hends, fun _ => ⟨h, rfl⟩⟩
  | cons c rest ih =>
    obtain ⟨hc, hrest⟩ := List.forall_mem_cons.mp hblank
    obtain ⟨hdepth, hangle⟩ := read_blank (h := h) (i := i) hfair hc
    have hlength : i + 1 + rest.length = i + (c :: rest).length := by rw [List.length_cons]; omega
    have hcontains : (c :: rest).contains '\n' = (c == '\n' || rest.contains '\n') := by
      rw [List.contains_cons, BEq.comm]
    have hends : h.ends p c (firstCode (rest ++ ds) next) = (h.depth == 0 && h.angle == 0 &&
        (p.separators.contains c || p.breaks && c == '\n' && !(p.goesOn && (h.isOpen ||
          !rest.any p.separators.contains && (firstCode ds next).any Script.continuesWith.contains)))) := by
      rw [Held.ends, firstCode_append, continues_firstCode hfair hrest]
    rw [List.cons_append, cut, ← hlength]
    cases hnow : h.ends p c (firstCode (rest ++ ds) next) with
    | true =>
      rw [if_pos rfl, cut_none_blank hrest]
      refine ⟨fun _ => ⟨_, rfl⟩, fun hnot => absurd hnot ?_⟩
      rw [hends] at hnow
      rw [Held.endsIn, List.any_cons, hcontains, Bool.not_eq_false]
      revert hnow
      generalize (h.depth == 0) = a, (h.angle == 0) = b, p.separators.contains c = d, p.breaks = e,
        (c == '\n') = f, p.goesOn = g, h.isOpen = k, rest.any p.separators.contains = l,
        (firstCode ds next).any Script.continuesWith.contains = m, rest.contains '\n' = n
      revert a b d e f g k l m n
      decide
    | false =>
      rw [if_neg Bool.false_ne_true]
      have hsame : h.endsIn p (c :: rest) (firstCode ds next) =
          (h.read p i c).endsIn p rest (firstCode ds next) := by
        rw [hends] at hnow
        rw [Held.endsIn, Held.endsIn, List.any_cons, hcontains, hdepth, hangle]
        by_cases hsep : p.separators.contains c = true
        · -- a separator ends a segment unless brackets are open
          rw [hsep, Bool.true_or, Bool.and_true] at hnow
          rw [hnow, Bool.false_and, Bool.false_and]
        · have hopen : (h.read p i c).isOpen = h.isOpen := if_pos (hc.resolve_right hsep)
          rw [hopen]
          rw [Bool.eq_false_iff.mpr hsep] at hnow ⊢
          revert hnow
          generalize (h.depth == 0) = a, (h.angle == 0) = b, p.breaks = e, (c == '\n') = f,
            p.goesOn = g, h.isOpen = k, rest.any p.separators.contains = l,
            (firstCode ds next).any Script.continuesWith.contains = m, rest.contains '\n' = n
          revert a b e f g k l m n
          decide
      rw [hsame]
      exact ih hrest _ _

/-! ## How many segments there are -/

/-- Whether a member and the next one are parted by the blank characters between them. -/
def parts (p : Splitter) (member between next : List Char) : Bool :=
  closed p member && (between.any p.separators.contains || (p.breaks && between.contains '\n' &&
    !(p.goesOn && (endsOpen p member || next.head?.any Script.continuesWith.contains))))

/-- Members, each with what comes after it. -/
def joined (ms : List (List Char × List Char)) : List Char := ms.flatMap fun m => m.1 ++ m.2

/-- All members are parted from the next one. -/
def AllParted (p : Splitter) : List (List Char × List Char) → Prop
  | m :: m' :: rest => parts p m.1 m.2 m'.1 = true ∧ AllParted p (m' :: rest)
  | _ => True

instance decidableAllParted (p : Splitter) : (ms : List (List Char × List Char)) → Decidable (AllParted p ms)
  | [] => isTrue trivial
  | [_] => isTrue trivial
  | m :: m' :: rest =>
    have := decidableAllParted p (m' :: rest)
    inferInstanceAs (Decidable (parts p m.1 m.2 m'.1 = true ∧ AllParted p (m' :: rest)))

/-- Whole members with blank characters after each. -/
def Beaded (p : Splitter) (ms : List (List Char × List Char)) : Prop := ∀ m ∈ ms, Whole p m.1 ∧ Blank p m.2

theorem Whole.firstCode_eq (hw : Whole p cs) (next : Option Char) : firstCode (cs ++ ds) next = cs.head? := by
  cases cs with
  | nil => exact hw.elim
  | cons c rest => simp [firstCode, hw.1]

theorem joined_cons (m : List Char × List Char) (rest : List (List Char × List Char)) :
    joined (m :: rest) = m.1 ++ (m.2 ++ joined rest) := by simp [joined]

/-- What follows a whole member ends its segment exactly if it parts the member from the next one. -/
theorem endsIn_heldOf (i : Nat) {m m' : List Char × List Char} {rest : List (List Char × List Char)}
    (hm' : Whole p m'.1) :
    (heldOf p i m.1).endsIn p m.2 (firstCode (joined (m' :: rest)) next) = parts p m.1 m.2 m'.1 := by
  rw [joined_cons, hm'.firstCode_eq, Held.endsIn, closed_heldOf, isOpen_heldOf, parts]

/-- There are no more segments than members: a segment that has not ended goes on into the next member.
There are as many exactly if all members are parted. -/
theorem length_cut (next : Option Char) (hfair : p.Fair) {ms : List (List Char × List Char)} (hms : Beaded p ms) :
    (∀ i, (cut p next i none (joined ms)).length ≤ ms.length ∧
      ((cut p next i none (joined ms)).length = ms.length ↔ AllParted p ms)) ∧
    (ms ≠ [] → ∀ i h, (cut p next i (some h) (joined ms)).length ≤ ms.length) := by
  induction ms with
  | nil => exact ⟨fun i => ⟨Nat.le_refl 0, iff_of_true rfl trivial⟩, fun hne => absurd rfl hne⟩
  | cons m rest ih =>
    obtain ⟨⟨hwhole, hblank⟩, hrest⟩ := List.forall_mem_cons.mp hms
    obtain ⟨hnone, hsome⟩ := ih hrest
    -- from the end of the first member on
    have hbetween : ∀ i h, (cut p next i (some h) (m.2 ++ joined rest)).length ≤ rest.length + 1 ∧
        ((cut p next i (some h) (m.2 ++ joined rest)).length = rest.length + 1 ↔ rest = [] ∨
          h.endsIn p m.2 (firstCode (joined rest) next) = true ∧ AllParted p rest) := by
      intro i h
      obtain ⟨hends, hstays⟩ := cut_some_blank hfair hblank next h i (joined rest)
      cases hcase : h.endsIn p m.2 (firstCode (joined rest) next) with
      | true =>
        obtain ⟨segment, heq⟩ := hends hcase
        obtain ⟨hle, hiff⟩ := hnone (i + m.2.length)
        rw [heq, List.length_cons, Nat.add_right_cancel_iff, hiff]
        refine ⟨Nat.succ_le_succ hle, fun h => Or.inr ⟨rfl, h⟩, ?_⟩
        rintro (rfl | ⟨-, h⟩)
        · exact trivial
        · exact h
      | false =>
        obtain ⟨h', heq⟩ := hstays hcase
        rw [heq]
        cases rest with
        | nil => exact ⟨Nat.le_refl 1, iff_of_true rfl (Or.inl rfl)⟩
        | cons m' more =>
          have hle := hsome (List.cons_ne_nil m' more) (i + m.2.length) h'
          refine ⟨Nat.le_succ_of_le hle, iff_of_false (by omega) ?_⟩
          rintro (hnil | ⟨htrue, -⟩)
          · cases hnil
          · cases htrue
    refine ⟨fun i => ?_, fun _ i h => ?_⟩
    · rw [joined_cons, hwhole.cut_none]
      obtain ⟨hle, hiff⟩ := hbetween (i + m.1.length) (heldOf p i m.1)
      refine ⟨hle, hiff.trans ?_⟩
      cases rest with
      | nil => exact iff_of_true (Or.inl rfl) trivial
      | cons m' more =>
        rw [endsIn_heldOf i (hrest m' List.mem_cons_self).1]
        exact or_iff_right (List.cons_ne_nil m' more)
    · rw [joined_cons, hwhole.cut_some]
      exact (hbetween _ _).1

/-! ## What is cut out of a text -/

/-- Characters from `i` on with the places of whole members in them, and blank characters around these. -/
inductive Tiled (p : Splitter) : (i : Nat) → List Char → List (Nat × Nat) → Prop
  | blank {i : Nat} {cs : List Char} (hblank : Blank p cs) : Tiled p i cs []
  | cons {i : Nat} {between member rest : List Char} {places : List (Nat × Nat)}
      (hblank : Blank p between) (hwhole : Whole p member)
      (hrest : Tiled p (i + between.length + member.length) rest places) :
      Tiled p i (between ++ (member ++ rest))
        ((i + between.length, i + between.length + member.length) :: places)

theorem Blank.append (h : Blank p cs) (h' : Blank p ds) : Blank p (cs ++ ds) :=
  fun c hc => (List.mem_append.mp hc).elim (h c) (h' c)

theorem Tiled.prepend {places : List (Nat × Nat)} (ds : List Char) (hblank : Blank p ds)
    (h : Tiled p (i + ds.length) cs places) : Tiled p i (ds ++ cs) places := by
  cases h with
  | blank h => exact .blank (hblank.append h)
  | @cons _ between member rest places h hwhole hrest =>
    have hplace : i + ds.length + between.length = i + (ds ++ between).length := by
      rw [List.length_append, Nat.add_assoc]
    rw [hplace] at hrest ⊢
    rw [← List.append_assoc]
    exact .cons (hblank.append h) hwhole hrest

/-- The code of a segment stops where its white space at the end starts. -/
theorem stop_readAll (i : Nat) {c : Char} (hc : Text.isSpace c = false) (cs : List Char) :
    ∃ code spaces, cs = code ++ spaces ∧ (∀ d ∈ spaces, Text.isSpace d = true) ∧
      (∀ d ∈ (c :: code).getLast?, Text.isSpace d = false) ∧
      ((Held.enter p i c).readAll p (i + 1) cs).stop = i + 1 + code.length := by
  induction cs using List.reverseRecOn with
  | nil =>
    refine ⟨[], [], rfl, by simp, by simpa using hc, ?_⟩
    simp [Held.readAll, Held.enter, Held.read, hc]
  | append_singleton cs d ih =>
    obtain ⟨code, spaces, rfl, hspaces, hlast, hstop⟩ := ih
    rw [readAll_append]
    simp only [Held.readAll, Held.read]
    by_cases hd : Text.isSpace d = true
    · refine ⟨code, spaces ++ [d], by rw [List.append_assoc], ?_, hlast, by rw [if_pos hd, hstop]⟩
      exact fun e he => (List.mem_append.mp he).elim (hspaces e) fun he => List.mem_singleton.mp he ▸ hd
    · refine ⟨code ++ spaces ++ [d], [], by rw [List.append_nil], by simp, ?_, ?_⟩
      · rw [← List.cons_append, List.getLast?_concat]
        simpa using hd
      · rw [if_neg hd]
        simp only [List.length_append, List.length_singleton]
        omega

/-- A segment that ends leaves a whole member. -/
theorem Tiled.close {c : Char} {places : List (Nat × Nat)} (hc : Text.isSpace c = false)
    (hsep : p.separators.contains c = false) (hs : Stays p next (Held.enter p i c) (i + 1) ds)
    (h : Tiled p (i + 1 + ds.length) cs places) :
    Tiled p i (c :: ds ++ cs)
      ((i, ((Held.enter p i c).readAll p (i + 1) ds).stop) :: places) := by
  obtain ⟨code, spaces, rfl, hspaces, hlast, hstop⟩ := stop_readAll (p := p) i hc ds
  have hwhole : Whole p (c :: code) := by
    refine ⟨hc, hsep, hlast, fun next' => ?_⟩
    have hcode := (stays_append.mp hs).1
    refine (hcode.congr ?_ next').mono (enter_le_read _ i 0 c)
    cases code with
    | nil => exact nofun
    | cons d more => rwa [List.getLast?_cons_cons] at hlast
  have hafter : Tiled p (i + 1 + code.length) (spaces ++ cs) places := by
    refine Tiled.prepend spaces (fun d hd => Or.inl (hspaces d hd)) ?_
    rwa [List.length_append, ← Nat.add_assoc] at h
  have hplace : i + 1 + code.length = i + ([] : List Char).length + (c :: code).length := by
    simp only [List.length_nil, List.length_cons]
    omega
  rw [hstop, hplace, List.cons_append, List.append_assoc, ← List.cons_append]
  rw [hplace] at hafter
  have hnone : Blank p [] := by simp [Blank]
  exact Tiled.cons hnone hwhole hafter

/-- The places that are cut are those of whole members, and around them everything is blank. -/
theorem tiled_cut (p : Splitter) (next : Option Char) (cs : List Char) :
    (∀ i, Tiled p i cs (cut p next i none cs)) ∧
      ∀ i c ds, Text.isSpace c = false → p.separators.contains c = false →
        Stays p (firstCode cs next) (Held.enter p i c) (i + 1) ds →
        Tiled p i (c :: ds ++ cs)
          (cut p next (i + 1 + ds.length) (some ((Held.enter p i c).readAll p (i + 1) ds)) cs) := by
  induction cs with
  | nil =>
    refine ⟨fun i => .blank (by simp [Blank]), fun i c ds hc hsep hs => ?_⟩
    rw [cut, start_readAll]
    exact .close hc hsep hs (.blank (by simp [Blank]))
  | cons d rest ih =>
    obtain ⟨hnone, hsome⟩ := ih
    refine ⟨fun i => ?_, fun i c ds hc hsep hs => ?_⟩
    · rw [cut]
      split
      · rename_i hblank
        refine Tiled.prepend [d] (fun e he => ?_) (hnone (i + 1))
        rw [List.mem_singleton.mp he]
        simpa using hblank
      · rename_i hcode
        simp only [Bool.or_eq_true, not_or, Bool.not_eq_true] at hcode
        exact hsome i d [] hcode.1 hcode.2 trivial
    · have hlength : i + 1 + ds.length + 1 = i + 1 + (ds ++ [d]).length := by
        rw [List.length_append, List.length_singleton, ← Nat.add_assoc]
      have hread : (((Held.enter p i c).readAll p (i + 1) ds).read p (i + 1 + ds.length) d) =
          (Held.enter p i c).readAll p (i + 1) (ds ++ [d]) := by
        rw [readAll_append]
        rfl
      rw [cut]
      split
      · -- the segment ends before a blank character
        rename_i hends
        rw [start_readAll]
        refine Tiled.close hc hsep hs (Tiled.prepend [d] (fun e he => ?_) (hnone _))
        rw [List.mem_singleton.mp he]
        simp only [Held.ends, Bool.and_eq_true, Bool.or_eq_true, beq_iff_eq] at hends
        rcases hends.2 with hsep' | ⟨⟨-, rfl⟩, -⟩
        · exact Or.inr hsep'
        · exact Or.inl (by decide)
      · rename_i hstays
        have hnext : c :: ds ++ d :: rest = c :: (ds ++ [d]) ++ rest := by simp
        rw [hlength, hread, hnext]
        refine hsome i c (ds ++ [d]) hc hsep (stays_append.mpr ⟨?_, ?_, trivial⟩)
        · rwa [← firstCode_append]
        · exact Bool.eq_false_iff.mpr hstays

/-! ## Places in a text -/

/-- Whether there is white space or a separator at an offset. -/
def blankAt (p : Splitter) (t : Text) (x : Nat) : Prop :=
  t.testAt x (fun c => Text.isSpace c || p.separators.contains c) = true

variable {t : Text} {a b x : Nat}

theorem blank_slice (h : ∀ x, a ≤ x → x < b → p.blankAt t x) : Blank p (t.slice a b) := by
  intro c hc
  obtain ⟨x, h1, h2, hx⟩ := Text.mem_slice.mp hc
  have := h x h1 h2
  rw [blankAt, Text.testAt_of_getElem? hx, Bool.or_eq_true] at this
  exact this

theorem blankAt_of_slice (h : Blank p (t.slice a b)) (hb : b ≤ t.size) (h1 : a ≤ x) (h2 : x < b) :
    p.blankAt t x := by
  have hx : t[x]? = some t[x] := Array.getElem?_eq_getElem (by omega)
  rw [blankAt, Text.testAt_of_getElem? hx, Bool.or_eq_true]
  exact h _ (Text.mem_slice.mpr ⟨x, h1, h2, hx⟩)

/-- In a text, the places that are cut out of a range hold whole members, and around them there is
nothing but white space and separators. -/
theorem Tiled.of_slice {places : List (Nat × Nat)} (hb : b ≤ t.size) (h : Tiled p a (t.slice a b) places) :
    (∀ q ∈ places, a ≤ q.1 ∧ q.1 ≤ q.2 ∧ q.2 ≤ b ∧ Whole p (t.slice q.1 q.2)) ∧
      ∀ x, a ≤ x → x < b → (∀ q ∈ places, ¬(q.1 ≤ x ∧ x < q.2)) → p.blankAt t x := by
  generalize hcs : t.slice a b = cs at h
  induction h with
  | blank hblank => exact ⟨nofun, fun x h1 h2 _ => blankAt_of_slice (hcs ▸ hblank) hb h1 h2⟩
  | @cons a between member rest places hblank hwhole hrest ih =>
    obtain ⟨hbetween, htail⟩ := Text.slice_eq_append hb hcs
    obtain ⟨hmember, hrest⟩ := Text.slice_eq_append hb htail.symm
    obtain ⟨hplaces, houtside⟩ := ih hrest.symm
    have hlength : between.length + (member.length + rest.length) = b - a := by
      rw [← Text.length_slice t hb, hcs, List.length_append, List.length_append]
    constructor
    · refine List.forall_mem_cons.mpr ⟨⟨Nat.le_add_right _ _, Nat.le_add_right _ _, ?_, hmember ▸ hwhole⟩, ?_⟩
      · cases member with
        | nil => exact hwhole.elim
        | cons c cs =>
          simp only [List.length_cons] at hlength ⊢
          omega
      · intro q hq
        obtain ⟨h1, h2, h3, h4⟩ := hplaces q hq
        exact ⟨by omega, h2, h3, h4⟩
    · intro x h1 h2 hout
      obtain ⟨hnot, hout⟩ := List.forall_mem_cons.mp hout
      by_cases hx : x < a + between.length
      · exact blankAt_of_slice (hbetween ▸ hblank) (by omega) h1 hx
      · exact houtside x (by omega) h2 hout

end Splitter

end MemberOrder
