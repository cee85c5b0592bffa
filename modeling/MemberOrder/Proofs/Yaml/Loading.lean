/-
  What a loader makes of the lines of a document.

  A loader turns a text into data: scalars, sequences and mappings, whatever their notation is. The
  order of the keys of a mapping does not count for what data are the same. This file claims nothing of
  one loader. It states what is used of any (`LoadsBlocks`): entries at one column that are loaded one by
  one are loaded together, one below the other, and a block inside an entry may be replaced by one that
  starts at its column and has its keys. Neither says anything of entries in another order.

  A text `Reads` as entries if it is loaded as a block of them and shows as such: it starts at the column
  of the entries, and its first line that holds data is the start of an entry. This makes for texts that
  can be put together (`Reads.append`, `Reads.nest`).
-/
import Mathlib.Data.List.Perm.Subperm
import MemberOrder.Data.Node
import MemberOrder.Proofs.Yaml.Table
import MemberOrder.Yaml.Cursor

namespace MemberOrder.Yaml

/-! ## Data -/

/-- What a node holds: how it is written does not count, but a tag that is kept does. -/
inductive Data where
  | scalar (value : Scalar) (tag : Option Tag)
  | sequence (items : List Data) (role : Role) (tag : Option Tag)
  | mapping (entries : List (Data × Data)) (role : Role) (tag : Option Tag)

mutual

/-- The data of a node. -/
def dataOf : Node → Data
  | .scalar value f => .scalar value f.tag
  | .sequence items f => .sequence (dataOfEach items) f.role f.tag
  | .mapping entries f => .mapping (dataOfEntries entries) f.role f.tag

/-- The data of nodes. -/
def dataOfEach : List Node → List Data
  | [] => []
  | n :: rest => dataOf n :: dataOfEach rest

/-- The data of entries. -/
def dataOfEntries : List (Node × Node) → List (Data × Data)
  | [] => []
  | (key, value) :: rest => (dataOf key, dataOf value) :: dataOfEntries rest

end

theorem dataOfEach_eq_map (items : List Node) : dataOfEach items = items.map dataOf := by
  induction items with
  | nil => rfl
  | cons n rest ih => rw [dataOfEach, ih, List.map_cons]

theorem dataOfEntries_eq_map (entries : List (Node × Node)) :
    dataOfEntries entries = entries.map fun e => (dataOf e.1, dataOf e.2) := by
  induction entries with
  | nil => rfl
  | cons e rest ih => rw [dataOfEntries, ih, List.map_cons]

mutual

/-- Decides whether data are equal. -/
def Data.decEq (d e : Data) : Decidable (d = e) :=
  match d, e with
  | .scalar value tag, .scalar value' tag' =>
    decidable_of_iff (value = value' ∧ tag = tag') (by simp)
  | .sequence items role tag, .sequence items' role' tag' =>
    have := Data.decEqEach items items'
    decidable_of_iff (items = items' ∧ role = role' ∧ tag = tag') (by simp)
  | .mapping entries role tag, .mapping entries' role' tag' =>
    have := Data.decEqEntries entries entries'
    decidable_of_iff (entries = entries' ∧ role = role' ∧ tag = tag') (by simp)
  | .scalar .., .sequence .. | .scalar .., .mapping .. | .sequence .., .scalar .. | .sequence .., .mapping ..
  | .mapping .., .scalar .. | .mapping .., .sequence .. => isFalse (by simp)

def Data.decEqEach (xs ys : List Data) : Decidable (xs = ys) :=
  match xs, ys with
  | [], [] => isTrue rfl
  | x :: xs, y :: ys =>
    have := Data.decEq x y
    have := Data.decEqEach xs ys
    decidable_of_iff (x = y ∧ xs = ys) (by simp)
  | [], _ :: _ | _ :: _, [] => isFalse (by simp)

def Data.decEqEntries (xs ys : List (Data × Data)) : Decidable (xs = ys) :=
  match xs, ys with
  | [], [] => isTrue rfl
  | (k, v) :: xs, (l, w) :: ys =>
    have := Data.decEq k l
    have := Data.decEq v w
    have := Data.decEqEntries xs ys
    decidable_of_iff ((k = l ∧ v = w) ∧ xs = ys) (by simp)
  | [], _ :: _ | _ :: _, [] => isFalse (by simp)

end

instance : DecidableEq Data := Data.decEq

mutual

/-- Data that are the same: the order of keys does not count. -/
inductive Data.Same : Data → Data → Prop
  | scalar (value : Scalar) (tag : Option Tag) : Data.Same (.scalar value tag) (.scalar value tag)
  | sequence {xs ys : List Data} (role : Role) (tag : Option Tag) (h : EachSame xs ys) :
      Data.Same (.sequence xs role tag) (.sequence ys role tag)
  | mapping {xs mid ys : List (Data × Data)} (role : Role) (tag : Option Tag) (hperm : xs.Perm mid)
      (h : EachSameEntry mid ys) : Data.Same (.mapping xs role tag) (.mapping ys role tag)

/-- Items that are the same, one by one. -/
inductive EachSame : List Data → List Data → Prop
  | nil : EachSame [] []
  | cons {x y : Data} {xs ys : List Data} (h : Data.Same x y) (hrest : EachSame xs ys) :
      EachSame (x :: xs) (y :: ys)

/-- Entries with the same keys and the same values, one by one. -/
inductive EachSameEntry : List (Data × Data) → List (Data × Data) → Prop
  | nil : EachSameEntry [] []
  | cons {k l v w : Data} {xs ys : List (Data × Data)} (hkey : Data.Same k l) (hvalue : Data.Same v w)
      (hrest : EachSameEntry xs ys) : EachSameEntry ((k, v) :: xs) ((l, w) :: ys)

end

mutual

theorem Data.Same.refl (d : Data) : d.Same d := by
  match d with
  | .scalar value tag => exact .scalar value tag
  | .sequence items role tag => exact .sequence role tag (EachSame.refl items)
  | .mapping entries role tag => exact .mapping role tag (.refl entries) (EachSameEntry.refl entries)

theorem EachSame.refl (xs : List Data) : EachSame xs xs := by
  match xs with
  | [] => exact .nil
  | x :: rest => exact .cons (Data.Same.refl x) (EachSame.refl rest)

theorem EachSameEntry.refl (xs : List (Data × Data)) : EachSameEntry xs xs := by
  match xs with
  | [] => exact .nil
  | (k, v) :: rest => exact .cons (Data.Same.refl k) (Data.Same.refl v) (EachSameEntry.refl rest)

end

/-! ## Blocks -/

/-- The entries of a block, each a key with its value. An item has nothing for a key. -/
abbrev Parts := List (Data × Data)

/-- What stands for the key of an item. -/
def noKey : Data := .scalar .null none

/-- A block collection of items or of keys with their values. -/
def blockOf (areItems : Bool) (tag : Option Tag) (parts : Parts) : Data :=
  if areItems then .sequence (parts.map (·.2)) .plain tag else .mapping parts .plain tag

/-- Entries with the same keys and values, in the same order if they are items. -/
def SameParts (areItems : Bool) (parts parts' : Parts) : Prop :=
  ∃ mid, parts.Perm mid ∧ (areItems = true → mid = parts) ∧
    List.Forall₂ (fun p q => p.1 = q.1 ∧ p.2.Same q.2) mid parts'

theorem SameParts.refl (areItems : Bool) (parts : Parts) : SameParts areItems parts parts :=
  ⟨parts, .refl parts, fun _ => rfl, List.forall₂_same.mpr fun _ _ => ⟨rfl, .refl _⟩⟩

theorem SameParts.keys_perm {areItems : Bool} {parts parts' : Parts} (h : SameParts areItems parts parts') :
    (parts.map (·.1)).Perm (parts'.map (·.1)) := by
  obtain ⟨mid, hperm, -, heach⟩ := h
  have hkeys : List.Forall₂ Eq (mid.map (·.1)) (parts'.map (·.1)) :=
    List.forall₂_map_left_iff.mpr (List.forall₂_map_right_iff.mpr (heach.imp fun _ _ h => h.1))
  rw [List.forall₂_eq_eq_eq] at hkeys
  exact hkeys ▸ hperm.map _

/-- Blocks of the same entries are the same. -/
theorem SameParts.block {areItems : Bool} {parts parts' : Parts} (h : SameParts areItems parts parts')
    (tag : Option Tag) : (blockOf areItems tag parts).Same (blockOf areItems tag parts') := by
  obtain ⟨mid, hperm, hkept, heach⟩ := h
  have hvalues : EachSame (mid.map (·.2)) (parts'.map (·.2)) := by
    clear hperm hkept
    induction heach with
    | nil => exact .nil
    | cons h _ ih => exact .cons h.2 ih
  have hentries : EachSameEntry mid parts' := by
    clear hperm hkept hvalues
    induction heach with
    | nil => exact .nil
    | @cons p q _ _ h _ ih =>
      obtain ⟨k, v⟩ := p
      obtain ⟨l, w⟩ := q
      obtain ⟨rfl, hvalue⟩ := h
      exact .cons (.refl _) hvalue ih
  cases areItems with
  | true =>
    rw [hkept rfl] at hvalues
    exact .sequence .plain tag hvalues
  | false => exact .mapping .plain tag hperm hentries

/-! ## Lines -/

/-- Blanks. -/
def spaces (n : Nat) : List Char := List.replicate n ' '

/-- The lines of a text without their breaks. -/
def linesOf (text : List Char) : List (List Char) := (Text.lines text).map withoutReturn

/-- Whether every carriage return is part of a line break. -/
def isSettled : List Char → Bool
  | [] => true
  | c :: rest => (c != '\r' || rest.head? == some '\n') && isSettled rest

/-- Whether a line bounds a document: three times a dash or a point, and a blank after them. -/
def isBoundary (line : List Char) : Bool :=
  match line with
  | a :: b :: c :: rest => a == b && b == c && (a == '-' || a == '.') && rest.head?.all isBlank
  | _ => false

/-- Whether a line is in a document, and is one line for every loader. -/
def isBare (line : List Char) : Bool :=
  line.all (fun c => !isBreak c && c.toNat != 0xFEFF) && !isBoundary line

/-- Whether a word is a tag or an anchor. -/
def isProperty (word : List Char) : Bool := word.head? == some '!' || word.head? == some '&'

/-- Whether a line of data is the first line of an entry at a column. It is neither the value that belongs
to a key above it, nor does it hold no more than the tags and anchors of what is below it. -/
def startsEntry (c : Nat) (line : List Char) : Bool :=
  indentOf line == c && !(Text.words line).head? == some [':'] && !(Text.words line).all isProperty

/-! ## The laws of a loader -/

/-- A loader: what it makes of a text, if anything. -/
abbrev DataLoader := List Char → Option Data

/-- A text that is loaded as entries at a column, and shows them: it starts at the column, and its first
line of data is the start of an entry. Items have no keys. -/
structure Reads (load : DataLoader) (tag : Option Tag) (c : Nat) (areItems : Bool) (text : List Char)
    (parts : Parts) : Prop where
  settled : isSettled text = true
  bare : (linesOf text).all isBare = true
  begins : ∃ x rest, text = spaces c ++ x :: rest ∧ Text.isSpace x = false
  starts : ((linesOf text).find? holdsData).any (startsEntry c) = true
  loads : load text = some (blockOf areItems tag parts)
  keyless : areItems = true → ∀ part ∈ parts, part.1 = noKey

/-- Keys that are in one block: some text is loaded as a block that has them. -/
def Fits (load : DataLoader) (tag : Option Tag) (areItems : Bool) (keys : List Data) : Prop :=
  ∃ c text parts, Reads load tag c areItems text parts ∧ keys.Subperm (parts.map (·.1))

/-- What stands in front of a block inside an entry at column `c`, up to column `c'`, at which the block
starts: either lines that hold data and the indentation of the block, or lines that hold none and the dash
of an item, beside which the block starts. -/
inductive Leads (c c' : Nat) (front : List Char) : Prop
  | below (above : List Char) (hfront : front = above ++ '\n' :: spaces c')
      (hbusy : (linesOf (spaces c ++ above)).any holdsData = true)
  | beside (above : List (List Char)) (gap : Nat)
      (hfront : spaces c ++ front = above.flatMap (· ++ ['\n']) ++ (spaces c ++ '-' :: spaces (gap + 1)))
      (hidle : ∀ line ∈ above, '\n' ∉ line ∧ holdsData (withoutReturn line) = false)
      (hcolumn : c' = c + gap + 2)

/-- A loader of block collections. An entry, and entries at the same column below it, are loaded together,
if their keys can be in one block. A block inside an entry may be replaced by a block that starts at its
column and has its keys. -/
structure LoadsBlocks (load : DataLoader) (tag : Option Tag) : Prop where
  append {c : Nat} {areItems : Bool} {a b : List Char} {part : Data × Data} {parts : Parts}
    (ha : Reads load tag c areItems a [part]) (hb : Reads load tag c areItems b parts)
    (hbreak : a.getLast? = some '\n') (hfits : Fits load tag areItems (part.1 :: parts.map (·.1))) :
    load (a ++ b) = some (blockOf areItems tag (part :: parts))
  nest {c c' : Nat} {areItems inner : Bool} {front b b' : List Char} {key : Data} {itag : Option Tag}
    {parts parts' : Parts} (hleads : Leads c c' front)
    (hentry : Reads load tag c areItems (spaces c ++ front ++ b) [(key, blockOf inner itag parts)])
    (hb : Reads load tag c' inner (spaces c' ++ b) parts)
    (hb' : Reads load tag c' inner (spaces c' ++ b') parts')
    (hkeys : (parts.map (·.1)).Perm (parts'.map (·.1))) :
    load (spaces c ++ front ++ b') = some (blockOf areItems tag [(key, blockOf inner itag parts')])

/-- What a loader makes of a text between others. -/
def within (load : DataLoader) (before below : List Char) : DataLoader := fun text => load (before ++ text ++ below)

section Blanks

variable {x : Char}

theorem isSpace_of_mem_spaces {n : Nat} {y : Char} (hy : y ∈ spaces n) : Text.isSpace y = true := by
  rw [List.eq_of_mem_replicate hy]
  decide

/-- A line that starts at a column with what is no white space. -/
theorem trimLeft_spaces (c : Nat) (hx : Text.isSpace x = false) (more : List Char) :
    Text.trimLeft (spaces c ++ x :: more) = x :: more := by
  rw [Text.trimLeft, List.dropWhile_append_of_pos fun _ => isSpace_of_mem_spaces, List.dropWhile_cons, hx,
    if_neg (by decide)]

theorem indentOf_spaces (c : Nat) (hx : Text.isSpace x = false) (more : List Char) :
    indentOf (spaces c ++ x :: more) = c := by
  rw [indentOf, List.takeWhile_append_of_pos fun _ => isSpace_of_mem_spaces, List.takeWhile_cons, hx,
    if_neg (by decide), List.append_nil, spaces, List.length_replicate]

theorem holdsData_spaces (c : Nat) (hx : Text.isSpace x = false) (hhash : x ≠ '#') (more : List Char) :
    holdsData (spaces c ++ x :: more) = true := by
  have hblank : Text.isBlank (spaces c ++ x :: more) = false := by
    rw [Text.isBlank, List.all_append, List.all_cons, hx, Bool.false_and, Bool.and_false]
  rw [holdsData, hblank, trimLeft_spaces c hx more]
  simpa using hhash

end Blanks

/-! ## Settled texts -/

section Settled

variable {a b : List Char}

theorem isSettled_append (ha : isSettled a = true) (hb : isSettled b = true) : isSettled (a ++ b) = true := by
  induction a with
  | nil => exact hb
  | cons c rest ih =>
    rw [isSettled, Bool.and_eq_true] at ha
    rw [List.cons_append, isSettled, ih ha.2, Bool.and_true]
    cases rest with
    | nil =>
      have hc : c ≠ '\r' := by simpa using ha.1
      simp [hc]
    | cons d rest => exact ha.1

theorem isSettled_right (h : isSettled (a ++ b) = true) : isSettled b = true := by
  induction a with
  | nil => exact h
  | cons c rest ih =>
    rw [List.cons_append, isSettled, Bool.and_eq_true] at h
    exact ih h.2

theorem isSettled_left (h : isSettled (a ++ b) = true) (ha : a.getLast? ≠ some '\r') : isSettled a = true := by
  induction a with
  | nil => rfl
  | cons c rest ih =>
    rw [List.cons_append, isSettled, Bool.and_eq_true] at h
    cases rest with
    | nil =>
      have hc : c ≠ '\r' := fun hc => ha (hc ▸ rfl)
      simp [isSettled, hc]
    | cons d rest =>
      rw [List.getLast?_cons_cons] at ha
      rw [isSettled, ih h.2 ha, Bool.and_true]
      exact h.1

end Settled

/-! ## Lines of texts that are put together -/

section Together

variable {a b piece : List Char}

/-- The pieces of texts with a separator between them. -/
theorem splitAt_separator {isSeparator : Char → Bool} {x : Char} (hx : isSeparator x = true) (a b : List Char) :
    Text.splitAt isSeparator (a ++ x :: b) = Text.splitAt isSeparator a ++ Text.splitAt isSeparator b := by
  induction a with
  | nil =>
    simp only [List.nil_append, Text.splitAt, hx, if_true, List.singleton_append]
  | cons c rest ih =>
    obtain ⟨first, more, hfirst⟩ := List.exists_cons_of_ne_nil (Text.splitAt_ne_nil isSeparator rest)
    rw [List.cons_append, Text.splitAt, Text.splitAt, ih, hfirst]
    cases isSeparator c <;> rfl

theorem linesOf_feed (a b : List Char) : linesOf (a ++ '\n' :: b) = linesOf a ++ linesOf b := by
  rw [linesOf, Text.lines, splitAt_separator rfl, List.map_append]
  rfl

/-- What follows a break is on lines of its own. -/
theorem linesOf_append (h : a.getLast? = some '\n') :
    ∃ before, linesOf a = before ++ [[]] ∧ ∀ b, linesOf (a ++ b) = before ++ linesOf b := by
  obtain ⟨body, rfl⟩ := List.getLast?_eq_some_iff.mp h
  refine ⟨linesOf body, linesOf_feed body [], fun b => ?_⟩
  rw [List.append_assoc]
  exact linesOf_feed body b

theorem linesOf_flatMap {above : List (List Char)} (h : ∀ line ∈ above, '\n' ∉ line) (b : List Char) :
    linesOf (above.flatMap (· ++ ['\n']) ++ b) = above.map withoutReturn ++ linesOf b := by
  induction above with
  | nil => rfl
  | cons line rest ih =>
    have hline : linesOf line = [withoutReturn line] := by
      rw [linesOf, Text.lines_of_not_mem (h line List.mem_cons_self), List.map_singleton]
    rw [List.flatMap_cons, List.append_assoc, List.append_assoc, List.singleton_append, linesOf_feed, hline,
      ih fun l hl => h l (List.mem_cons_of_mem line hl)]
    rfl

/-- What precedes a text without a break is on its first line. -/
theorem linesOf_piece (hfeed : '\n' ∉ piece) (hreturn : piece.getLast? ≠ some '\r') (b : List Char) :
    ∃ first rest, linesOf b = first :: rest ∧ linesOf (piece ++ b) = (piece ++ first) :: rest := by
  obtain ⟨line, more, hlines⟩ := List.exists_cons_of_ne_nil (Text.splitAt_ne_nil (· == '\n') b)
  have hpiece : Text.splitAt (· == '\n') (piece ++ b) = (piece ++ line) :: more := by
    clear hreturn
    induction piece with
    | nil => exact hlines
    | cons c rest ih =>
      rw [List.mem_cons, not_or] at hfeed
      rw [List.cons_append, Text.splitAt, ih hfeed.2, if_neg (by simpa using Ne.symm hfeed.1)]
      rfl
  refine ⟨withoutReturn line, more.map withoutReturn, ?_, ?_⟩
  · rw [linesOf, Text.lines, hlines, List.map_cons]
  · rw [linesOf, Text.lines, hpiece, List.map_cons]
    refine congrArg (· :: _) ?_
    cases line with
    | nil =>
      rw [List.append_nil, withoutReturn, if_neg (by simpa using hreturn)]
      exact (List.append_nil piece).symm
    | cons c rest =>
      rw [withoutReturn, withoutReturn, List.getLast?_append_of_ne_nil _ (List.cons_ne_nil c rest)]
      split
      · rw [List.dropLast_append_of_ne_nil (List.cons_ne_nil c rest)]
      · rfl

end Together

/-! ## Texts that are read are put together -/

section Readings

variable {load : DataLoader} {tag : Option Tag} {c c' : Nat} {areItems : Bool}

/-- An entry and the entries below it are read together. -/
theorem Reads.append {a b : List Char} {part : Data × Data} {parts : Parts} (hload : LoadsBlocks load tag)
    (ha : Reads load tag c areItems a [part]) (hb : Reads load tag c areItems b parts)
    (hbreak : a.getLast? = some '\n') (hfits : Fits load tag areItems (part.1 :: parts.map (·.1))) :
    Reads load tag c areItems (a ++ b) (part :: parts) := by
  obtain ⟨before, hlines, happend⟩ := linesOf_append hbreak
  have hbare := ha.bare
  have hstarts := ha.starts
  rw [hlines] at hbare hstarts
  refine ⟨isSettled_append ha.settled hb.settled, ?_, ?_, ?_, hload.append ha hb hbreak hfits, fun hitems =>
    List.forall_mem_cons.mpr ⟨ha.keyless hitems part List.mem_cons_self, hb.keyless hitems⟩⟩
  · rw [List.all_append, Bool.and_eq_true] at hbare
    rw [happend, List.all_append, hbare.1, hb.bare]
    rfl
  · obtain ⟨x, rest, rfl, hx⟩ := ha.begins
    exact ⟨x, rest ++ b, by simp, hx⟩
  · rw [happend, List.find?_append]
    rw [List.find?_append] at hstarts
    cases hfind : before.find? holdsData with
    | none =>
      rw [hfind] at hstarts
      cases hstarts
    | some line =>
      rw [hfind] at hstarts
      exact hstarts

theorem isBoundary_blank (line : List Char) : isBoundary (' ' :: line) = false := by
  unfold isBoundary
  split
  · rename_i heq
    cases heq
    simp
  · rfl

theorem isBoundary_dash (line : List Char) : isBoundary ('-' :: ' ' :: line) = false := by
  unfold isBoundary
  split
  · rename_i heq
    cases heq
    rfl
  · rfl

theorem isBare_dash (c gap : Nat) {line : List Char} (h : isBare (spaces c' ++ line) = true) :
    isBare (spaces c ++ '-' :: spaces (gap + 1) ++ line) = true := by
  rw [isBare, Bool.and_eq_true] at h ⊢
  obtain ⟨hall, -⟩ := h
  have hspaces (n : Nat) : (spaces n).all (fun c => !isBreak c && c.toNat != 0xFEFF) = true := by
    rw [List.all_eq_true]
    intro x hx
    rw [List.eq_of_mem_replicate hx]
    decide
  rw [List.all_append, Bool.and_eq_true] at hall
  refine ⟨?_, ?_⟩
  · rw [List.all_append, List.all_append, List.all_cons, hspaces, hspaces, hall.2]
    decide
  · rw [Bool.not_eq_true', List.append_assoc]
    cases c with
    | zero => exact isBoundary_dash _
    | succ c => exact isBoundary_blank _

theorem words_spaces (c : Nat) (cs : List Char) : Text.words (spaces c ++ cs) = Text.words cs := by
  induction c with
  | zero => rfl
  | succ c ih =>
    rw [← ih]
    show Text.words (' ' :: (spaces c ++ cs)) = _
    rw [Text.words, Text.splitAt, if_pos (by decide), List.filter_cons_of_neg (by decide)]
    rfl

/-- The first word of a line with a dash and a blank is the dash. -/
theorem words_dash (cs : List Char) : Text.words ('-' :: ' ' :: cs) = ['-'] :: Text.words cs := by
  rw [Text.words, Text.splitAt, if_neg (by decide), Text.splitAt, if_pos (by decide)]
  rfl

theorem startsEntry_dash (c gap : Nat) (line : List Char) :
    startsEntry c (spaces c ++ '-' :: spaces (gap + 1) ++ line) = true := by
  have hline : spaces c ++ '-' :: spaces (gap + 1) ++ line =
      spaces c ++ '-' :: ' ' :: (spaces gap ++ line) := by
    rw [List.append_assoc]
    rfl
  rw [hline, startsEntry, words_spaces, words_dash, indentOf_spaces c (by decide)]
  simp [isProperty]

theorem getLast?_blanks {x : Char} (hx : x ≠ '\r') (before : List Char) (n : Nat) :
    (before ++ x :: spaces n).getLast? ≠ some '\r' := by
  intro h
  rw [List.getLast?_append_of_ne_nil _ (List.cons_ne_nil _ _)] at h
  rcases List.mem_cons.mp (List.mem_of_getLast? h) with heq | hmem
  · exact hx heq.symm
  · exact absurd (List.eq_of_mem_replicate hmem) (by decide)

theorem Leads.front {front : List Char} (h : Leads c c' front) :
    front ≠ [] ∧ (spaces c ++ front).getLast? ≠ some '\r' := by
  cases h with
  | below above hfront hbusy =>
    rw [hfront, ← List.append_assoc]
    exact ⟨by simp, getLast?_blanks (by decide) _ _⟩
  | beside above gap hfront hidle hcolumn =>
    refine ⟨?_, ?_⟩
    · rintro rfl
      have hdash : '-' ∈ spaces c := by
        rw [← List.append_nil (spaces c), hfront]
        simp
      exact absurd (List.eq_of_mem_replicate hdash) (by decide)
    · rw [hfront, ← List.append_assoc]
      exact getLast?_blanks (by decide) _ _

/-- How lines show an entry at a column: they are bare, and the first line of data is its start. -/
def ShowsEntry (c : Nat) (text : List Char) : Prop :=
  (linesOf text).all isBare = true ∧ ((linesOf text).find? holdsData).any (startsEntry c) = true

/-- The first line of data is above a block that is below the start of its entry. -/
theorem ShowsEntry.below {above b b' : List Char} (hbusy : (linesOf (spaces c ++ above)).any holdsData = true)
    (h : ShowsEntry c (spaces c ++ (above ++ '\n' :: spaces c') ++ b))
    (hb' : (linesOf (spaces c' ++ b')).all isBare = true) :
    ShowsEntry c (spaces c ++ (above ++ '\n' :: spaces c') ++ b') := by
  have hlines (rest : List Char) : linesOf (spaces c ++ (above ++ '\n' :: spaces c') ++ rest) =
      linesOf (spaces c ++ above) ++ linesOf (spaces c' ++ rest) := by
    rw [← linesOf_feed]
    simp
  obtain ⟨hbare, hstarts⟩ := h
  rw [hlines, List.all_append, Bool.and_eq_true] at hbare
  rw [hlines, List.find?_append] at hstarts
  refine ⟨?_, ?_⟩
  · rw [hlines, List.all_append, hbare.1, hb']
    rfl
  · rw [hlines, List.find?_append]
    obtain ⟨line, hline, hdata⟩ := List.any_eq_true.mp hbusy
    cases hfind : (linesOf (spaces c ++ above)).find? holdsData with
    | none => exact absurd hdata (List.find?_eq_none.mp hfind line hline)
    | some first =>
      rw [hfind] at hstarts
      exact hstarts

/-- The first line of data is that of the dash beside which a block starts. -/
theorem ShowsEntry.beside {above : List (List Char)} {gap : Nat} {b b' : List Char}
    (hidle : ∀ line ∈ above, '\n' ∉ line ∧ holdsData (withoutReturn line) = false)
    (h : ShowsEntry c (above.flatMap (· ++ ['\n']) ++ (spaces c ++ '-' :: spaces (gap + 1)) ++ b))
    (hb' : (linesOf (spaces c' ++ b')).all isBare = true) :
    ShowsEntry c (above.flatMap (· ++ ['\n']) ++ (spaces c ++ '-' :: spaces (gap + 1)) ++ b') := by
  have hblank (n : Nat) : '\n' ∉ spaces n := fun h => absurd (List.eq_of_mem_replicate h) (by decide)
  have hdash : '\n' ∉ spaces c ++ '-' :: spaces (gap + 1) := by
    rw [List.mem_append, List.mem_cons]
    rintro (h | h | h)
    · exact hblank c h
    · cases h
    · exact hblank _ h
  obtain ⟨first, rest, hlines, hall⟩ := linesOf_piece hdash (getLast?_blanks (by decide) _ _) b'
  obtain ⟨first', rest', hlines', hinner⟩ := linesOf_piece (hblank c')
    (fun h => absurd (List.eq_of_mem_replicate (List.mem_of_getLast? h)) (by decide)) b'
  rw [hlines] at hlines'
  cases hlines'
  have hlines (rest : List Char) :
      linesOf (above.flatMap (· ++ ['\n']) ++ (spaces c ++ '-' :: spaces (gap + 1)) ++ rest) =
        above.map withoutReturn ++ linesOf (spaces c ++ '-' :: spaces (gap + 1) ++ rest) := by
    rw [List.append_assoc, linesOf_flatMap fun line hl => (hidle line hl).1]
  have hbare := h.1
  rw [hlines, List.all_append, Bool.and_eq_true] at hbare
  rw [hinner, List.all_cons, Bool.and_eq_true] at hb'
  refine ⟨?_, ?_⟩
  · rw [hlines, List.all_append, hbare.1, hall, List.all_cons, isBare_dash c gap hb'.1, hb'.2]
    rfl
  · have hnone : (above.map withoutReturn).find? holdsData = none := by
      rw [List.find?_eq_none]
      intro line hline
      obtain ⟨raw, hraw, rfl⟩ := List.mem_map.mp hline
      rw [(hidle raw hraw).2]
      decide
    have hdata : holdsData (spaces c ++ '-' :: spaces (gap + 1) ++ first) = true := by
      rw [List.append_assoc]
      exact holdsData_spaces c (by decide) (by decide) _
    rw [hlines, List.find?_append, hnone, Option.none_or, hall, List.find?_cons, hdata]
    exact startsEntry_dash c gap first

/-- Lines show an entry also with another block inside. -/
theorem Leads.showsEntry {front b b' : List Char} (hleads : Leads c c' front)
    (h : ShowsEntry c (spaces c ++ front ++ b)) (hb' : (linesOf (spaces c' ++ b')).all isBare = true) :
    ShowsEntry c (spaces c ++ front ++ b') := by
  cases hleads with
  | below above hfront hbusy =>
    rw [hfront] at h ⊢
    exact h.below hbusy hb'
  | beside above gap hfront hidle hcolumn =>
    rw [hfront] at h ⊢
    exact h.beside hidle hb'

/-- A block inside an entry that is read may be replaced. -/
theorem Reads.nest {inner : Bool} {front b b' : List Char} {key : Data} {itag : Option Tag}
    {parts parts' : Parts} (hload : LoadsBlocks load tag) (hleads : Leads c c' front)
    (hentry : Reads load tag c areItems (spaces c ++ front ++ b) [(key, blockOf inner itag parts)])
    (hb : Reads load tag c' inner (spaces c' ++ b) parts)
    (hb' : Reads load tag c' inner (spaces c' ++ b') parts')
    (hkeys : (parts.map (·.1)).Perm (parts'.map (·.1))) :
    Reads load tag c areItems (spaces c ++ front ++ b') [(key, blockOf inner itag parts')] := by
  obtain ⟨hne, hlast⟩ := hleads.front
  obtain ⟨hbare, hstarts⟩ := hleads.showsEntry ⟨hentry.bare, hentry.starts⟩ hb'.bare
  refine ⟨isSettled_append (isSettled_left hentry.settled hlast) (isSettled_right hb'.settled), hbare, ?_, hstarts,
    hload.nest hleads hentry hb hb' hkeys, fun hitems =>
    List.forall_mem_singleton.mpr (hentry.keyless hitems (key, blockOf inner itag parts) List.mem_cons_self)⟩
  -- the entry starts with what stands in front of the block
  obtain ⟨x, rest, htext, hx⟩ := hentry.begins
  rw [List.append_assoc] at htext
  have htext := List.append_cancel_left htext
  obtain ⟨y, more, rfl⟩ := List.exists_cons_of_ne_nil hne
  cases htext
  exact ⟨x, more ++ b', by simp, hx⟩

end Readings

end MemberOrder.Yaml
